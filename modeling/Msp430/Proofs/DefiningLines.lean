import Msp430.Proofs.ConstantValues
import Msp430.Proofs.StatementForms

/-! # The lines that define the symbols

A step of the first pass leaves the symbols as they are or defines the name that its
statement has in the first column (`Layout.step_defines_or_keeps`). So every symbol
was defined on its line (`Layout.exists_defines`) and belongs to it for good. The
final table and the listing therefore tell the same (`assemble_symbol`): a label has
the address of its line and a constant the value of its line, and every other line
with the name in its first column is a fault that left the symbols alone.
-/

namespace Msp430

theorem Statement.name?_of_label? {statement : Statement} {name : Text}
    (labelled : statement.label? = some name) : statement.name? = some name := by
  cases statement with
  | constant other operand => cases labelled
  | _ => exact labelled

namespace Layout

/-- How a line defines a symbol: as a label at its address, whatever becomes of the rest of the
line, or as a constant with the value of the line, if that is known. -/
structure Defines (layout : Layout) (number : Nat) (text : Text) (symbol : Symbol) : Prop where
  line : symbol.line = number
  identifier : Text.isIdentifier symbol.name = true
  defining :
    (∃ statement, Statement.classify text = .ok statement ∧
      statement.label? = some symbol.name ∧
      symbol.value? = some (layout.step number text).2.address) ∨
    ∃ operand value, Statement.classify text = .ok (.constant symbol.name operand) ∧
      (layout.step number text).2.content = .constant symbol.name value ∧
      symbol.value? = value.known?

theorem labelThen_symbols (layout : Layout) (label? : Option Text) (number : Nat)
    (rest : Layout → Except Fault Content) :
    (layout.labelThen label? number rest).1.symbols = layout.symbols ∨
      ∃ name, label? = some name ∧
        layout.symbols.define
          ⟨name, some (layout.labelThen label? number rest).1.counter, number⟩ .label =
            .ok (layout.labelThen label? number rest).1.symbols := by
  unfold labelThen
  cases accepted : layout.label label? number with
  | error fault => exact .inl rfl
  | ok labelled =>
      rcases label_eq_ok_iff.mp accepted with ⟨_, rfl⟩ | ⟨name, symbols, named, defined, rfl⟩
      · exact .inl rfl
      · exact .inr ⟨name, named, defined⟩

/-- A line that defines its label, if it has one, and then goes on does no more to the symbols. -/
theorem defines_or_keeps_of_labelThen {layout start : Layout} {number : Nat} {text : Text}
    {statement : Statement} {rest : Layout → Except Fault Content}
    (classified : Statement.classify text = .ok statement)
    (sameSymbols : start.symbols = layout.symbols)
    (placed : layout.place number statement = start.labelThen statement.label? number rest) :
    (layout.step number text).1.symbols = layout.symbols ∨
      ∃ symbol kind, layout.Defines number text symbol ∧
        layout.symbols.define symbol kind = .ok (layout.step number text).1.symbols := by
  have outcome : layout.outcome number text = start.labelThen statement.label? number rest := by
    rw [Layout.outcome, classified]
    exact placed
  have address := congrArg Line.address (layout.step_line number text)
  rw [outcome] at address
  rw [step_symbols, outcome, ← sameSymbols]
  rcases start.labelThen_symbols statement.label? number rest with same | ⟨name, named, defined⟩
  · exact .inl same
  · refine .inr ⟨_, _, ⟨rfl, (SymbolTable.define_eq_ok_iff.mp defined).1, .inl ?_⟩, defined⟩
    exact ⟨statement, classified, named, congrArg some address.symm⟩

/-- **What a line does to the symbols.** It leaves them as they are or defines its name. -/
theorem step_defines_or_keeps (layout : Layout) (number : Nat) (text : Text) :
    (layout.step number text).1.symbols = layout.symbols ∨
      ∃ symbol kind, layout.Defines number text symbol ∧
        layout.symbols.define symbol kind = .ok (layout.step number text).1.symbols := by
  cases classified : Statement.classify text with
  | error fault =>
      left
      rw [step_symbols, outcome, classified]
  | ok statement =>
      cases statement with
      | blank =>
          left
          rw [step_symbols, outcome, classified]
          rfl
      | comment =>
          left
          rw [step_symbols, outcome, classified]
          rfl
      | label name => exact defines_or_keeps_of_labelThen classified rfl rfl
      | data label? directive items => exact defines_or_keeps_of_labelThen classified rfl rfl
      | instruction label? operator operands =>
          exact defines_or_keeps_of_labelThen classified rfl rfl
      | origin label? address =>
          cases evaluation : Data.immediate address layout.counter layout.symbols.value? with
          | error fault =>
              left
              rw [step_symbols, outcome, classified]
              simp only [place, evaluation]
          | ok origin =>
              refine @defines_or_keeps_of_labelThen layout { layout with counter := origin } number
                text _ (fun _ => .ok (.origin origin)) classified rfl ?_
              simp only [place, evaluation]
              rfl
      | constant name operand =>
          cases placed : layout.constant name operand number with
          | error fault =>
              left
              rw [step_symbols, outcome, classified]
              simp only [place, placed]
          | ok result =>
              have clean : (layout.step number text).2.isFault = false := by
                obtain ⟨value, _, rest⟩ := bind_eq_ok_iff.mp placed
                obtain ⟨defining, _, done⟩ := bind_eq_ok_iff.mp rest
                cases done
                rw [step_line, outcome, classified]
                simp only [place, placed]
                rfl
              obtain ⟨expr, _, content, defined⟩ := step_constant classified clean
              refine .inr ⟨_, _, ⟨rfl, (SymbolTable.define_eq_ok_iff.mp defined).1, .inr ?_⟩,
                defined⟩
              exact ⟨operand, _, classified, content, rfl⟩

variable {origin : Word} {source : List Text}

/-- The symbols before a line were defined on the lines that they say. -/
theorem exists_defines {index : Nat} (bounded : index ≤ source.length) {name : Text}
    {symbol : Symbol} (found : (before origin source index).symbols.find? name = some symbol) :
    ∃ own text, own < index ∧ source[own]? = some text ∧
      (before origin source own).Defines (own + 1) text symbol := by
  refine before_induction (motive := fun index layout => ∀ name symbol,
    layout.symbols.find? name = some symbol → ∃ own text, own < index ∧
      source[own]? = some text ∧ (before origin source own).Defines (own + 1) text symbol)
    ?_ ?_ bounded name symbol found
  · intro name symbol found
    cases found
  · rintro index text layout present rfl ih name symbol found
    have older : (before origin source index).symbols.find? name = some symbol →
        ∃ own text, own < index + 1 ∧ source[own]? = some text ∧
          (before origin source own).Defines (own + 1) text symbol := by
      intro old
      obtain ⟨own, ownText, inFront, ownPresent, defines⟩ := ih name symbol old
      exact ⟨own, ownText, by omega, ownPresent, defines⟩
    rcases step_defines_or_keeps (before origin source index) (index + 1) text with
      same | ⟨fresh, kind, defines, defined⟩
    · exact older (same ▸ found)
    · rw [SymbolTable.find?_of_define defined] at found
      split at found
      case isTrue =>
        cases found
        exact ⟨index, text, Nat.lt_succ_self index, present, defines⟩
      case isFalse => exact older found

end Layout

section Assembled

variable {origin : Word} {source : List Text} {symbol : Symbol}

theorem ordered_assemble (origin : Word) (source : List Text) :
    (assemble origin source).symbols.Ordered :=
  (assemble_run origin source).ordered (Layout.registered_ofSource origin source).ordered

/-- A symbol of the program was defined on its line, and has kept the value that it had then. -/
theorem exists_defines_of_mem (member : symbol ∈ (assemble origin source).symbols.symbols) :
    ∃ own text early, source[own]? = some text ∧
      (Layout.before origin source own).Defines (own + 1) text early ∧
      early.name = symbol.name ∧ early.line = symbol.line ∧
      ∀ word, early.value? = some word → symbol.value? = some word := by
  have found := (ordered_assemble origin source).find?_eq_some_iff.mpr ⟨member, rfl⟩
  have run := assemble_run origin source
  cases placed : (Layout.ofSource origin source).1.symbols.find? symbol.name with
  | none =>
      rw [run.find?_eq_none placed] at found
      cases found
  | some early =>
      obtain ⟨grown, foundGrown, name, line, value⟩ := run.grows placed
      rw [found] at foundGrown
      cases foundGrown
      rw [← Layout.before_length] at placed
      obtain ⟨own, text, _, present, defines⟩ := Layout.exists_defines (Nat.le_refl _) placed
      exact ⟨own, text, early, present, defines, name.symm, line.symm, value⟩

/-- What a line defines in the first pass is a symbol of the program on that line. -/
theorem line_of_define {index : Nat} {text : Text} (present : source[index]? = some text)
    {fresh : Symbol} {kind : SymbolKind}
    (defined : (Layout.before origin source index).symbols.define fresh kind =
      .ok (Layout.before origin source (index + 1)).symbols)
    (member : symbol ∈ (assemble origin source).symbols.symbols)
    (same : Text.upper fresh.name = symbol.key) : symbol.line = fresh.line := by
  have bounded : index + 1 ≤ source.length := (List.getElem?_eq_some_iff.mp present).1
  have found := (ordered_assemble origin source).find?_eq_some_iff.mpr ⟨member, same.symm⟩
  exact (assemble_grows origin source bounded).line_of_find?
    (SymbolTable.find?_of_define_self defined) found

/-- The line of a constant ends as that constant with the value of its symbol, or as a fault if the
symbol has none. -/
theorem finished_of_constant {index : Nat} {text : Text} (present : source[index]? = some text)
    {value : Value}
    (content : ((Layout.before origin source index).step (index + 1) text).2.content =
      .constant symbol.name value)
    (member : symbol ∈ (assemble origin source).symbols.symbols)
    (kept : ∀ word, value.known? = some word → symbol.value? = some word) :
    let line := ((Layout.before origin source index).step (index + 1) text).2.finished
      (assemble origin source).symbols
    (∃ word, symbol.value? = some word ∧ line.content = .constant symbol.name (.known word)) ∨
      (symbol.value? = none ∧ line.isFault = true) := by
  have found := (ordered_assemble origin source).find?_eq_some_iff.mpr ⟨member, rfl⟩
  have valued : (assemble origin source).symbols.value? symbol.name = symbol.value? := by
    rw [SymbolTable.value?, found]
    rfl
  cases value with
  | known word =>
      have plain : ((Layout.before origin source index).step (index + 1) text).2.waiting? =
          none := by
        rw [Line.waiting?, content]
      refine .inl ⟨word, kept word rfl, ?_⟩
      rw [Line.finished_of_none plain, content]
      rfl
  | pending reference =>
      have waits := Line.waiting?_eq_some_iff.mpr content
      cases settled : symbol.value? with
      | some word =>
          refine .inl ⟨word, rfl, ?_⟩
          rw [Line.finished_of_value? waits (valued.trans settled)]
          rfl
      | none =>
          refine .inr ⟨rfl, ?_⟩
          obtain ⟨mention, _, _, stuck⟩ := assemble_stuck origin source
            (step_mem_ofSource present) waits (valued.trans settled)
          rw [Line.finished_of_stuck waits (valued.trans settled) stuck]
          rfl

/-- A line that has the name of a symbol in its first column, but is not the line of the symbol, is
a fault and defines nothing. -/
theorem fault_of_firstColumn? (member : symbol ∈ (assemble origin source).symbols.symbols)
    (unreserved : Mnemonic.isReserved symbol.name = false) {index : Nat} {text name : Text}
    (present : source[index]? = some text) (foreign : symbol.line ≠ index + 1)
    (carried : firstColumn? text = some name) (same : Text.upper name = symbol.key) :
    ((Layout.before origin source index).step (index + 1) text).2.isFault = true ∧
      (Layout.before origin source (index + 1)).symbols =
        (Layout.before origin source index).symbols := by
  have undefined : ∀ {fresh : Symbol} {kind : SymbolKind}, fresh.line = index + 1 →
      Text.upper fresh.name = symbol.key →
      (Layout.before origin source index).symbols.define fresh kind ≠
        .ok (Layout.before origin source (index + 1)).symbols := by
    intro fresh kind line sameName defined
    exact foreign ((line_of_define present defined member sameName).trans line)
  have named : ∀ {statement : Statement}, Statement.classify text = .ok statement →
      statement.name? = some name := by
    intro statement classified
    rcases Statement.classify_parts classified with ⟨_, reserved⟩ | ⟨inColumn, _, _⟩
    · -- The name would be reserved, and so would be the name of the symbol.
      have nameReserved := reserved name carried
      rw [← Mnemonic.isReserved_upper, same, Symbol.key, Mnemonic.isReserved_upper,
        unreserved] at nameReserved
      cases nameReserved
    · exact inColumn.trans carried
  have after := @Layout.before_succ origin source index text present
  constructor
  · rw [← Bool.not_eq_false]
    intro clean
    obtain ⟨statement, classified, kinds⟩ := Layout.step_definition clean
    rw [← after] at kinds
    rcases kinds with ⟨unnamed, _⟩ | ⟨label, isNamed, _, defined⟩ |
      ⟨constant, operand, expr, rfl, _, _, defined⟩
    · rw [named classified] at unnamed
      cases unnamed
    · rw [named classified] at isNamed
      cases isNamed
      exact undefined rfl same defined
    · cases named classified
      exact undefined rfl same defined
  · rcases (Layout.before origin source index).step_defines_or_keeps (index + 1) text with
      kept | ⟨fresh, kind, defines, defined⟩
    · rw [after, kept]
    · rw [← after] at defined
      have sameName : fresh.name = name := by
        rcases defines.defining with ⟨statement, classified, labelled, _⟩ |
          ⟨operand, value, classified, _⟩
        · exact Option.some.inj ((Statement.name?_of_label? labelled).symm.trans (named classified))
        · exact Option.some.inj (named classified)
      exact (undefined defines.line (sameName ▸ same) defined).elim

/-- A line that the second pass settled was a constant, so it had no fault. -/
theorem isFault_of_reading {reading : Settlement.Reading}
    (logged : reading ∈ readings origin source) {index : Nat} {text : Text}
    (present : source[index]? = some text) (number : reading.line.number = index + 1) :
    ((Layout.before origin source index).step (index + 1) text).2.isFault = false := by
  have registered := Layout.registered_ofSource origin source
  obtain ⟨member, _, _, name, reference, _, waits, _⟩ :=
    (assemble_run origin source).reading_spec registered.settleable logged
  have same := List.inj_on_of_nodup_map registered.numbered member (step_mem_ofSource present)
    number
  rw [← same, Line.isFault, Line.waiting?_eq_some_iff.mp waits]
  rfl

/-- **The symbol table agrees with the listing.** Every symbol has a name that is an identifier and
not reserved, and belongs to a source line that has the name as its label or as its constant. A
label has the address of its line as its value, whatever the rest of the line is. The line of a
constant ends as that constant with the same value, or as a fault if the symbol has no value. Any
other line with the name in its first column, in any letter case, ends as a fault; it defined
nothing in the first pass and settled nothing in the second one. -/
theorem assemble_symbol (origin : Word) (source : List Text) {symbol : Symbol}
    (member : symbol ∈ (assemble origin source).symbols.symbols) :
    Text.isIdentifier symbol.name = true ∧ Mnemonic.isReserved symbol.name = false ∧
      ∃ own text statement line, symbol.line = own + 1 ∧ source[own]? = some text ∧
        Statement.classify text = .ok statement ∧
        (assemble origin source).lines[own]? = some line ∧
        ((statement.label? = some symbol.name ∧ symbol.value? = some line.address) ∨
          ∃ operand, statement = .constant symbol.name operand ∧
            ((∃ word, symbol.value? = some word ∧
                line.content = .constant symbol.name (.known word)) ∨
              (symbol.value? = none ∧ line.isFault = true))) ∧
        ∀ other otherText name, other ≠ own → source[other]? = some otherText →
          firstColumn? otherText = some name → Text.upper name = symbol.key →
          (∃ otherLine, (assemble origin source).lines[other]? = some otherLine ∧
              otherLine.isFault = true) ∧
            (Layout.before origin source (other + 1)).symbols =
              (Layout.before origin source other).symbols ∧
            ∀ reading ∈ readings origin source, reading.line.number ≠ other + 1 := by
  obtain ⟨own, text, early, present, defines, sameName, sameLine, kept⟩ :=
    exists_defines_of_mem member
  have owned : symbol.line = own + 1 := sameLine.symm.trans defines.line
  have identifier : Text.isIdentifier symbol.name = true := sameName ▸ defines.identifier
  obtain ⟨statement, classified, named⟩ : ∃ statement,
      Statement.classify text = .ok statement ∧ statement.name? = some symbol.name := by
    rcases defines.defining with ⟨statement, classified, labelled, _⟩ |
      ⟨operand, value, classified, _⟩
    · exact ⟨statement, classified, sameName ▸ Statement.name?_of_label? labelled⟩
    · exact ⟨_, classified, sameName ▸ rfl⟩
  have unreserved := (Statement.name?_sound classified named).2.1
  refine ⟨identifier, unreserved, own, text, statement, _, owned, present, classified,
    assemble_getElem? origin source present, ?_, ?_⟩
  · rcases defines.defining with ⟨labelling, same, labelled, valued⟩ |
      ⟨operand, value, same, content, valued⟩
    · rw [classified] at same
      cases same
      exact .inl ⟨sameName ▸ labelled, kept _ valued⟩
    · rw [classified] at same
      cases same
      rw [sameName] at content
      refine .inr ⟨operand, by rw [sameName], ?_⟩
      exact finished_of_constant present content member fun word known =>
        kept word (valued.trans known)
  · intro other otherText name different otherPresent carried same
    have foreign : symbol.line ≠ other + 1 := by omega
    obtain ⟨fault, unchanged⟩ :=
      fault_of_firstColumn? member unreserved otherPresent foreign carried same
    refine ⟨⟨_, assemble_getElem? origin source otherPresent, ?_⟩, unchanged, ?_⟩
    · rw [← Bool.not_eq_false]
      intro clean
      rw [Line.isFault_of_finished clean] at fault
      cases fault
    · intro reading logged number
      rw [isFault_of_reading logged otherPresent number] at fault
      cases fault

/-- A constant that has to wait for a label, and a label of the same name in other letters. -/
theorem assemble_symbol_duplicate :
    let source := ["Loop MOV #1".toList, "LOOP EQU 5".toList, "Gap EQU Later+1".toList,
      "gap: DW 1".toList, "Later DW 2".toList, "Lost EQU Nowhere".toList]
    (⟨"Gap".toList, some 0x0201, 3⟩ : Symbol) ∈ (assemble 0x0200 source).symbols.symbols ∧
      (∃ line, (assemble 0x0200 source).lines[2]? = some line ∧
        line.content = .constant "Gap".toList (.known 0x0201)) ∧
      (∃ line, (assemble 0x0200 source).lines[3]? = some line ∧ line.isFault = true) ∧
      (Layout.before 0x0200 source 4).symbols = (Layout.before 0x0200 source 3).symbols := by
  intro source
  have member : (⟨"Gap".toList, some 0x0201, 3⟩ : Symbol) ∈
      (assemble 0x0200 source).symbols.symbols := by decide +kernel
  obtain ⟨_, _, own, text, statement, line, owned, present, classified, found, kind, others⟩ :=
    assemble_symbol 0x0200 source member
  obtain rfl : own = 2 := by
    change 3 = own + 1 at owned
    omega
  obtain ⟨fault, unchanged, _⟩ :=
    others 3 "gap: DW 1".toList "gap".toList (by omega) rfl (by decide +kernel) (by decide +kernel)
  refine ⟨member, ⟨line, found, ?_⟩, fault, unchanged⟩
  rcases kind with ⟨labelled, _⟩ | ⟨operand, _, ⟨word, valued, content⟩ | ⟨missing, _⟩⟩
  · cases present
    rw [show Statement.classify "Gap EQU Later+1".toList =
      .ok (.constant "Gap".toList "Later+1".toList) by decide +kernel] at classified
    cases classified
    cases labelled
  · cases valued
    exact content
  · cases missing

end Assembled

end Msp430
