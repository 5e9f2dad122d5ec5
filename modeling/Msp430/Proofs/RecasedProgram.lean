import Msp430.Proofs.ListingBytes
import Msp430.Proofs.RecasedStatements

/-! # Programs in any letter case

Both passes commute with upper case: a line in upper case is placed and completed as
the line is, and leaves a table with the same keys, values and lines behind. So does a
run over all lines (`assemble_upper`), and two sources that differ in letter case
alone, being equal in upper case, become programs that are equal up to letter case
(`assemble_recased`).
-/

namespace Msp430

/-! ### Symbols -/

/-- The symbol with its name in upper case. -/
def Symbol.upper (symbol : Symbol) : Symbol :=
  { symbol with name := Text.upper symbol.name }

/-- A symbol has one key in both spellings. -/
theorem Symbol.key_upper (symbol : Symbol) : symbol.upper.key = symbol.key :=
  Text.upper_upper symbol.name

namespace SymbolTable

/-- The table with its names in upper case. -/
def upper (table : SymbolTable) : SymbolTable :=
  ⟨table.symbols.map Symbol.upper⟩

/-- A table in upper case has the values of the table. -/
theorem value?_upper (table : SymbolTable) : table.upper.value? = table.value? := by
  funext name
  rw [value?, upper, find?_map Symbol.key_upper, value?]
  cases table.find? name <;> rfl

/-- Names are looked up in any letter case. -/
theorem caseless (table : SymbolTable) : table.value?.Caseless :=
  fun name => table.value?_congr (Text.upper_upper name)

/-- A symbol is defined, or refused for the same fault, in both spellings. -/
theorem define_upper (table : SymbolTable) (symbol : Symbol) (kind : SymbolKind) :
    table.upper.define symbol.upper kind = Outcome.upper upper (table.define symbol kind) := by
  have found : (table.upper.find? (Text.upper symbol.name)).isSome =
      (table.find? symbol.name).isSome := by
    rw [upper, find?_map Symbol.key_upper, Option.isSome_map,
      table.find?_congr (Text.upper_upper symbol.name)]
  rw [define, Symbol.upper, Text.isIdentifier_upper, found, define]
  split
  case isTrue => rfl
  case isFalse =>
    split
    case isTrue => rfl
    case isFalse =>
      exact congrArg (Except.ok ∘ SymbolTable.mk) (Symbol.insertByKey_map Symbol.key_upper symbol _)

/-- A symbol is settled in both spellings. -/
theorem settle_upper (table : SymbolTable) (name : Text) (word : Word) :
    table.upper.settle (Text.upper name) word = (table.settle name word).upper := by
  simp only [settle, upper, List.map_map, Text.upper_upper]
  congr 1
  apply List.map_congr_left
  intro symbol _
  simp only [Function.comp_apply, Symbol.key_upper]
  split <;> rfl

end SymbolTable

/-! ### The first pass -/

/-- The content with its names, and the text of a fault, in upper case. -/
def Content.upper : Content → Content
  | blank => blank
  | text => text
  | constant name value => constant (Text.upper name) value.upper
  | code fields => code (fields.map Field.upper)
  | origin address => origin address
  | fault cause => fault cause.upper

theorem Content.ofResult_upper (result : Except Fault Content) :
    ofResult (Outcome.upper Content.upper result) = (ofResult result).upper := by
  cases result <;> rfl

/-- What a line stores has one size in both spellings. -/
theorem Content.size_upper (content : Content) : content.upper.size = content.size := by
  cases content with
  | code fields => simp only [upper, size, List.foldr_map, Field.size_upper]
  | _ => rfl

/-- The line with its text and its content in upper case. -/
def Line.upper (line : Line) : Line :=
  { line with source := Text.upper line.source, content := line.content.upper }

namespace Layout

/-- The state with the names of its symbols in upper case. -/
def upper (layout : Layout) : Layout :=
  { layout with symbols := layout.symbols.upper }

theorem define_upper (layout : Layout) (symbol : Symbol) (kind : SymbolKind) :
    layout.upper.define symbol.upper kind = Outcome.upper upper (layout.define symbol kind) := by
  rw [define, define]
  change (layout.symbols.upper.define symbol.upper kind >>= _) = _
  rw [SymbolTable.define_upper]
  exact Outcome.upper_bind fun _ _ => rfl

/-- A line with a label commutes with upper case if the rest of it does. -/
theorem labelThen_upper (layout : Layout) (label? : Option Text) (number : Nat)
    {rest restUpper : Layout → Except Fault Content}
    (commutes : ∀ labelled : Layout,
      restUpper labelled.upper = Outcome.upper Content.upper (rest labelled)) :
    layout.upper.labelThen (label?.map Text.upper) number restUpper =
      ((layout.labelThen label? number rest).1.upper,
        Outcome.upper Content.upper (layout.labelThen label? number rest).2) := by
  have labelled : layout.upper.label (label?.map Text.upper) number =
      Outcome.upper upper (layout.label label? number) := by
    cases label? with
    | none => rfl
    | some name => exact layout.define_upper ⟨name, some layout.counter, number⟩ .label
  rw [labelThen, labelled, labelThen]
  cases layout.label label? number with
  | error fault => rfl
  | ok labelled => exact congrArg (Prod.mk labelled.upper) (commutes labelled)

/-- Placing a statement without quotes commutes with upper case. -/
theorem place_upper (layout : Layout) (number : Nat) {statement : Statement}
    (quoteless : ∀ part ∈ statement.texts, part.Quoteless) :
    layout.upper.place number statement.upper =
      ((layout.place number statement).1.upper,
        Outcome.upper Content.upper (layout.place number statement).2) := by
  have values : ∀ layout : Layout, layout.upper.symbols.value? = layout.symbols.value? :=
    fun layout => layout.symbols.value?_upper
  cases statement with
  | blank => rfl
  | comment => rfl
  | label name => exact layout.labelThen_upper (some name) number fun _ => rfl
  | constant name value =>
      have unquoted := quoteless value List.mem_cons_self
      have constant : layout.upper.constant (Text.upper name) (Text.upper value) number =
          Outcome.upper (fun placed => (placed.1.upper, placed.2.upper))
            (layout.constant name value number) := by
        rw [Layout.constant, values, Expr.evaluate_upper layout.symbols.caseless unquoted,
          Layout.constant]
        apply Outcome.upper_bind
        intro value _
        rw [Value.known?_upper]
        rw [show (⟨Text.upper name, value.known?, number⟩ : Symbol) =
          Symbol.upper ⟨name, value.known?, number⟩ from rfl, define_upper]
        exact Outcome.upper_bind fun _ _ => rfl
      simp only [Statement.upper, place, constant]
      cases layout.constant name value number <;> rfl
  | origin label? address =>
      have unquoted := quoteless address List.mem_cons_self
      simp only [Statement.upper, place]
      rw [values, Data.immediate_upper layout.symbols.caseless _ unquoted]
      rw [show layout.upper.counter = layout.counter from rfl]
      cases Data.immediate address layout.counter layout.symbols.value? with
      | error fault => rfl
      | ok origin =>
          exact labelThen_upper { layout with counter := origin } label? number fun _ => rfl
  | data label? directive items =>
      have unquoted := quoteless items List.mem_cons_self
      apply labelThen_upper
      intro labelled
      rw [values, Data.fields_upper labelled.symbols.caseless directive _ unquoted]
      exact Outcome.upper_bind fun _ _ => rfl
  | instruction label? operator operands =>
      apply labelThen_upper
      intro labelled
      rw [values, encode_upper labelled.symbols.caseless operator quoteless]
      exact Outcome.upper_bind fun _ _ => rfl

/-- Placing a line without quotes commutes with upper case. -/
theorem step_upper (layout : Layout) (number : Nat) {text : Text} (quoteless : text.Quoteless) :
    layout.upper.step number (Text.upper text) =
      ((layout.step number text).1.upper, (layout.step number text).2.upper) := by
  have outcome : layout.upper.outcome number (Text.upper text) =
      ((layout.outcome number text).1.upper,
        Outcome.upper Content.upper (layout.outcome number text).2) := by
    rw [Layout.outcome, Statement.classify_upper, Layout.outcome]
    cases classified : Statement.classify text with
    | error fault => rfl
    | ok statement =>
        apply place_upper
        rcases Statement.classify_parts classified with ⟨rfl | rfl, _⟩ | ⟨_, _, inside⟩
        · exact fun _ member => by cases member
        · exact fun _ member => by cases member
        · exact fun part member => quoteless.mono (inside part member)
  rw [step_eq, outcome, Content.ofResult_upper, Content.size_upper, step_eq]
  rfl

/-- The first pass over a source in upper case gives the symbols and the lines in upper case. -/
theorem steps_upper (layout : Layout) (number : Nat) {source : List Text}
    (quoteless : ∀ text ∈ source, text.Quoteless) :
    layout.upper.steps number (source.map Text.upper) =
      ((layout.steps number source).1.upper, (layout.steps number source).2.map Line.upper) := by
  induction source generalizing layout number with
  | nil => rfl
  | cons text rest ih =>
      obtain ⟨first, others⟩ := List.forall_mem_cons.mp quoteless
      simp only [List.map_cons, steps, layout.step_upper number first, ih _ _ others]

end Layout

/-! ### The second pass -/

/-- A line waits with the same constant in both spellings. -/
theorem Line.waiting?_upper (line : Line) :
    line.upper.waiting? =
      line.waiting?.map fun constant => (Text.upper constant.1, constant.2.upper) := by
  obtain ⟨number, address, source, content⟩ := line
  cases content with
  | constant name value => cases value <;> rfl
  | _ => rfl

namespace Settlement

/-- A sweep commutes with upper case. -/
theorem sweep_upper (table : SymbolTable) (lines : List Line) :
    sweep table.upper (lines.map Line.upper) =
      ((sweep table lines).1.upper, (sweep table lines).2.map Line.upper) := by
  induction lines generalizing table with
  | nil => rfl
  | cons line rest ih =>
      have waitsUpper := line.waiting?_upper
      rw [List.map_cons]
      cases waits : line.waiting? with
      | none =>
          rw [waits] at waitsUpper
          rw [(sweep_cons_of_none table rest waits).1,
            (sweep_cons_of_none table.upper (rest.map Line.upper) waitsUpper).1, ih]
          rfl
      | some constant =>
          obtain ⟨name, reference⟩ := constant
          rw [waits, Option.map_some] at waitsUpper
          have resolveUpper := reference.resolve_upper table.caseless
          rw [← table.value?_upper] at resolveUpper
          cases resolved : reference.resolve table.value? with
          | ok word =>
              rw [table.value?_upper, resolved, ← table.value?_upper] at resolveUpper
              rw [(sweep_cons_of_ok rest waits resolved).1,
                (sweep_cons_of_ok (rest.map Line.upper) waitsUpper resolveUpper).1,
                table.settle_upper, ih]
              rfl
          | error missing =>
              rw [table.value?_upper, resolved, ← table.value?_upper] at resolveUpper
              rw [(sweep_cons_of_error rest waits resolved).1,
                (sweep_cons_of_error (rest.map Line.upper) waitsUpper resolveUpper).1, ih]
              rfl

theorem pendingCount_upper (lines : List Line) :
    pendingCount (lines.map Line.upper) = pendingCount lines := by
  have pending : ∀ line : Line,
      line.upper.content.isPendingConstant = line.content.isPendingConstant := by
    intro line
    rw [isPendingConstant_eq, isPendingConstant_eq, line.waiting?_upper, Option.isSome_map]
  rw [pendingCount, List.countP_map, pendingCount]
  simp only [Function.comp_def, pending]

/-- Settling the constants commutes with upper case: every sweep makes progress in both spellings or
in none. -/
theorem settle_upper (table : SymbolTable) (lines : List Line) :
    settle table.upper (lines.map Line.upper) =
      ((settle table lines).1.upper, (settle table lines).2.map Line.upper) := by
  fun_induction settle table lines with
  | case1 table lines next progress ih =>
      rw [settle]
      simp only [sweep_upper, pendingCount_upper]
      rw [if_pos progress, ih]
  | case2 table lines next done =>
      rw [settle]
      simp only [sweep_upper, pendingCount_upper]
      rw [if_neg done]

/-- The second pass completes a line alike in both spellings. -/
theorem complete_upper {resolver : Resolver} (caseless : resolver.Caseless) (content : Content) :
    complete resolver content.upper = (complete resolver content).upper := by
  cases content with
  | constant name value =>
      change complete resolver (.constant (Text.upper name) value.upper) = _
      rw [complete, complete, value.settle_upper caseless, ← Content.ofResult_upper]
      exact congrArg Content.ofResult (Outcome.upper_bind fun _ _ => rfl)
  | code fields =>
      have field : ∀ field ∈ fields, completeField resolver field.upper =
          Outcome.upper Field.upper (completeField resolver field) := by
        intro field _
        rw [completeField, Field.isPending_upper, completeField, field.resolve_upper caseless]
        split <;> rfl
      change complete resolver (.code (fields.map Field.upper)) = _
      rw [complete, complete, Outcome.upper_mapM field, ← Content.ofResult_upper]
      exact congrArg Content.ofResult (Outcome.upper_bind fun _ _ => rfl)
  | _ => rfl

end Settlement

/-! ### Programs -/

/-- The program with all its text in upper case. -/
def Program.upper (program : Program) : Program :=
  ⟨program.lines.map Line.upper, program.symbols.upper⟩

/-- The second pass commutes with upper case. -/
theorem Settlement.finish_upper (table : SymbolTable) (lines : List Line) :
    finish table.upper (lines.map Line.upper) = (finish table lines).upper := by
  simp only [finish, settle_upper, Program.upper, SymbolTable.value?_upper, List.map_map]
  congr 1
  apply List.map_congr_left
  intro line _
  simp only [Function.comp_apply, Line.upper, Line.withContent,
    complete_upper (SymbolTable.caseless _)]

/-- **Assembling commutes with upper case**, if there are no quotes. -/
theorem assemble_upper (origin : Word) {source : List Text}
    (quoteless : ∀ text ∈ source, text.Quoteless) :
    assemble origin (source.map Text.upper) = (assemble origin source).upper := by
  have placed : Layout.ofSource origin (source.map Text.upper) =
      ((Layout.ofSource origin source).1.upper,
        (Layout.ofSource origin source).2.map Line.upper) :=
    (Layout.start origin).steps_upper 1 quoteless
  rw [assemble, placed]
  exact Settlement.finish_upper _ _

/-- Two contents that are the same in different letter cases: of the same kind, with the same
code, address or value, and with names and faults that agree in upper case. -/
inductive Content.Recased : Content → Content → Prop where
  | blank : Recased .blank .blank
  | text : Recased .text .text
  | constant {name other : Text} (word : Word) (same : Text.upper name = Text.upper other) :
      Recased (.constant name (.known word)) (.constant other (.known word))
  | code (fields : List Field) : Recased (.code fields) (.code fields)
  | origin (address : Word) : Recased (.origin address) (.origin address)
  | fault {cause other : Fault} (same : cause.upper = other.upper) :
      Recased (.fault cause) (.fault other)

/-- Two lines that are the same in different letter cases. -/
structure Line.Recased (line other : Line) : Prop where
  number : line.number = other.number
  address : line.address = other.address
  source : Text.upper line.source = Text.upper other.source
  content : line.content.Recased other.content

/-- A line that waits for nothing: its code is complete, and its constant is known. -/
def Content.Settled : Content → Prop
  | code fields => ∀ field ∈ fields, field.isPending = false
  | constant _ value => value.isPending = false
  | _ => True

/-- After assembly no field of a line waits for a name. -/
theorem settled_of_mem {origin : Word} {source : List Text} {line : Line}
    (member : line ∈ (assemble origin source).lines) : line.content.Settled := by
  cases content : line.content with
  | code fields => exact fun field inside => (known_of_code member content field inside).1
  | constant name value =>
      obtain ⟨word, rfl⟩ := known_of_constant member content
      rfl
  | _ => trivial

/-- Settled contents that agree in upper case differ in the letters of names and messages only. -/
theorem Content.recased_of_upper_eq {content other : Content} (settled : content.Settled)
    (otherSettled : other.Settled) (same : content.upper = other.upper) :
    content.Recased other := by
  cases content with
  | blank =>
      cases other with
      | blank => exact .blank
      | _ => cases same
  | text =>
      cases other with
      | text => exact .text
      | _ => cases same
  | constant name value =>
      cases other with
      | constant otherName otherValue =>
          obtain ⟨names, values⟩ := Content.constant.inj same
          cases value with
          | pending reference => cases settled
          | known word =>
              cases otherValue with
              | pending reference => cases otherSettled
              | known otherWord =>
                  cases values
                  exact .constant word names
      | _ => cases same
  | code fields =>
      cases other with
      | code otherFields =>
          have unchanged : ∀ {fields : List Field}, (∀ field ∈ fields, field.isPending = false) →
              fields.map Field.upper = fields := by
            intro fields ready
            refine Eq.trans (List.map_congr_left fun field member => ?_) (List.map_id fields)
            exact Field.upper_of_ready (ready field member)
          have fieldsSame := Content.code.inj same
          rw [unchanged settled, unchanged otherSettled] at fieldsSame
          cases fieldsSame
          exact .code fields
      | _ => cases same
  | origin address =>
      cases other with
      | origin otherAddress =>
          cases same
          exact .origin address
      | _ => cases same
  | fault cause =>
      cases other with
      | fault otherCause => exact .fault (Content.fault.inj same)
      | _ => cases same

namespace Line.Recased

variable {line other : Line} (recased : line.Recased other)

include recased

theorem isFault_eq : line.isFault = other.isFault := by
  have content := recased.content
  unfold isFault
  generalize line.content = own, other.content = others at content
  cases content <;> rfl

theorem add_eq (object : ObjectFile) : object.add line = object.add other := by
  have content := recased.content
  unfold ObjectFile.add
  generalize line.content = own, other.content = others at content
  cases content <;> rfl

end Line.Recased

/-- Lines that are the same in different letter cases have the same object code. -/
theorem ofLines_of_recased {lines others : List Line}
    (recased : List.Forall₂ Line.Recased lines others) :
    lines.any Line.isFault = others.any Line.isFault ∧
      ObjectFile.ofLines lines = ObjectFile.ofLines others := by
  have objects : ∀ object : ObjectFile,
      lines.foldl ObjectFile.add object = others.foldl ObjectFile.add object := by
    induction recased with
    | nil => exact fun _ => rfl
    | cons first _ ih =>
        intro object
        rw [List.foldl_cons, List.foldl_cons, first.add_eq, ih]
  have origins : lines.head?.map Line.address = others.head?.map Line.address := by
    cases recased with
    | nil => rfl
    | cons first _ => exact congrArg some first.address
  refine ⟨?_, by rw [ObjectFile.ofLines, objects, origins, ObjectFile.ofLines]⟩
  clear objects origins
  induction recased with
  | nil => rfl
  | cons first _ ih => rw [List.any_cons, List.any_cons, first.isFault_eq, ih]

/-- **Assembly ignores letter case.** If a source without quotes is written in other letter cases,
the two programs agree line by line in address, code, origin, constant value and kind of fault;
names and messages may differ in letter case. Their symbols have the same names in upper case, the
same values and the same lines, and their object code is equal. -/
theorem assemble_recased (origin : Word) {source recased : List Text}
    (quoteless : ∀ text ∈ source, text.Quoteless)
    (same : recased.map Text.upper = source.map Text.upper) :
    List.Forall₂ Line.Recased (assemble origin recased).lines (assemble origin source).lines ∧
      ((assemble origin recased).symbols.symbols.map fun symbol =>
          (symbol.key, symbol.value?, symbol.line)) =
        ((assemble origin source).symbols.symbols.map fun symbol =>
          (symbol.key, symbol.value?, symbol.line)) ∧
      (assemble origin recased).object? = (assemble origin source).object? := by
  have recasedQuoteless : ∀ text ∈ recased, text.Quoteless := by
    intro text member c inside
    have upperMember : Text.upper text ∈ source.map Text.upper := same ▸ List.mem_map_of_mem member
    obtain ⟨original, inSource, sameUpper⟩ := List.mem_map.mp upperMember
    have unquoted := (quoteless original inSource).upper
    rw [sameUpper] at unquoted
    rw [← Scan.isQuoteMark_toUpper]
    exact unquoted c.toUpper (List.mem_map_of_mem inside)
  have programs : (assemble origin recased).upper = (assemble origin source).upper := by
    rw [← assemble_upper origin recasedQuoteless, same, assemble_upper origin quoteless]
  obtain ⟨linesSame, symbolsSame⟩ := Program.mk.inj programs
  have lines : List.Forall₂ Line.Recased (assemble origin recased).lines
      (assemble origin source).lines := by
    have uppers : List.Forall₂ (fun line other : Line => line.upper = other.upper)
        (assemble origin recased).lines (assemble origin source).lines := by
      rwa [← List.forall₂_eq_eq_eq, List.forall₂_map_left_iff, List.forall₂_map_right_iff]
        at linesSame
    have right := (List.forall₂_and_left _ _).mpr ⟨fun _ => settled_of_mem, uppers.flip⟩
    have both := (List.forall₂_and_left _ _).mpr ⟨fun _ => settled_of_mem, right.flip⟩
    refine both.imp ?_
    rintro line other ⟨settled, otherSettled, equal⟩
    obtain ⟨number, address, text, content⟩ := Line.mk.inj equal
    exact ⟨number, address, text, Content.recased_of_upper_eq settled otherSettled content⟩
  obtain ⟨faults, objects⟩ := ofLines_of_recased lines
  refine ⟨lines, ?_, by rw [Program.object?, faults, objects, Program.object?]⟩
  have shown := congrArg (List.map fun symbol : Symbol => (symbol.name, symbol.value?, symbol.line))
    (SymbolTable.mk.inj symbolsSame)
  rwa [List.map_map, List.map_map] at shown

/-- A program in mixed letter case with a constant that waits for a label, an alias of a register,
a hexadecimal number and a name of the chip, and the same program the other way round. -/
theorem assemble_recased_mixed :
    let source : List Text := ["Start: mov.b #Size, &p1Out".toList, " Push sp".toList,
      "size Equ done-0X2a".toList, "Done jnz START".toList, " end".toList]
    let recased : List Text := ["sTART: MOV.B #sIZE, &P1oUT".toList, " pUSH SP".toList,
      "SIZE eQU DONE-0x2A".toList, "dONE JNZ start".toList, " END".toList]
    (∀ text ∈ source, text.Quoteless) ∧ recased.map Text.upper = source.map Text.upper ∧
      (assemble 0x0200 recased).object? = (assemble 0x0200 source).object? ∧
      (assemble 0x0200 source).object? = some ⟨[⟨0x0200,
        [0xF2, 0x40, 0xDE, 0x01, 0x21, 0x00, 0x01, 0x12, 0xFB, 0x23]⟩], ⟨0, []⟩, 0x78ED⟩ ∧
      (assemble 0x0200 recased).symbols.symbols.map (fun symbol =>
          (symbol.key, symbol.value?, symbol.line)) =
        [("DONE".toList, some 0x0208, 4), ("SIZE".toList, some 0x01DE, 3),
          ("START".toList, some 0x0200, 1)] := by
  intro source recased
  have quoteless : ∀ text ∈ source, text.Quoteless := by decide +kernel
  have same : recased.map Text.upper = source.map Text.upper := by decide +kernel
  obtain ⟨_, symbols, objects⟩ := assemble_recased 0x0200 quoteless same
  refine ⟨quoteless, same, objects, by decide +kernel, symbols.trans ?_⟩
  decide +kernel

end Msp430
