import Msp430.Proofs.SettlementRun

/-! # Names of the chip that the program defines

A program may define a name of the chip, and its own definition should then count
on every line. A line that is evaluated before that definition has a value gets
the value of the chip instead: constants, origins and reserved space are all
evaluated at a time when other names of the program may still be without a value.
`tableReadBy` is the table that such a line saw, and `Expr.premature` lists the
names that it looked up too early. The line has the right value exactly if these
names have values in the end, with the same sum as the values of the chip
(`assemble_operand`).
-/

namespace Msp430

namespace SymbolTable

/-- The values of names when every definition of the program hides that of the chip, whether it
has a value or not. -/
def ownFirst (table : SymbolTable) : Resolver :=
  fun name => if (table.find? name).isSome then table.value? name else Peripheral.value? name

variable {table : SymbolTable} {name : Text}

theorem ownFirst_of_isSome (defined : (table.find? name).isSome) :
    table.ownFirst name = table.value? name :=
  if_pos defined

theorem ownFirst_of_find?_eq_none (absent : table.find? name = none) :
    table.ownFirst name = Peripheral.value? name :=
  if_neg (by simp [absent])

theorem ownFirst_of_value? {word : Word} (valued : table.value? name = some word) :
    table.ownFirst name = some word := by
  obtain ⟨symbol, found, _⟩ := value?_eq_some_iff.mp valued
  rw [ownFirst_of_isSome (by simp [found]), valued]

end SymbolTable

theorem SignedTerm.contribution_name_congr {first second : Resolver} {text : Text}
    (same : first text = second text) (here there : Word) (sign : Sign) :
    contribution here first ⟨sign, .name text⟩ = contribution there second ⟨sign, .name text⟩ := by
  simp only [contribution, Term.word?, same]

namespace Mention

/-- The sum of names under their signs. A name without a value adds nothing. -/
def total (resolver : Resolver) (mentions : List Mention) : Int :=
  mentions.foldr
    (fun mention sum => SignedTerm.contribution 0 resolver ⟨mention.sign, .name mention.name⟩ + sum)
    0

theorem total_cons (resolver : Resolver) (mention : Mention) (rest : List Mention) :
    total resolver (mention :: rest) =
      SignedTerm.contribution 0 resolver ⟨mention.sign, .name mention.name⟩ + total resolver rest :=
  rfl

end Mention

/-! ### Expressions that are evaluated too early -/

namespace Expr

/-- The names of an expression that have no value in the table it is evaluated with, although the
program defines them. -/
def premature (seen final : SymbolTable) (expr : Expr) : List Mention :=
  (expr.unresolved seen.value?).filter fun mention => (final.find? mention.name).isSome

theorem exists_mention_iff {resolver : Resolver} {expr : Expr} {name : Text} :
    (∃ mention ∈ expr.unresolved resolver, mention.name = name) ↔
      name ∈ expr.names ∧ resolver name = none := by
  induction expr with
  | nil => simp [unresolved, names]
  | cons signed rest ih =>
      obtain ⟨sign, term⟩ := signed
      cases term with
      | here => exact ih
      | literal datum => exact ih
      | name text =>
          have namesCons : names (⟨sign, .name text⟩ :: rest) = text :: names rest := rfl
          rw [namesCons, List.mem_cons, or_and_right, ← ih]
          cases found : resolver text with
          | none =>
              rw [unresolved_cons_of_none found, List.exists_mem_cons_iff]
              refine or_congr_left ⟨?_, And.left ∘ And.imp_left Eq.symm⟩
              rintro rfl
              exact ⟨rfl, found⟩
          | some word =>
              have known : (Term.name text).word? 0 resolver = some word := found
              rw [unresolved_cons_of_word? known]
              refine ⟨.inr, ?_⟩
              rintro (⟨rfl, missing⟩ | later)
              · rw [found] at missing
                cases missing
              · exact later

variable {seen final : SymbolTable} {expr : Expr}

/-- The values of the program and those that were read differ by the names read too early. -/
theorem offset_ownFirst (grows : seen.Grows final) (here : Word) (expr : Expr) :
    expr.offset here final.ownFirst + Mention.total Peripheral.value? (expr.premature seen final) =
      expr.offset here seen.value?.orPeripheral +
        Mention.total final.value? (expr.premature seen final) := by
  induction expr with
  | nil => rfl
  | cons signed rest ih =>
      have agree : premature seen final (signed :: rest) = premature seen final rest →
          signed.contribution here final.ownFirst =
            signed.contribution here seen.value?.orPeripheral →
          offset here final.ownFirst (signed :: rest) +
              Mention.total Peripheral.value? (premature seen final (signed :: rest)) =
            offset here seen.value?.orPeripheral (signed :: rest) +
              Mention.total final.value? (premature seen final (signed :: rest)) := by
        intro sameNames same
        rw [offset_cons, offset_cons, sameNames, same]
        omega
      obtain ⟨sign, term⟩ := signed
      cases term with
      | here => exact agree rfl rfl
      | literal datum => exact agree rfl rfl
      | name text =>
          cases early : seen.value? text with
          | some word =>
              have known : (Term.name text).word? here seen.value? = some word := early
              have late := grows.value?_extends early
              refine agree ?_ (SignedTerm.contribution_name_congr ?_ here here sign)
              · rw [premature, unresolved_cons_of_word? known, ← premature]
              · rw [SymbolTable.ownFirst_of_value? late, Resolver.orPeripheral_extends _ early]
          | none =>
              have read := Resolver.orPeripheral_of_none early
              have unresolvedCons : unresolved seen.value? (⟨sign, .name text⟩ :: rest) =
                  ⟨text, sign⟩ :: unresolved seen.value? rest := unresolved_cons_of_none early rest
              cases found : final.find? text with
              | none =>
                  refine agree ?_ (SignedTerm.contribution_name_congr ?_ here here sign)
                  · rw [premature, unresolvedCons, List.filter_cons_of_neg (by simp [found]),
                      ← premature]
                  · rw [SymbolTable.ownFirst_of_find?_eq_none found, read]
              | some symbol =>
                  -- The only case in which the two sides count different values.
                  have own : final.ownFirst text = final.value? text :=
                    SymbolTable.ownFirst_of_isSome (by simp [found])
                  rw [premature, unresolvedCons, List.filter_cons_of_pos (by simp [found]),
                    ← premature, Mention.total_cons, Mention.total_cons, offset_cons, offset_cons,
                    SignedTerm.contribution_name_congr own here 0,
                    SignedTerm.contribution_name_congr read here 0]
                  dsimp only
                  omega

/-- The names have values of the program's own exactly if those read too early have them. -/
theorem isSome_ownFirst_iff (grows : seen.Grows final)
    (read : ∀ name ∈ expr.names, (seen.value?.orPeripheral name).isSome) :
    (∀ name ∈ expr.names, (final.ownFirst name).isSome) ↔
      ∀ mention ∈ expr.premature seen final, (final.value? mention.name).isSome := by
  constructor
  · intro own mention member
    obtain ⟨unresolved, defined⟩ := List.mem_filter.mp member
    rw [← SymbolTable.ownFirst_of_isSome defined]
    exact own _ (exists_mention_iff.mp ⟨mention, unresolved, rfl⟩).1
  · intro own name member
    cases early : seen.value? name with
    | some word => simp [SymbolTable.ownFirst_of_value? (grows.value?_extends early)]
    | none =>
        cases found : final.find? name with
        | none =>
            rw [SymbolTable.ownFirst_of_find?_eq_none found, ← Resolver.orPeripheral_of_none early]
            exact read name member
        | some symbol =>
            obtain ⟨mention, unresolved, rfl⟩ := exists_mention_iff.mpr ⟨member, early⟩
            rw [SymbolTable.ownFirst_of_isSome (by simp [found])]
            exact own mention (List.mem_filter.mpr ⟨unresolved, by simp [found]⟩)

/-- **When a value that was read too early is right.** An expression comes to the same word with
the program's own values as with those it was evaluated with exactly if the names read too early
have values, and these add up to what the values of the chip add up to. -/
theorem outcome_ownFirst_iff (grows : seen.Grows final) {here word : Word}
    (read : expr.outcome here seen.value?.orPeripheral = .ok word) :
    expr.outcome here final.ownFirst = .ok word ↔
      (∀ mention ∈ expr.premature seen final, (final.value? mention.name).isSome) ∧
        Word.ofInt (Mention.total final.value? (expr.premature seen final)) =
          Word.ofInt (Mention.total Peripheral.value? (expr.premature seen final)) := by
  obtain ⟨valued, rfl⟩ := outcome_eq_ok_iff.mp read
  rw [outcome_eq_ok_iff, isSome_ownFirst_iff grows valued]
  refine and_congr_right fun _ => ?_
  have shifted := congrArg (BitVec.ofInt 16) (offset_ownFirst grows here expr)
  rw [BitVec.ofInt_add, BitVec.ofInt_add] at shifted
  unfold Word.ofInt
  constructor
  · intro same
    rw [same] at shifted
    exact (BitVec.add_right_inj _).mp shifted.symm
  · intro same
    rw [same] at shifted
    exact ((BitVec.add_left_inj _).mp shifted).symm

end Expr

/-! ### Lines with an expression -/

/-- The expression of a line that sets a constant, moves the location counter or reserves space. -/
def Statement.operand? : Statement → Option Text
  | .constant _ value => some value
  | .origin _ address => some address
  | .data _ .space items => some items
  | _ => none

/-- The word that such a line turned into. -/
def Content.amount? : Content → Option Word
  | .constant _ value => value.known?
  | .origin address => some address
  | .code [.reserve count] => some count
  | _ => none

theorem Data.immediate_eq_ok_iff {text : Text} {here word : Word} {resolver : Resolver} :
    Data.immediate text here resolver = .ok word ↔
      ∃ expr, Expr.read? text = some expr ∧ expr.outcome here resolver.orPeripheral = .ok word := by
  unfold Data.immediate Expr.evaluate
  cases Expr.read? text with
  | none => simp [bind, Except.bind]
  | some expr =>
      simp only [Option.some.injEq, exists_eq_left', ← Expr.settle_value (.refl resolver)]
      rfl

namespace Layout

/-- The expression of a line without a fault. A constant keeps what the expression is worth with
the symbols in front of the line; an origin and a space have to come to a word at once, the space
with the label of its own line defined. -/
theorem step_operand {layout : Layout} {number : Nat} {source operand : Text}
    {statement : Statement} (classified : Statement.classify source = .ok statement)
    (carries : statement.operand? = some operand)
    (clean : (layout.step number source).2.isFault = false) :
    ∃ expr, Expr.read? operand = some expr ∧
      ((∃ name, statement = .constant name operand ∧ (layout.step number source).2.content =
          .constant name (expr.value layout.counter layout.symbols.value?)) ∨
        (∃ label? word, statement = .origin label? operand ∧
          (layout.step number source).2.content = .origin word ∧
          expr.outcome layout.counter layout.symbols.value?.orPeripheral = .ok word) ∨
        ∃ label? word, statement = .data label? .space operand ∧
          (layout.step number source).2.content = .code [.reserve word] ∧
          expr.outcome layout.counter
            (layout.step number source).1.symbols.value?.orPeripheral = .ok word) := by
  obtain ⟨statement, placed, same, placement, _, symbols⟩ := step_placement clean
  rw [classified] at same
  cases same
  rw [symbols]
  generalize (layout.step number source).2.content = content at placement
  cases placement with
  | blank => cases carries
  | comment => cases carries
  | label accepted => cases carries
  | instruction accepted produced => cases carries
  | @constant name value evaluated defining evaluation defined =>
      cases carries
      unfold Expr.evaluate at evaluation
      cases parsed : Expr.read? operand with
      | none => rw [parsed] at evaluation; cases evaluation
      | some expr =>
          rw [parsed] at evaluation
          cases evaluation
          exact ⟨expr, rfl, .inl ⟨name, rfl, rfl⟩⟩
  | @origin label? address word labelled evaluation accepted =>
      cases carries
      obtain ⟨expr, parsed, outcome⟩ := Data.immediate_eq_ok_iff.mp evaluation
      exact ⟨expr, parsed, .inr (.inl ⟨label?, word, rfl, rfl, outcome⟩)⟩
  | @data label? directive items labelled fields accepted produced =>
      cases directive with
      | byte => cases carries
      | word => cases carries
      | space =>
          cases carries
          obtain ⟨count, evaluation, done⟩ := bind_eq_ok_iff.mp produced
          cases done
          obtain ⟨expr, parsed, outcome⟩ := Data.immediate_eq_ok_iff.mp evaluation
          rw [counter_of_label accepted] at outcome
          exact ⟨expr, parsed, .inr (.inr ⟨label?, count, rfl, rfl, outcome⟩)⟩

end Layout

/-! ### Lines of a program -/

/-- The table that the expression on a line was evaluated with. A constant that had to wait was
evaluated when it was settled, and reserved space after the label of its own line. -/
def tableReadBy (origin : Word) (source : List Text) (index : Nat) : SymbolTable :=
  match (readings origin source).find? fun reading => reading.line.number == index + 1 with
  | some reading => reading.table
  | none =>
    match source[index]?.map Statement.classify with
    | some (.ok (.data _ _ _)) => (Layout.before origin source (index + 1)).symbols
    | _ => (Layout.before origin source index).symbols

section Assembled

variable {origin : Word} {source : List Text} {index : Nat} {line : Line}

/-- The reading of a line is found under its number. -/
theorem line_of_find?_readings {reading : Settlement.Reading}
    (placed : (Layout.ofSource origin source).2[index]? = some line)
    (found : (readings origin source).find?
      (fun reading => reading.line.number == index + 1) = some reading) :
    reading ∈ readings origin source ∧ reading.line = line := by
  have registered := Layout.registered_ofSource origin source
  have logged := List.mem_of_find?_eq_some found
  have member := ((assemble_run origin source).reading_spec registered.settleable logged).1
  have number : reading.line.number = index + 1 := by simpa using List.find?_some found
  refine ⟨logged, List.inj_on_of_nodup_map registered.numbered member
    (List.mem_of_getElem? placed) ?_⟩
  rw [number, Layout.number_of_getElem? placed]

/-- A line that does not wait for a name was evaluated in the first pass. -/
theorem tableReadBy_of_none (placed : (Layout.ofSource origin source).2[index]? = some line)
    (plain : line.waiting? = none) :
    tableReadBy origin source index =
      match source[index]?.map Statement.classify with
      | some (.ok (.data _ _ _)) => (Layout.before origin source (index + 1)).symbols
      | _ => (Layout.before origin source index).symbols := by
  have registered := Layout.registered_ofSource origin source
  unfold tableReadBy
  cases found : (readings origin source).find?
      fun reading => reading.line.number == index + 1 with
  | none => rfl
  | some reading =>
      obtain ⟨logged, rfl⟩ := line_of_find?_readings placed found
      obtain ⟨_, _, _, name, reference, word, waits, _⟩ :=
        (assemble_run origin source).reading_spec registered.settleable logged
      rw [plain] at waits
      cases waits

/-- A constant that had to wait was evaluated with a table of the second pass, in which its
reference comes to the value it has in the end. -/
theorem tableReadBy_of_waiting {name : Text} {reference : Reference} {word : Word}
    (placed : (Layout.ofSource origin source).2[index]? = some line)
    (waits : line.waiting? = some (name, reference))
    (valued : (assemble origin source).symbols.value? name = some word) :
    (Layout.ofSource origin source).1.symbols.Grows (tableReadBy origin source index) ∧
      (tableReadBy origin source index).Grows (assemble origin source).symbols ∧
      reference.resolve (tableReadBy origin source index).value? = .ok word := by
  have registered := Layout.registered_ofSource origin source
  have run := assemble_run origin source
  have member := List.mem_of_getElem? placed
  have missing := registered.value?_eq_none member waits
  unfold tableReadBy
  cases found : (readings origin source).find?
      fun reading => reading.line.number == index + 1 with
  | none =>
      obtain ⟨reading, logged, otherName, otherRef, otherWaits, same⟩ :=
        run.exists_reading missing (Option.isSome_iff_exists.mpr ⟨word, valued⟩)
      have equal := registered.eq_of_key_eq member
        (run.reading_spec registered.settleable logged).1
        (Line.waiting?_eq_some_iff.mp waits) (Line.waiting?_eq_some_iff.mp otherWaits) same
      have refused := List.find?_eq_none.mp found reading logged
      rw [← equal, Layout.number_of_getElem? placed] at refused
      simp at refused
  | some reading =>
      obtain ⟨logged, rfl⟩ := line_of_find?_readings placed found
      obtain ⟨_, lower, upper, readName, readRef, readWord, readWaits, resolved, readValued⟩ :=
        run.reading_spec registered.settleable logged
      rw [waits] at readWaits
      cases readWaits
      rw [valued] at readValued
      cases readValued
      exact ⟨lower, upper, resolved⟩

/-- A constant without a fault has the value of its expression in the table it was evaluated
with. -/
theorem constant_tableReadBy {text name operand : Text} {expr : Expr}
    (present : source[index]? = some text)
    (classified : Statement.classify text = .ok (.constant name operand))
    (placed : (Layout.ofSource origin source).2[index]? = some line)
    (content : line.content = .constant name (expr.value (Layout.before origin source index).counter
      (Layout.before origin source index).symbols.value?))
    (clean : (line.finished (assemble origin source).symbols).isFault = false) :
    ∃ word, (line.finished (assemble origin source).symbols).content.amount? = some word ∧
      (tableReadBy origin source index).Grows (assemble origin source).symbols ∧
      expr.outcome (Layout.before origin source index).counter
        (tableReadBy origin source index).value?.orPeripheral = .ok word := by
  have bounded : index ≤ source.length := (List.getElem?_eq_some_iff.mp present).1.le
  cases value : expr.value (Layout.before origin source index).counter
      (Layout.before origin source index).symbols.value? with
  | known word =>
      rw [value] at content
      have plain : line.waiting? = none := by rw [Line.waiting?, content]
      refine ⟨word, ?_, ?_⟩
      · rw [Line.finished_of_none plain, content]
        rfl
      · rw [tableReadBy_of_none placed plain, present, Option.map_some, classified]
        exact ⟨assemble_grows origin source bounded,
          Expr.outcome_of_value_eq_known (.refl _) value⟩
  | pending reference =>
      rw [value] at content
      have waits := Line.waiting?_eq_some_iff.mpr content
      cases valued : (assemble origin source).symbols.value? name with
      | none =>
          obtain ⟨mention, _, _, stuck⟩ :=
            assemble_stuck origin source (List.mem_of_getElem? placed) waits valued
          rw [Line.finished_of_stuck waits valued stuck] at clean
          cases clean
      | some word =>
          obtain ⟨lower, upper, resolved⟩ := tableReadBy_of_waiting placed waits valued
          have early := @Layout.before_grows origin source _ _ bounded (Nat.le_refl _)
          rw [Layout.before_length] at early
          refine ⟨word, ?_, upper, ?_⟩
          · rw [Line.finished_of_value? waits valued]
            rfl
          · rw [← Expr.settle_value (early.trans lower).value?_extends, value, Value.settle,
              resolved]
            rfl

/-- What a line without a fault makes of its expression: the value that the expression has with
the table the line was evaluated with and, failing that, with the names of the chip. -/
theorem outcome_tableReadBy {text operand : Text} {statement : Statement}
    (present : source[index]? = some text) (classified : Statement.classify text = .ok statement)
    (carries : statement.operand? = some operand)
    (found : (assemble origin source).lines[index]? = some line) (clean : line.isFault = false) :
    ∃ expr word, Expr.read? operand = some expr ∧ line.content.amount? = some word ∧
      (tableReadBy origin source index).Grows (assemble origin source).symbols ∧
      expr.outcome (Layout.before origin source index).counter
        (tableReadBy origin source index).value?.orPeripheral = .ok word := by
  have bounded : index < source.length := (List.getElem?_eq_some_iff.mp present).1
  have placed : (Layout.ofSource origin source).2[index]? =
      some ((Layout.before origin source index).step (index + 1) text).2 := by
    rw [Layout.ofSource_getElem?, present, Option.map_some]
  rw [assemble_getElem? origin source present] at found
  cases found
  have placedClean := Line.isFault_of_finished clean
  obtain ⟨expr, parsed, kinds⟩ := Layout.step_operand classified carries placedClean
  refine ⟨expr, ?_⟩
  rcases kinds with ⟨name, rfl, content⟩ | ⟨label?, word, rfl, content, outcome⟩ |
    ⟨label?, word, rfl, content, outcome⟩
  · obtain ⟨word, amount, read⟩ := constant_tableReadBy present classified placed content clean
    exact ⟨word, parsed, amount, read⟩
  · have plain : ((Layout.before origin source index).step (index + 1) text).2.waiting? = none := by
      rw [Line.waiting?, content]
    refine ⟨word, parsed, ?_, ?_⟩
    · rw [Line.finished_of_none plain, content]
      rfl
    · rw [tableReadBy_of_none placed plain, present, Option.map_some, classified]
      exact ⟨assemble_grows origin source bounded.le, outcome⟩
  · have plain : ((Layout.before origin source index).step (index + 1) text).2.waiting? = none := by
      rw [Line.waiting?, content]
    refine ⟨word, parsed, ?_, ?_⟩
    · rw [Line.finished_of_none plain, content]
      rfl
    · rw [tableReadBy_of_none placed plain, present, Option.map_some, classified]
      refine ⟨assemble_grows origin source bounded, ?_⟩
      rw [Layout.before_succ present]
      exact outcome

end Assembled

/-- **When the program's own definitions win.** The value of a constant, an origin or a reserved
space is that of its expression in the table the line was evaluated with. It is the value that the
program's own definitions give exactly if the names that were looked up too early have values, and
these add up to what the chip gives the same names. -/
theorem assemble_operand (origin : Word) (source : List Text) {index : Nat}
    {text operand : Text} {statement : Statement} {line : Line}
    (present : source[index]? = some text) (classified : Statement.classify text = .ok statement)
    (carries : statement.operand? = some operand)
    (found : (assemble origin source).lines[index]? = some line) (clean : line.isFault = false) :
    let table := (assemble origin source).symbols
    let seen := tableReadBy origin source index
    let here := (Layout.before origin source index).counter
    ∃ expr word, Expr.read? operand = some expr ∧ line.content.amount? = some word ∧
      expr.outcome here seen.value?.orPeripheral = .ok word ∧
      (expr.outcome here table.ownFirst = .ok word ↔
        (∀ mention ∈ expr.premature seen table, (table.value? mention.name).isSome) ∧
          Word.ofInt (Mention.total table.value? (expr.premature seen table)) =
            Word.ofInt (Mention.total Peripheral.value? (expr.premature seen table))) := by
  intro table seen here
  obtain ⟨expr, word, parsed, amount, grows, outcome⟩ :=
    outcome_tableReadBy present classified carries found clean
  exact ⟨expr, word, parsed, amount, outcome, Expr.outcome_ownFirst_iff grows outcome⟩

/-- A constant takes the chip's value of a name on one line, while the name has the program's value
everywhere else: the definition of `P1OUT` itself has to wait, for the last line. -/
theorem assemble_operand_tooEarly :
    let source := ["A EQU P1OUT".toList, "P1OUT EQU B".toList, "B EQU 5".toList]
    let program := assemble 0x0200 source
    let expr : Expr := [⟨.plus, .name "P1OUT".toList⟩]
    program.faultCount = 0 ∧ Expr.read? "P1OUT".toList = some expr ∧
      program.lines[0]? =
        some ⟨1, 0x0200, "A EQU P1OUT".toList, .constant "A".toList (.known 0x21)⟩ ∧
      program.symbols.value? "P1OUT".toList = some 5 ∧
      expr.outcome 0x0200 program.symbols.ownFirst ≠ .ok 0x21 := by
  intro source program expr
  have read : Expr.read? "P1OUT".toList = some expr := by decide +kernel
  have first : program.lines[0]? =
      some ⟨1, 0x0200, "A EQU P1OUT".toList, .constant "A".toList (.known 0x21)⟩ := by
    decide +kernel
  have classified : Statement.classify "A EQU P1OUT".toList =
      .ok (.constant "A".toList "P1OUT".toList) := by decide +kernel
  obtain ⟨other, word, parsed, amount, _, right⟩ := assemble_operand 0x0200 source
    (show source[0]? = some _ from rfl) classified rfl first rfl
  rw [read] at parsed
  cases parsed
  cases amount
  refine ⟨by decide +kernel, read, first, by decide +kernel, ?_⟩
  intro same
  exact absurd (right.mp same).2 (by decide +kernel)

end Msp430
