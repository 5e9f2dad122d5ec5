import Mathlib.Data.List.Pairwise
import Msp430.Proofs.DefinedNames
import Msp430.Proofs.PeripheralNames

/-! # Values of constants

A constant is evaluated in the first pass if its names have values there, and in
the second pass otherwise, in an order that depends on where it stands. Its value
does not depend on it, as long as the expressions of constants make no use of the
address of their line and no constant has a name of the chip (`FreeConstants`).
The final table then satisfies one equation for each constant, which says that its
value is that of its expression in the table itself (`solves_assemble`), and it is
the least table to do so: nothing is given a value on the way that a solution of
the equations does not give it, too (`extends_of_solves`). Two orders of the same
lines have the same equations, hence the same values (`value?_eq_of_perm`).
-/

namespace Msp430

/-! ### Expressions in different surroundings -/

namespace Expr

variable {first second : Resolver} {expr : Expr}

theorem unresolved_congr (agree : ∀ name ∈ expr.names, first name = second name) :
    expr.unresolved first = expr.unresolved second := by
  unfold unresolved
  apply List.filterMap_congr
  rintro ⟨sign, term⟩ member
  cases term with
  | here => rfl
  | literal datum => rfl
  | name text =>
      have mentioned : text ∈ expr.names := List.mem_filterMap.mpr ⟨_, member, rfl⟩
      simp only [agree text mentioned]

/-- The sum of an expression depends on its names only, and on its address if it uses that. -/
theorem offset_congr {here there : Word} (agree : ∀ name ∈ expr.names, first name = second name)
    (still : expr.usesHere = false ∨ here = there) :
    expr.offset here first = expr.offset there second := by
  induction expr with
  | nil => rfl
  | cons signed rest ih =>
      obtain ⟨sign, term⟩ := signed
      have restStill : usesHere rest = false ∨ here = there := by
        refine still.imp_left fun unused => ?_
        rw [usesHere, List.any_cons, Bool.or_eq_false_iff] at unused
        exact unused.2
      rw [offset_cons, offset_cons]
      cases term with
      | here =>
          rcases still with unused | rfl
          · cases unused
          · rw [ih agree restStill]
            rfl
      | literal datum =>
          rw [ih agree restStill]
          rfl
      | name text =>
          have namesCons : names (⟨sign, .name text⟩ :: rest) = text :: names rest := rfl
          rw [namesCons, List.forall_mem_cons] at agree
          rw [ih agree.2 restStill,
            SignedTerm.contribution_name_congr agree.1 here there sign]

theorem outcome_congr {here there : Word} (agree : ∀ name ∈ expr.names, first name = second name)
    (still : expr.usesHere = false ∨ here = there) :
    expr.outcome here first = expr.outcome there second := by
  unfold outcome
  rw [unresolved_congr agree, offset_congr agree still]

/-- An expression that comes to a word still does when its names have the same values. -/
theorem outcome_of_extends {here word : Word} (grown : second.Extends first)
    (read : expr.outcome here first = .ok word) : expr.outcome here second = .ok word := by
  rw [← read]
  refine outcome_congr (fun name member => ?_) (.inr rfl)
  obtain ⟨value, found⟩ := Option.isSome_iff_exists.mp ((outcome_eq_ok_iff.mp read).1 name member)
  rw [found, grown found]

end Expr

/-- Names of the chip stay what they are as long as the program gives them no value. -/
theorem Resolver.orPeripheral_mono {early late : Resolver} (grown : late.Extends early)
    (chip : ∀ name, early name = none → (Peripheral.value? name).isSome → late name = none) :
    late.orPeripheral.Extends early.orPeripheral := by
  intro name word found
  cases known : early name with
  | some value =>
      rw [early.orPeripheral_extends known] at found
      rw [late.orPeripheral_extends (grown known), found]
  | none =>
      rw [orPeripheral_of_none known] at found
      rw [orPeripheral_of_none (chip name known (by simp [found])), found]

theorem Peripheral.value?_congr {name other : Text} (same : Text.upper name = Text.upper other) :
    value? name = value? other := by
  simp only [value?, same]

theorem Value.known?_eq_some_iff {value : Value} {word : Word} :
    value.known? = some word ↔ value = .known word := by
  cases value with
  | known other => simp [known?]
  | pending reference => simp [known?]

/-! ### Constants of a source -/

/-- A name that some line of a source defines as a constant, in any letter case. -/
def IsConstant (source : List Text) (name : Text) : Prop :=
  ∃ text ∈ source, ∃ own operand, Statement.classify text = .ok (.constant own operand) ∧
    Text.upper name = Text.upper own

theorem IsConstant.congr {source : List Text} {name other : Text}
    (constant : IsConstant source name) (same : Text.upper name = Text.upper other) :
    IsConstant source other := by
  obtain ⟨text, member, own, operand, classified, spelled⟩ := constant
  exact ⟨text, member, own, operand, classified, same.symm.trans spelled⟩

/-- The expression of a line that has to come to a word at once. -/
def Statement.immediate? : Statement → Option Text
  | .origin _ address => some address
  | .data _ .space items => some items
  | _ => none

/-- A source whose constants may stand anywhere: none has a name of the chip, none depends on the
address of its line, and none is needed for the size or the place of a line. -/
structure FreeConstants (source : List Text) : Prop where
  /-- The chip does not define the name of a constant. -/
  ownName : ∀ text ∈ source, ∀ name operand,
    Statement.classify text = .ok (.constant name operand) → Peripheral.value? name = none
  /-- The expression of a constant does not use the address of its line. -/
  ownPlace : ∀ text ∈ source, ∀ name operand expr,
    Statement.classify text = .ok (.constant name operand) → Expr.read? operand = some expr →
      expr.usesHere = false
  /-- An origin or a reserved space mentions no constant. -/
  unneeded : ∀ text ∈ source, ∀ statement operand expr,
    Statement.classify text = .ok statement → statement.immediate? = some operand →
      Expr.read? operand = some expr → ∀ name ∈ expr.names, ¬ IsConstant source name

section Computable

/-- The name and the expression of the constant on a source line. -/
def constantOf? (text : Text) : Option (Text × Text) :=
  match Statement.classify text with
  | .ok (.constant name operand) => some (name, operand)
  | _ => none

theorem constantOf?_eq_some_iff {text name operand : Text} :
    constantOf? text = some (name, operand) ↔
      Statement.classify text = .ok (.constant name operand) := by
  unfold constantOf?
  split
  case h_1 own value classified => simp [classified]
  case h_2 plain => simpa using fun classified => (plain _ _ classified).elim

/-- The expression on a source line that has to come to a word at once. -/
def immediateOf? (text : Text) : Option Text :=
  match Statement.classify text with
  | .ok statement => statement.immediate?
  | .error _ => none

theorem immediateOf?_eq_some_iff {text operand : Text} :
    immediateOf? text = some operand ↔ ∃ statement, Statement.classify text = .ok statement ∧
      statement.immediate? = some operand := by
  unfold immediateOf?
  cases Statement.classify text with
  | ok statement => simp
  | error fault => simp

instance (source : List Text) (name : Text) : Decidable (IsConstant source name) :=
  decidable_of_iff (∃ text ∈ source, ∃ constant ∈ constantOf? text,
      Text.upper name = Text.upper constant.1) <| by
    simp only [IsConstant, Option.mem_def, Prod.exists, constantOf?_eq_some_iff]

instance (source : List Text) : Decidable (FreeConstants source) :=
  decidable_of_iff
    ((∀ text ∈ source, ∀ constant ∈ constantOf? text, Peripheral.value? constant.1 = none) ∧
      (∀ text ∈ source, ∀ constant ∈ constantOf? text, ∀ expr ∈ Expr.read? constant.2,
        expr.usesHere = false) ∧
      ∀ text ∈ source, ∀ operand ∈ immediateOf? text, ∀ expr ∈ Expr.read? operand,
        ∀ name ∈ expr.names, ¬ IsConstant source name) <| by
    simp only [Option.mem_def, Prod.forall, constantOf?_eq_some_iff, immediateOf?_eq_some_iff]
    constructor
    · rintro ⟨ownName, ownPlace, unneeded⟩
      refine ⟨ownName, ?_, ?_⟩
      · exact fun text member name operand expr classified => ownPlace text member name operand
          classified expr
      · exact fun text member statement operand expr classified immediate =>
          unneeded text member operand ⟨statement, classified, immediate⟩ expr
    · rintro ⟨ownName, ownPlace, unneeded⟩
      refine ⟨ownName, ?_, ?_⟩
      · exact fun text member name operand classified expr => ownPlace text member name operand
          expr classified
      · rintro text member operand ⟨statement, classified, immediate⟩ expr
        exact unneeded text member statement operand expr classified immediate

end Computable

/-- A table that gives every constant of a source the value of its expression in this table. -/
def SymbolTable.Solves (table : SymbolTable) (source : List Text) : Prop :=
  ∀ text ∈ source, ∀ name operand expr, Statement.classify text = .ok (.constant name operand) →
    Expr.read? operand = some expr → ∀ word,
      expr.outcome 0 table.value?.orPeripheral = .ok word ↔ table.value? name = some word

section Reordered

variable {source reordered : List Text}

theorem isConstant_perm (moved : source.Perm reordered) (name : Text) :
    IsConstant source name ↔ IsConstant reordered name := by
  simp only [IsConstant, moved.mem_iff]

theorem FreeConstants.perm (free : FreeConstants source) (moved : source.Perm reordered) :
    FreeConstants reordered := by
  refine ⟨?_, ?_, ?_⟩
  · simpa only [moved.mem_iff] using free.ownName
  · simpa only [moved.mem_iff] using free.ownPlace
  · simpa only [moved.mem_iff, isConstant_perm moved] using free.unneeded

theorem SymbolTable.Solves.perm {table : SymbolTable} (solves : table.Solves source)
    (moved : source.Perm reordered) : table.Solves reordered := by
  simpa only [Solves, moved.mem_iff] using solves

theorem FreeConstants.not_isConstant (free : FreeConstants source) {name : Text}
    (reserved : (Peripheral.value? name).isSome) : ¬ IsConstant source name := by
  rintro ⟨text, member, own, operand, classified, same⟩
  rw [Peripheral.value?_congr same, free.ownName text member own operand classified] at reserved
  cases reserved

/-- A label of a source whose names are different is none of its constants. -/
theorem not_isConstant_of_label? (distinct : (source.filterMap definedKey?).Nodup) {text : Text}
    (member : text ∈ source) {statement : Statement}
    (classified : Statement.classify text = .ok statement) {name : Text}
    (named : statement.name? = some name) (labelled : statement.label? = some name) :
    ¬ IsConstant source name := by
  rintro ⟨other, inSource, own, operand, otherClassified, same⟩
  have apart : text ≠ other := by
    rintro rfl
    rw [classified] at otherClassified
    cases otherClassified
    cases labelled
  have symmetric : Std.Symm fun first second : Text => ∀ key, definedKey? first = some key →
      ∀ other, definedKey? second = some other → key ≠ other :=
    ⟨fun _ _ different key keyed other otherKeyed => (different other otherKeyed key keyed).symm⟩
  have different := (List.pairwise_filterMap.mp distinct).forall member inSource apart
  have key : definedKey? text = some (Text.upper name) := by
    rw [definedKey?_of_classify classified, named]
    rfl
  have otherKey : definedKey? other = some (Text.upper own) :=
    definedKey?_of_classify otherClassified
  exact different _ key _ otherKey same

end Reordered

/-! ### The equations of a program -/

section Assembled

variable {origin : Word} {source : List Text}

/-- A constant that waits for a name, in terms of its source line. -/
theorem exists_of_waiting {line : Line} (member : line ∈ (Layout.ofSource origin source).2)
    {name : Text} {reference : Reference} (waits : line.waiting? = some (name, reference)) :
    ∃ index text operand expr, index ≤ source.length ∧ text ∈ source ∧
      Statement.classify text = .ok (.constant name operand) ∧ Expr.read? operand = some expr ∧
      expr.value (Layout.before origin source index).counter
        (Layout.before origin source index).symbols.value? = .pending reference := by
  obtain ⟨index, placed⟩ := List.mem_iff_getElem?.mp member
  rw [Layout.ofSource_getElem?] at placed
  obtain ⟨text, present, rfl⟩ := Option.map_eq_some_iff.mp placed
  obtain ⟨operand, expr, classified, read, value⟩ :=
    Layout.exists_of_constant (Line.waiting?_eq_some_iff.mp waits)
  exact ⟨index, text, operand, expr, (List.getElem?_eq_some_iff.mp present).1.le,
    List.mem_of_getElem? present, classified, read, value.symm⟩

/-- The second pass gives values to constants only. -/
theorem value?_of_not_isConstant {name : Text} (foreign : ¬ IsConstant source name) :
    (assemble origin source).symbols.value? name =
      (Layout.ofSource origin source).1.symbols.value? name := by
  unfold SymbolTable.value?
  rw [(assemble_run origin source).find?_of_forall_ne]
  intro line member own reference waits same
  obtain ⟨_, text, operand, _, _, inSource, classified, _⟩ := exists_of_waiting member waits
  exact foreign ⟨text, inSource, own, operand, classified, same⟩

/-- A name of the chip that has no value in the second pass has none in the end. -/
theorem value?_of_isSome_peripheral (free : FreeConstants source) {table : SymbolTable}
    (grows : (Layout.ofSource origin source).1.symbols.Grows table) {name : Text}
    (missing : table.value? name = none) (reserved : (Peripheral.value? name).isSome) :
    (assemble origin source).symbols.value? name = none := by
  rw [value?_of_not_isConstant (free.not_isConstant reserved)]
  cases early : (Layout.ofSource origin source).1.symbols.value? name with
  | none => rfl
  | some word =>
      rw [grows.value?_extends early] at missing
      cases missing

/-- The table before a line grows into that of the first pass. -/
theorem before_grows_ofSource {index : Nat} (bounded : index ≤ source.length) :
    (Layout.before origin source index).symbols.Grows
      (Layout.ofSource origin source).1.symbols := by
  rw [← Layout.before_length]
  exact Layout.before_grows bounded (Nat.le_refl _)

/-- What becomes of a source line in the first pass is a line of it. -/
theorem step_mem_ofSource {index : Nat} {text : Text} (present : source[index]? = some text) :
    ((Layout.before origin source index).step (index + 1) text).2 ∈
      (Layout.ofSource origin source).2 := by
  apply List.mem_of_getElem?
  rw [Layout.ofSource_getElem?, present, Option.map_some]

section Constant

variable {index : Nat} {text name operand : Text} {expr : Expr}

/-- What the first pass makes of a constant. -/
theorem constant_of_clean (present : source[index]? = some text)
    (classified : Statement.classify text = .ok (.constant name operand))
    (read : Expr.read? operand = some expr)
    (clean : ((Layout.before origin source index).step (index + 1) text).2.isFault = false) :
    ((Layout.before origin source index).step (index + 1) text).2.content =
        .constant name (expr.value (Layout.before origin source index).counter
          (Layout.before origin source index).symbols.value?) ∧
      ∀ word, expr.value (Layout.before origin source index).counter
          (Layout.before origin source index).symbols.value? = .known word →
        (assemble origin source).symbols.value? name = some word := by
  have bounded : index < source.length := (List.getElem?_eq_some_iff.mp present).1
  obtain ⟨other, otherRead, content, defined⟩ := Layout.step_constant classified clean
  rw [read] at otherRead
  cases otherRead
  refine ⟨content, ?_⟩
  intro word known
  have found := SymbolTable.find?_of_define_self defined
  rw [← Layout.before_succ present, known] at found
  have grows := assemble_grows origin source (Nat.succ_le_of_lt bounded)
  exact grows.value?_extends (SymbolTable.value?_eq_some_iff.mpr ⟨_, found, rfl⟩)

/-- The value of a constant is that of its expression in the final table. A constant that had to
wait was evaluated with an earlier table, in which its names have the same values. -/
theorem outcome_of_value? (free : FreeConstants source) (present : source[index]? = some text)
    (classified : Statement.classify text = .ok (.constant name operand))
    (read : Expr.read? operand = some expr)
    (clean : ((Layout.before origin source index).step (index + 1) text).2.isFault = false)
    {word : Word} (valued : (assemble origin source).symbols.value? name = some word) :
    expr.outcome (Layout.before origin source index).counter
      (assemble origin source).symbols.value?.orPeripheral = .ok word := by
  have bounded : index ≤ source.length := (List.getElem?_eq_some_iff.mp present).1.le
  obtain ⟨content, known⟩ := constant_of_clean present classified read clean
  cases value : expr.value (Layout.before origin source index).counter
      (Layout.before origin source index).symbols.value? with
  | known early =>
      rw [known early value] at valued
      cases valued
      exact Expr.outcome_of_value_eq_known
        (assemble_grows origin source bounded).value?_extends value
  | pending reference =>
      have placed : (Layout.ofSource origin source).2[index]? =
          some ((Layout.before origin source index).step (index + 1) text).2 := by
        rw [Layout.ofSource_getElem?, present, Option.map_some]
      rw [value] at content
      obtain ⟨lower, upper, resolved⟩ :=
        tableReadBy_of_waiting placed (Line.waiting?_eq_some_iff.mpr content) valued
      have seen : expr.outcome (Layout.before origin source index).counter
          (tableReadBy origin source index).value?.orPeripheral = .ok word := by
        rw [← Expr.settle_value ((before_grows_ofSource bounded).trans lower).value?_extends, value,
          Value.settle, resolved]
        rfl
      refine Expr.outcome_of_extends (Resolver.orPeripheral_mono upper.value?_extends ?_) seen
      exact fun query missing reserved => value?_of_isSome_peripheral free lower missing reserved

end Constant

/-- **Every constant has the value of its expression.** If the first pass finds no fault, the final
table solves the equations of the constants. -/
theorem solves_assemble (free : FreeConstants source)
    (clean : ∀ line ∈ (Layout.ofSource origin source).2, line.isFault = false) :
    (assemble origin source).symbols.Solves source := by
  intro text member name operand expr classified read word
  obtain ⟨index, present⟩ := List.mem_iff_getElem?.mp member
  have bounded : index < source.length := (List.getElem?_eq_some_iff.mp present).1
  have inLayout : _ ∈ (Layout.ofSource origin source).2 := step_mem_ofSource present
  have placeless : expr.outcome 0 (assemble origin source).symbols.value?.orPeripheral =
      expr.outcome (Layout.before origin source index).counter
        (assemble origin source).symbols.value?.orPeripheral :=
    Expr.outcome_congr (fun _ _ => rfl)
      (.inl (free.ownPlace text member name operand expr classified read))
  rw [placeless]
  refine ⟨fun outcome => ?_, outcome_of_value? free present classified read (clean _ inLayout)⟩
  cases valued : (assemble origin source).symbols.value? name with
  | some other =>
      rw [outcome_of_value? free present classified read (clean _ inLayout) valued] at outcome
      cases outcome
      rfl
  | none =>
      -- A constant without a value lacks a name, so that its expression comes to nothing.
      obtain ⟨content, known⟩ := constant_of_clean present classified read (clean _ inLayout)
      have settled := Expr.settle_value
        (assemble_grows origin source bounded.le).value?_extends
        (Layout.before origin source index).counter expr
      cases value : expr.value (Layout.before origin source index).counter
          (Layout.before origin source index).symbols.value? with
      | known early =>
          rw [known early value] at valued
          cases valued
      | pending reference =>
          rw [value] at content settled
          obtain ⟨mention, _, _, stuck⟩ := assemble_stuck origin source inLayout
            (Line.waiting?_eq_some_iff.mpr content) valued
          rw [outcome, Value.settle, stuck] at settled
          cases settled

/-! ### The least solution -/

section Least

variable {other : SymbolTable} (free : FreeConstants source)
  (clean : ∀ line ∈ (Layout.ofSource origin source).2, line.isFault = false)
  (solves : other.Solves source)
  (agree : ∀ name, ¬ IsConstant source name →
    other.value? name = (assemble origin source).symbols.value? name)

include free clean solves agree in
/-- A solution of the equations has every value that the first pass gives out. -/
theorem extends_before {index : Nat} (bounded : index ≤ source.length) :
    other.value?.Extends (Layout.before origin source index).symbols.value? := by
  induction index with
  | zero =>
      intro name word found
      cases found
  | succ index ih =>
      have present : source[index]? = some source[index] := List.getElem?_eq_getElem (by omega)
      have inSource : source[index] ∈ source := List.getElem_mem _
      have known := ih (by omega)
      have inLayout : _ ∈ (Layout.ofSource origin source).2 := step_mem_ofSource present
      have final := assemble_grows origin source bounded
      rw [Layout.before_succ present] at final ⊢
      obtain ⟨statement, classified, kinds⟩ := Layout.step_definition (clean _ inLayout)
      intro query word found
      by_cases constant : IsConstant source query
      · rcases kinds with ⟨_, same⟩ | ⟨name, named, labelled, defined⟩ |
          ⟨name, operand, expr, rfl, read, _, defined⟩
        · rw [same] at found
          exact known found
        · rw [SymbolTable.value?_of_define defined, if_neg] at found
          · exact known found
          · intro same
            exact not_isConstant_of_label? (Layout.room_of_clean clean).distinct inSource classified
              named labelled (constant.congr same)
        · rw [SymbolTable.value?_of_define defined] at found
          split at found
          case isFalse => exact known found
          case isTrue same =>
            have value : expr.value (Layout.before origin source index).counter
                (Layout.before origin source index).symbols.value? = .known word :=
              Value.known?_eq_some_iff.mp found
            rw [other.value?_congr same,
              ← solves _ inSource name operand expr classified read word,
              Expr.outcome_congr (fun _ _ => rfl)
                (.inl (free.ownPlace _ inSource name operand expr classified read))]
            exact Expr.outcome_of_value_eq_known known value
      · rw [agree query constant]
        exact final.value?_extends found

include free solves agree in
/-- A solution of the equations has every value that the second pass gives out. The table of the
run lies between that of the first pass and the solution. -/
theorem extends_of_run {table final : SymbolTable} {log : List Settlement.Reading}
    (run : Settlement.Run (Layout.ofSource origin source).2 table log final)
    (grows : (Layout.ofSource origin source).1.symbols.Grows table)
    (known : other.value?.Extends table.value?) : other.value?.Extends final.value? := by
  induction run with
  | done table => exact known
  | @settle table final line name reference word log member waits unsettled resolved rest ih =>
      apply ih (grows.trans (SymbolTable.grows_settle unsettled word))
      intro query found valued
      by_cases same : Text.upper query = Text.upper name
      · obtain ⟨index, text, operand, expr, bounded, inSource, classified, read, pending⟩ :=
          exists_of_waiting member waits
        have seen : expr.outcome (Layout.before origin source index).counter
            table.value?.orPeripheral = .ok word := by
          rw [← Expr.settle_value ((before_grows_ofSource bounded).trans grows).value?_extends,
            pending, Value.settle, resolved]
          rfl
        have chip : ∀ query, table.value? query = none → (Peripheral.value? query).isSome →
            other.value? query = none := by
          intro query missing reserved
          rw [agree query (free.not_isConstant reserved)]
          exact value?_of_isSome_peripheral free grows missing reserved
        have late := Expr.outcome_of_extends (Resolver.orPeripheral_mono known chip) seen
        obtain ⟨symbol, present⟩ := (Layout.registered_ofSource origin source).settleable.defined
          line member name reference waits
        obtain ⟨grown, foundGrown, _⟩ := grows present
        rw [SymbolTable.value?_congr _ same, SymbolTable.value?_settle_self foundGrown] at valued
        cases valued
        rw [other.value?_congr same, ← solves text inSource name operand expr classified read word,
          Expr.outcome_congr (fun _ _ => rfl)
            (.inl (free.ownPlace text inSource name operand expr classified read))]
        exact late
      · rw [table.value?_settle_of_ne word same] at valued
        exact known valued

include free clean solves agree in
/-- **The final table is the least solution.** Every value in it is the value that any other
solution of the equations gives, if that agrees on the names that are no constants. -/
theorem extends_of_solves : other.value?.Extends (assemble origin source).symbols.value? := by
  refine extends_of_run free solves agree (assemble_run origin source) (.refl _) ?_
  rw [← Layout.before_length]
  exact extends_before free clean solves agree (Nat.le_refl _)

end Least

end Assembled

/-- **Values do not depend on the order of lines.** Two orders in which the first pass finds no
fault give every name the same value, if they do so for the names that are no constants. -/
theorem value?_eq_of_perm {origin : Word} {source reordered : List Text}
    (free : FreeConstants source) (moved : source.Perm reordered)
    (clean : ∀ line ∈ (Layout.ofSource origin source).2, line.isFault = false)
    (cleanMoved : ∀ line ∈ (Layout.ofSource origin reordered).2, line.isFault = false)
    (labels : ∀ name, ¬ IsConstant source name →
      (Layout.ofSource origin reordered).1.symbols.value? name =
        (Layout.ofSource origin source).1.symbols.value? name) :
    (assemble origin reordered).symbols.value? = (assemble origin source).symbols.value? := by
  have freeMoved := free.perm moved
  have agree : ∀ name, ¬ IsConstant source name →
      (assemble origin reordered).symbols.value? name =
        (assemble origin source).symbols.value? name := by
    intro name foreign
    have foreignMoved : ¬ IsConstant reordered name := by
      rwa [← isConstant_perm moved]
    rw [value?_of_not_isConstant foreign, value?_of_not_isConstant foreignMoved]
    exact labels name foreign
  have above := extends_of_solves free clean
    ((solves_assemble freeMoved cleanMoved).perm moved.symm) agree
  have below := extends_of_solves freeMoved cleanMoved ((solves_assemble free clean).perm moved)
    (fun name foreign => (agree name (by rwa [isConstant_perm moved])).symm)
  exact below.antisymm above

end Msp430
