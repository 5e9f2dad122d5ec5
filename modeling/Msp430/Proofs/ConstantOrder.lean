import Msp430.Proofs.ListingBytes
import Msp430.Proofs.StatementYield

/-! # The place of constants

It does not matter where constants stand. Two orders of the same lines that keep
the other lines in order (`Shuffled`) are walked in step: a line that is no
constant is placed in both at once, a constant in one of them alone. The states
of the two first passes agree on the location counter and on everything but the
constants (`Layout.Alike`), so that each line yields the same in both
(`Layout.Alike.step`). The first order having no fault, the second one has none
(`steps_of_shuffled`), and since the values of the constants do not depend on the
order, both have the same object code and the same values (`assemble_reordered`).
-/

namespace Msp430

/-! ### Orders of lines -/

/-- Whether the place of a line matters: it is a statement other than a constant. -/
def keepsPlace (text : Text) : Bool :=
  match Statement.classify text with
  | .ok (.constant _ _) | .error _ => false
  | .ok _ => true

theorem keepsPlace_eq_true_iff {text : Text} :
    keepsPlace text = true ↔ ∃ statement, Statement.classify text = .ok statement ∧
      ∀ name operand, statement ≠ .constant name operand := by
  unfold keepsPlace
  cases Statement.classify text with
  | error fault => simp
  | ok statement => cases statement <;> simp

theorem exists_constant_of_keepsPlace {text : Text} {statement : Statement}
    (classified : Statement.classify text = .ok statement) (moves : keepsPlace text = false) :
    ∃ name operand, Statement.classify text = .ok (.constant name operand) := by
  unfold keepsPlace at moves
  rw [classified] at moves ⊢
  cases statement with
  | constant name operand => exact ⟨name, operand, rfl⟩
  | _ => cases moves

/-- Two orders of lines that differ in the constants and their places only. -/
inductive Shuffled : List Text → List Text → Prop where
  | nil : Shuffled [] []
  | both {text : Text} {first second : List Text} (stays : keepsPlace text = true)
      (rest : Shuffled first second) : Shuffled (text :: first) (text :: second)
  | left {text : Text} {first second : List Text} (moves : keepsPlace text = false)
      (rest : Shuffled first second) : Shuffled (text :: first) second
  | right {text : Text} {first second : List Text} (moves : keepsPlace text = false)
      (rest : Shuffled first second) : Shuffled first (text :: second)

theorem Shuffled.append_right {front first second : List Text}
    (moves : ∀ text ∈ front, keepsPlace text = false) (rest : Shuffled first second) :
    Shuffled first (front ++ second) := by
  induction front with
  | nil => exact rest
  | cons text front ih =>
      rw [List.forall_mem_cons] at moves
      exact .right moves.1 (ih moves.2)

theorem shuffled_of_filter_eq {first second : List Text}
    (kept : first.filter keepsPlace = second.filter keepsPlace) : Shuffled first second := by
  induction first generalizing second with
  | nil =>
      have moves : ∀ text ∈ second, keepsPlace text = false := by
        simpa using List.filter_eq_nil_iff.mp kept.symm
      have shuffled := Shuffled.append_right moves .nil
      rwa [List.append_nil] at shuffled
  | cons text first ih =>
      by_cases stays : keepsPlace text = true
      · rw [List.filter_cons_of_pos stays] at kept
        obtain ⟨front, back, rfl, moves, _, same⟩ := List.filter_eq_cons_iff.mp kept.symm
        refine Shuffled.append_right (fun other member => by simpa using moves other member) ?_
        exact .both stays (ih same.symm)
      · rw [List.filter_cons_of_neg stays] at kept
        exact .left (by simpa using stays) (ih kept)

/-! ### States in step -/

namespace Layout

/-- States of the first pass that differ in constants only, the second one knowing nothing but
what is true in the end. -/
structure Alike (source : List Text) (final : Resolver) (first second : Layout) : Prop where
  counter : second.counter = first.counter
  labels : ∀ name, ¬ IsConstant source name →
    second.symbols.value? name = first.symbols.value? name
  known : final.Extends second.symbols.value?

variable {source : List Text} {final : SymbolTable} {first second : Layout} {text : Text}
  {rest : List Text} {number : Nat}

/-- A label that was accepted in one state is accepted in the other one, if that has room. -/
theorem Alike.label (alike : Alike source final.value? first second) (other : Nat)
    {statement : Statement}
    (classified : Statement.classify text = .ok statement)
    (plain : ∀ name operand, statement ≠ .constant name operand)
    (clean : (first.step number text).2.isFault = false)
    (known : final.value?.Extends (first.step number text).1.symbols.value?)
    (room : second.Room (text :: rest)) :
    ∃ labelled, label { second with counter := (first.step number text).2.address }
        statement.label? other = .ok labelled ∧
      (∀ name, ¬ IsConstant source name →
        labelled.symbols.value? name = (first.step number text).1.symbols.value? name) ∧
      final.value?.Extends labelled.symbols.value? := by
  obtain ⟨same, sameClassified, kinds⟩ := step_definition clean
  rw [classified] at sameClassified
  cases sameClassified
  rcases kinds with ⟨unnamed, sameSymbols⟩ | ⟨name, named, labelled, defined⟩ |
    ⟨name, operand, _, constant, _⟩
  · have unlabelled : statement.label? = none := by
      cases statement with
      | constant name operand => cases unnamed
      | _ => exact unnamed
    rw [unlabelled, sameSymbols]
    exact ⟨_, rfl, alike.labels, alike.known⟩
  · obtain ⟨identifier, _, _⟩ := SymbolTable.define_eq_ok_iff.mp defined
    have key : definedKey? text = some (Text.upper name) := by
      rw [definedKey?_of_classify classified, named]
      rfl
    have fresh : second.symbols.find? name = none := by
      apply room.free
      rw [List.filterMap_cons_some key]
      exact List.mem_cons_self
    have accepted : second.symbols.define
        ⟨name, some (first.step number text).2.address, other⟩ .label = .ok _ :=
      SymbolTable.define_eq_ok_iff.mpr ⟨identifier, fresh, rfl⟩
    rw [labelled]
    refine ⟨_, label_eq_ok_iff.mpr (.inr ⟨name, _, rfl, accepted, rfl⟩), ?_, ?_⟩
    · intro query foreign
      rw [SymbolTable.value?_of_define accepted, SymbolTable.value?_of_define defined,
        alike.labels query foreign]
      rfl
    · intro query word found
      rw [SymbolTable.value?_of_define accepted] at found
      split at found
      case isTrue own =>
        apply known
        rw [SymbolTable.value?_of_define defined]
        exact (if_pos own).trans found
      case isFalse => exact alike.known found
  · exact (plain name operand constant).elim

/-- **A line in two orders.** A line that is no constant and ends without a fault in one order
becomes the same in the other one. -/
theorem Alike.step (alike : Alike source final.value? first second) (other : Nat)
    (free : FreeConstants source) (member : text ∈ source) (stays : keepsPlace text = true)
    (clean : ((first.step number text).2.finished final).isFault = false)
    (known : final.value?.Extends (first.step number text).1.symbols.value?)
    (room : second.Room (text :: rest)) :
    ((second.step other text).2.finished final).content =
        ((first.step number text).2.finished final).content ∧
      Alike source final.value? (first.step number text).1 (second.step other text).1 := by
  obtain ⟨statement, classified, plain⟩ := keepsPlace_eq_true_iff.mp stays
  obtain ⟨labelled, accepted, labels, knownLater⟩ :=
    alike.label other classified plain (Line.isFault_of_finished clean) known room
  have yields : statement.Yields second.symbols.value? labelled.symbols.value? final.value?
      second.counter (first.step number text).2.address
      ((first.step number text).2.finished final).content := by
    rw [alike.counter]
    refine (Statement.yields_of_step classified plain known clean).congr ?_
    intro operand expr immediate read name mentioned
    have foreign := free.unneeded text member statement operand expr classified immediate read name
      mentioned
    exact ⟨(alike.labels name foreign).symm, (labels name foreign).symm⟩
  obtain ⟨content, next⟩ := Statement.step_of_yields classified accepted knownLater yields
  refine ⟨content, ?_, ?_, ?_⟩
  · rw [next, (Line.finished_layout clean).2.1]
    rfl
  · rw [next]
    exact labels
  · rw [next]
    exact knownLater

end Layout

/-! ### Constants in one order alone -/

/-- Whether a line is a constant. -/
def Content.isConstant : Content → Bool
  | .constant _ _ => true
  | _ => false

theorem Content.isFault_of_isConstant {content : Content} (constant : content.isConstant = true) :
    content.isFault = false := by
  cases content with
  | fault cause => cases constant
  | _ => rfl

/-- A table in which every constant of a source has the value of its expression. -/
def SymbolTable.Settles (table : SymbolTable) (source : List Text) : Prop :=
  ∀ text ∈ source, ∀ name operand, Statement.classify text = .ok (.constant name operand) →
    Text.isIdentifier name = true ∧ ∃ expr word, Expr.read? operand = some expr ∧
      expr.outcome 0 table.value?.orPeripheral = .ok word ∧ table.value? name = some word

namespace Layout

variable {source : List Text} {final : SymbolTable} {first second : Layout} {text : Text}
  {rest : List Text} {number : Nat} {name operand : Text}

/-- A constant in the first order changes nothing but constants. -/
theorem Alike.left (alike : Alike source final.value? first second) (member : text ∈ source)
    (classified : Statement.classify text = .ok (.constant name operand))
    (clean : ((first.step number text).2.finished final).isFault = false) :
    ((first.step number text).2.finished final).content.isConstant = true ∧
      Alike source final.value? (first.step number text).1 second := by
  have placedClean := Line.isFault_of_finished clean
  obtain ⟨expr, _, content, defined⟩ := step_constant classified placedClean
  constructor
  · rcases Line.finished_cases clean with ⟨kept, _⟩ | ⟨_, _, _, _, after⟩ | ⟨_, _, code, _⟩
    · rw [kept, content]
      rfl
    · rw [after]
      rfl
    · rw [content] at code
      cases code
  · refine ⟨?_, ?_, alike.known⟩
    · have stays : (first.step number text).1.counter = first.counter := by
        change (first.step number text).2.address + (first.step number text).2.content.size = _
        rw [step_address placedClean, content]
        exact BitVec.add_zero _
      rw [stays]
      exact alike.counter
    · intro query foreign
      rw [SymbolTable.value?_of_define defined, if_neg]
      · exact alike.labels query foreign
      · intro own
        exact foreign ⟨text, member, name, operand, classified, own⟩

/-- A constant with a fresh name and a proper expression is placed without a fault. -/
theorem step_of_constant {layout : Layout} (number : Nat) {expr : Expr}
    (classified : Statement.classify text = .ok (.constant name operand))
    (read : Expr.read? operand = some expr) (identifier : Text.isIdentifier name = true)
    (fresh : layout.symbols.find? name = none) :
    ∃ symbols, layout.symbols.define
        ⟨name, (expr.value layout.counter layout.symbols.value?).known?, number⟩ .constant =
          .ok symbols ∧
      layout.step number text = (⟨layout.counter, symbols⟩, ⟨number, layout.counter, text,
        .constant name (expr.value layout.counter layout.symbols.value?)⟩) := by
  have evaluated := Expr.evaluate_eq_ok_iff.mpr
    ⟨expr, read, Eq.refl (expr.value layout.counter layout.symbols.value?)⟩
  obtain ⟨symbols, accepted⟩ : ∃ symbols, layout.symbols.define
      ⟨name, (expr.value layout.counter layout.symbols.value?).known?, number⟩ .constant =
        .ok symbols := ⟨_, SymbolTable.define_eq_ok_iff.mpr ⟨identifier, fresh, rfl⟩⟩
  have still : layout.counter + 0 = layout.counter := BitVec.add_zero _
  refine ⟨symbols, accepted, ?_⟩
  simp only [step, classified, place, constant, define, evaluated, accepted, bind, Except.bind,
    pure, Except.pure, Content.ofResult, Content.size, still]

/-- A constant in the second order is defined there, with the value that it has in the end or
without one. -/
theorem Alike.right (alike : Alike source final.value? first second) (other : Nat)
    (free : FreeConstants source) (settles : final.Settles source) (member : text ∈ source)
    (classified : Statement.classify text = .ok (.constant name operand))
    (room : second.Room (text :: rest)) :
    ((second.step other text).2.finished final).content.isConstant = true ∧
      Alike source final.value? first (second.step other text).1 := by
  obtain ⟨identifier, expr, word, read, outcome, valued⟩ :=
    settles text member name operand classified
  have placeless := free.ownPlace text member name operand expr classified read
  have fresh : second.symbols.find? name = none := by
    apply room.free
    rw [List.filterMap_cons_some (definedKey?_of_classify classified)]
    exact List.mem_cons_self
  obtain ⟨symbols, defined, step⟩ := step_of_constant other classified read identifier fresh
  rw [step]
  refine ⟨?_, alike.counter, ?_, ?_⟩
  · cases value : expr.value second.counter second.symbols.value? with
    | known early => rfl
    | pending reference =>
        rw [Line.finished_of_value? (Line.waiting?_eq_some_iff.mpr rfl) valued]
        rfl
  · intro query foreign
    rw [SymbolTable.value?_of_define defined, if_neg]
    · exact alike.labels query foreign
    · intro own
      exact foreign ⟨text, member, name, operand, classified, own⟩
  · intro query early found
    rw [SymbolTable.value?_of_define defined] at found
    split at found
    case isFalse => exact alike.known found
    case isTrue own =>
      have value := Value.known?_eq_some_iff.mp found
      have late := Expr.outcome_of_value_eq_known alike.known value
      rw [Expr.outcome_congr (fun _ _ => rfl) (.inl placeless), outcome] at late
      cases late
      rw [final.value?_congr own]
      exact valued

theorem grows_steps (layout : Layout) (number : Nat) (source : List Text) :
    layout.symbols.Grows (layout.steps number source).1.symbols := by
  induction source generalizing layout number with
  | nil => exact .refl _
  | cons text rest ih =>
      exact (step_effect layout number text).grows.trans (ih (layout.step number text).1 _)

end Layout

/-! ### Whole orders -/

/-- The contents of the lines that are no constants, in order. -/
def placedContents (lines : List Line) : List Content :=
  (lines.map Line.content).filter fun content => !content.isConstant

theorem placedContents_cons_of_isConstant {line : Line} (constant : line.content.isConstant = true)
    (rest : List Line) : placedContents (line :: rest) = placedContents rest :=
  List.filter_cons_of_neg (by simp [constant])

theorem placedContents_cons_congr {first second : Line} (same : first.content = second.content)
    {firstRest secondRest : List Line}
    (rest : placedContents firstRest = placedContents secondRest) :
    placedContents (first :: firstRest) = placedContents (second :: secondRest) := by
  unfold placedContents at rest ⊢
  rw [List.map_cons, List.map_cons, same, List.filter_cons, List.filter_cons, rest]

/-- **Two orders in step.** Lines that all end without a fault in the first order do so in the
second one and become the same, if the second one has room for their names and the final table
settles the constants. The induction is on how the orders are woven together. -/
theorem steps_of_shuffled {source firstLines secondLines : List Text} {final : SymbolTable}
    (free : FreeConstants source) (settles : final.Settles source)
    (shuffled : Shuffled firstLines secondLines) (inFirst : firstLines ⊆ source)
    (inSecond : secondLines ⊆ source)
    (proper : ∀ text ∈ source, ∃ statement, Statement.classify text = .ok statement)
    {first second : Layout} {number other : Nat}
    (alike : Layout.Alike source final.value? first second) (room : second.Room secondLines)
    (known : final.value?.Extends (first.steps number firstLines).1.symbols.value?)
    (clean : ∀ line ∈ (first.steps number firstLines).2, (line.finished final).isFault = false) :
    (∀ line ∈ (second.steps other secondLines).2, (line.finished final).isFault = false) ∧
      placedContents ((second.steps other secondLines).2.map (Line.finished final)) =
        placedContents ((first.steps number firstLines).2.map (Line.finished final)) ∧
      Layout.Alike source final.value? (first.steps number firstLines).1
        (second.steps other secondLines).1 := by
  induction shuffled generalizing first second number other with
  | nil => exact ⟨fun _ member => (List.not_mem_nil member).elim, rfl, alike⟩
  | @both text firstRest secondRest stays rest ih =>
      have head := clean _ List.mem_cons_self
      have knownHead : final.value?.Extends (first.step number text).1.symbols.value? :=
        known.trans (Layout.grows_steps _ _ _).value?_extends
      obtain ⟨content, alikeNext⟩ :=
        alike.step other free (inFirst List.mem_cons_self) stays head knownHead room
      have headMoved : ((second.step other text).2.finished final).isFault = false := by
        rw [Line.isFault, content]
        exact head
      obtain ⟨cleanRest, contents, alikeEnd⟩ := ih (List.subset_of_cons_subset inFirst)
        (List.subset_of_cons_subset inSecond) alikeNext
        (room.step (Line.isFault_of_finished headMoved)) known
        (fun line member => clean line (List.mem_cons_of_mem _ member))
      exact ⟨List.forall_mem_cons.mpr ⟨headMoved, cleanRest⟩,
        placedContents_cons_congr content contents, alikeEnd⟩
  | @left text firstRest secondRest moves rest ih =>
      have member : text ∈ source := inFirst List.mem_cons_self
      obtain ⟨statement, classified⟩ := proper text member
      obtain ⟨name, operand, constant⟩ := exists_constant_of_keepsPlace classified moves
      obtain ⟨isConstant, alikeNext⟩ := alike.left member constant (clean _ List.mem_cons_self)
      obtain ⟨cleanAll, contents, alikeEnd⟩ := ih (List.subset_of_cons_subset inFirst) inSecond
        alikeNext room known (fun line member => clean line (List.mem_cons_of_mem _ member))
      refine ⟨cleanAll, contents.trans ?_, alikeEnd⟩
      exact (placedContents_cons_of_isConstant isConstant _).symm
  | @right text firstRest secondRest moves rest ih =>
      have member : text ∈ source := inSecond List.mem_cons_self
      obtain ⟨statement, classified⟩ := proper text member
      obtain ⟨name, operand, constant⟩ := exists_constant_of_keepsPlace classified moves
      obtain ⟨isConstant, alikeNext⟩ := alike.right other free settles member constant room
      have headMoved : ((second.step other text).2.finished final).isFault = false := by
        rw [Line.isFault]
        exact Content.isFault_of_isConstant isConstant
      obtain ⟨cleanRest, contents, alikeEnd⟩ := ih inFirst (List.subset_of_cons_subset inSecond)
        alikeNext (room.step (Line.isFault_of_finished headMoved)) known clean
      refine ⟨List.forall_mem_cons.mpr ⟨headMoved, cleanRest⟩, ?_, alikeEnd⟩
      exact (placedContents_cons_of_isConstant isConstant _).trans contents

/-! ### Object code -/

namespace ObjectFile

/-- Appends what a line with the given content contributes. -/
def addContent (object : ObjectFile) (content : Content) : ObjectFile :=
  object.add ⟨0, 0, [], content⟩

theorem add_of_isConstant {line : Line} (constant : line.content.isConstant = true)
    (object : ObjectFile) : object.add line = object := by
  unfold add
  cases content : line.content with
  | constant name value => rfl
  | blank => rfl
  | text => rfl
  | fault cause => rfl
  | code fields => rw [content] at constant; cases constant
  | origin address => rw [content] at constant; cases constant

/-- Collecting lines is collecting the contents that are no constants. -/
theorem foldl_add_eq (lines : List Line) (object : ObjectFile) :
    lines.foldl add object = (placedContents lines).foldl addContent object := by
  induction lines generalizing object with
  | nil => rfl
  | cons line rest ih =>
      rw [List.foldl_cons, ih]
      by_cases constant : line.content.isConstant = true
      · rw [placedContents_cons_of_isConstant constant, add_of_isConstant constant]
      · have kept : placedContents (line :: rest) = line.content :: placedContents rest :=
          List.filter_cons_of_pos (by simp [constant])
        rw [kept, List.foldl_cons]
        rfl

/-- The object code of lines that follow each other from an origin is collected from there. -/
theorem ofLines_eq_foldl {origin : Word} {lines : List Line} (follows : Follows origin lines) :
    ofLines lines = (lines.foldl add (start origin)).org 0 := by
  cases lines with
  | nil => rfl
  | cons line rest =>
      change ((line :: rest).foldl add (start line.address)).org 0 = _
      rw [List.foldl_cons, List.foldl_cons]
      by_cases kind : ∃ address, line.content = .origin address
      · obtain ⟨address, content⟩ := kind
        rw [add_of_origin content, add_of_origin content]
        rfl
      · have begins : line.address = origin := by
          apply follows.1.trans
          cases content : line.content with
          | origin address => exact (kind ⟨address, content⟩).elim
          | _ => rfl
        rw [begins]

end ObjectFile

/-! ### Reordered programs -/

theorem Line.finished_congr {first second : SymbolTable} (same : first.value? = second.value?)
    (line : Line) : line.finished first = line.finished second := by
  unfold finished settledIn
  rw [same]

section Reordered

variable {origin : Word} {source reordered : List Text}

/-- What a program without faults says about the lines of its first pass. -/
theorem finished_of_faultCount (clean : (assemble origin source).faultCount = 0) :
    ∀ line ∈ (Layout.ofSource origin source).2,
      (line.finished (assemble origin source).symbols).isFault = false := by
  intro line member
  apply isFault_of_faultCount clean
  rw [assemble_lines]
  exact List.mem_map_of_mem member

/-- The final table of a program without faults settles all its constants. -/
theorem settles_assemble (free : FreeConstants source)
    (clean : (assemble origin source).faultCount = 0) :
    (assemble origin source).symbols.Settles source := by
  have finished := finished_of_faultCount clean
  have placedClean := fun line member => Line.isFault_of_finished (finished line member)
  intro text member name operand classified
  obtain ⟨index, present⟩ := List.mem_iff_getElem?.mp member
  have inLayout : _ ∈ (Layout.ofSource origin source).2 := step_mem_ofSource present
  obtain ⟨expr, read, content, defined⟩ :=
    Layout.step_constant classified (placedClean _ inLayout)
  have valued : ∃ word, (assemble origin source).symbols.value? name = some word := by
    obtain ⟨_, known⟩ := constant_of_clean present classified read (placedClean _ inLayout)
    cases value : expr.value (Layout.before origin source index).counter
        (Layout.before origin source index).symbols.value? with
    | known word => exact ⟨word, known word value⟩
    | pending reference =>
        rw [value] at content
        have waits := Line.waiting?_eq_some_iff.mpr content
        by_contra unsettled
        rw [← Option.isSome_iff_exists, Option.not_isSome_iff_eq_none] at unsettled
        obtain ⟨mention, _, _, stuck⟩ := assemble_stuck origin source inLayout waits unsettled
        have fault := finished _ inLayout
        rw [Line.finished_of_stuck waits unsettled stuck] at fault
        cases fault
  obtain ⟨word, valued⟩ := valued
  refine ⟨(SymbolTable.define_eq_ok_iff.mp defined).1, expr, word, read, ?_, valued⟩
  exact (solves_assemble free placedClean text member name operand expr classified read word).mpr
    valued

/-- A program without faults stays one when its constants are moved, with the same values and the
same contents of all other lines. -/
theorem reordered_of_clean (free : FreeConstants source) (moved : source.Perm reordered)
    (kept : reordered.filter keepsPlace = source.filter keepsPlace)
    (clean : (assemble origin source).faultCount = 0) :
    (assemble origin reordered).faultCount = 0 ∧
      (assemble origin reordered).symbols.value? = (assemble origin source).symbols.value? ∧
      placedContents (assemble origin reordered).lines =
        placedContents (assemble origin source).lines := by
  have finished := finished_of_faultCount clean
  have placedClean := fun line member => Line.isFault_of_finished (finished line member)
  have proper : ∀ text ∈ source, ∃ statement, Statement.classify text = .ok statement := by
    intro text member
    obtain ⟨index, present⟩ := List.mem_iff_getElem?.mp member
    obtain ⟨statement, classified, _⟩ :=
      Layout.step_definition (placedClean _ (step_mem_ofSource present))
    exact ⟨statement, classified⟩
  have room : (Layout.start origin).Room reordered := by
    refine ⟨?_, fun _ _ => rfl⟩
    exact (moved.filterMap definedKey?).nodup_iff.mp (Layout.room_of_clean placedClean).distinct
  have alike : Layout.Alike source (assemble origin source).symbols.value? (Layout.start origin)
      (Layout.start origin) := ⟨rfl, fun _ _ => rfl, fun _ _ found => by cases found⟩
  obtain ⟨finishedMoved, contents, alikeEnd⟩ := steps_of_shuffled free (settles_assemble free clean)
    (shuffled_of_filter_eq kept.symm) (List.Subset.refl _) moved.symm.subset proper alike room
    (assemble_run origin source).grows.value?_extends finished
  have values := value?_eq_of_perm free moved placedClean
    (fun line member => Line.isFault_of_finished (finishedMoved line member)) alikeEnd.labels
  have sameFinish : Line.finished (assemble origin reordered).symbols =
      Line.finished (assemble origin source).symbols := funext (Line.finished_congr values)
  refine ⟨?_, values, ?_⟩
  · rw [Program.faultCount, List.countP_eq_zero, assemble_lines, sameFinish]
    intro line member
    obtain ⟨placed, inLayout, rfl⟩ := List.mem_map.mp member
    simp [finishedMoved placed inLayout]
  · rw [assemble_lines, assemble_lines, sameFinish]
    exact contents

/-- Two orders that agree on the lines that are no constants have the same object code. -/
theorem object?_of_placedContents (clean : (assemble origin source).faultCount = 0)
    (cleanMoved : (assemble origin reordered).faultCount = 0)
    (contents : placedContents (assemble origin reordered).lines =
      placedContents (assemble origin source).lines) :
    (assemble origin reordered).object? = (assemble origin source).object? := by
  rw [Program.object?_of_faultCount clean, Program.object?_of_faultCount cleanMoved,
    ObjectFile.ofLines_eq_foldl (follows_assemble clean).1,
    ObjectFile.ofLines_eq_foldl (follows_assemble cleanMoved).1, ObjectFile.foldl_add_eq,
    ObjectFile.foldl_add_eq, contents]

end Reordered

/-- **It does not matter where constants stand.** Let no constant have a name of the chip, use the
address of its line, or be mentioned by an origin or a reserved space. If the lines are reordered
and those that are no constants stay in order, the program has no faults exactly if it had none
before. Its object code and the value of every name are then what they were. -/
theorem assemble_reordered (origin : Word) {source reordered : List Text}
    (free : FreeConstants source) (moved : source.Perm reordered)
    (kept : reordered.filter keepsPlace = source.filter keepsPlace) :
    ((assemble origin source).faultCount = 0 ↔ (assemble origin reordered).faultCount = 0) ∧
      ((assemble origin source).faultCount = 0 →
        (assemble origin reordered).object? = (assemble origin source).object? ∧
        ∀ name, (assemble origin reordered).symbols.value? name =
          (assemble origin source).symbols.value? name) := by
  refine ⟨⟨fun clean => ?_, fun clean => ?_⟩, fun clean => ?_⟩
  · exact (reordered_of_clean free moved kept clean).1
  · exact (reordered_of_clean (free.perm moved) moved.symm kept.symm clean).1
  · obtain ⟨cleanMoved, values, contents⟩ := reordered_of_clean free moved kept clean
    exact ⟨object?_of_placedContents clean cleanMoved contents, congrFun values⟩

/-- Constants at the end of a program, and the same constants in the middle and in front. -/
theorem assemble_reordered_front :
    let source := ["START MOV #LIMIT,R5".toList, " DB SIZE,LIMIT".toList, "DONE JMP START".toList,
      "LIMIT EQU SIZE+1".toList, "SIZE EQU DONE-START".toList, " ORG DONE+0x10".toList]
    let reordered := ["SIZE EQU DONE-START".toList, "START MOV #LIMIT,R5".toList,
      "LIMIT EQU SIZE+1".toList, " DB SIZE,LIMIT".toList, "DONE JMP START".toList,
      " ORG DONE+0x10".toList]
    (assemble 0x0200 reordered).faultCount = 0 ∧
      (assemble 0x0200 reordered).object? = (assemble 0x0200 source).object? ∧
      (assemble 0x0200 reordered).symbols.value? "LIMIT".toList = some 7 := by
  intro source reordered
  have clean : (assemble 0x0200 source).faultCount = 0 := by decide +kernel
  have free : FreeConstants source := by decide +kernel
  have moved : source.Perm reordered := by decide +kernel
  have kept : reordered.filter keepsPlace = source.filter keepsPlace := by decide +kernel
  obtain ⟨sameFaults, same⟩ := assemble_reordered 0x0200 free moved kept
  obtain ⟨object, values⟩ := same clean
  refine ⟨sameFaults.mp clean, object, (values _).trans ?_⟩
  decide +kernel

end Msp430
