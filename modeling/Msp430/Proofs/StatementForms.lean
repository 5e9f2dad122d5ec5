import Msp430.Proofs.DefinedNames
import Msp430.Proofs.LetterCase

/-! # The parts of a statement

A statement is made of parts of its line. Its name, as a label or as a constant, is
the word in the first column, and that word has passed the checks on labels; its
operand texts are cut out of what follows (`Statement.classify_parts`).
-/

namespace Msp430

/-! ### Cutting texts -/

namespace Text

theorem trim_subset (text : Text) : trim text ⊆ text :=
  fun _ => mem_of_mem_trim

theorem trimEnd_subset (text : Text) : trimEnd text ⊆ text := by
  obtain ⟨right, _, whole⟩ := exists_trimEnd text
  exact fun _ member => whole ▸ List.mem_append_left _ member

theorem splitWord_subset (text : Text) : (splitWord text).1 ⊆ text ∧ (splitWord text).2 ⊆ text :=
  ⟨List.Subset.trans (List.takeWhile_prefix _).subset (List.dropWhile_suffix _).subset,
    List.Subset.trans (trim_subset _)
      (List.Subset.trans (List.dropWhile_suffix _).subset (List.dropWhile_suffix _).subset)⟩

theorem blanks_of_trim {text : Text} (nothing : (trim text).isEmpty = true) : Blanks text := by
  obtain ⟨left, right, leftBlank, rightBlank, whole⟩ := exists_trim text
  rw [List.isEmpty_iff.mp nothing, List.append_nil] at whole
  exact whole ▸ leftBlank.append rightBlank

end Text

namespace Scan

theorem cutComment_prefix (open? : Option Char) (text : Text) : cutComment open? text <+: text := by
  induction text generalizing open? with
  | nil => exact List.prefix_rfl
  | cons c rest ih =>
      unfold cutComment
      split
      case isTrue => exact List.nil_prefix
      case isFalse => exact List.cons_prefix_cons.mpr ⟨rfl, ih _⟩

theorem subset_of_mem_cutList {open? : Option Char} {depth : Int} {text part : Text}
    (member : part ∈ cutList open? depth text) : part ⊆ text := by
  induction text generalizing open? depth part with
  | nil =>
      rw [List.mem_singleton.mp member]
      exact List.Subset.refl _
  | cons c rest ih =>
      unfold cutList at member
      split at member
      case isTrue =>
        rcases List.mem_cons.mp member with rfl | later
        · exact List.nil_subset _
        · exact List.subset_cons_of_subset c (ih later)
      case isFalse =>
        revert member
        cases cut : cutList (quoteAfter open? c) (depthAfter open? depth c) rest with
        | nil =>
            intro member
            rw [List.mem_singleton.mp member]
            exact List.cons_subset_cons c (List.nil_subset _)
        | cons first others =>
            intro member
            rcases List.mem_cons.mp member with rfl | later
            · exact List.cons_subset_cons c (ih (cut ▸ List.mem_cons_self))
            · exact List.subset_cons_of_subset c (ih (cut ▸ List.mem_cons_of_mem _ later))

theorem subset_of_mem_splitList {text part : Text} (member : part ∈ splitList text) :
    part ⊆ text := by
  obtain ⟨whole, cut, rfl⟩ := List.mem_map.mp member
  exact List.Subset.trans (Text.trim_subset whole) (subset_of_mem_cutList cut)

end Scan

/-! ### Operands and names -/

/-- The operand texts. -/
def Operands.texts : Operands → List Text
  | none => []
  | one text => [text]
  | two source destination => [source, destination]

/-- The operand texts of a statement. -/
def Statement.texts : Statement → List Text
  | .constant _ value => [value]
  | .data _ _ items => [items]
  | .origin _ address => [address]
  | .instruction _ _ operands => operands.texts
  | .blank | .comment | .label _ => []

/-- The word in the first column of a line, without its colon. -/
def firstColumn? (text : Text) : Option Text :=
  (Columns.ofCode (Text.trimEnd (Scan.stripComment text))).label?

namespace Columns

theorem body_subset (code : Text) : (ofCode code).body ⊆ code := by
  cases code with
  | nil => exact List.Subset.refl _
  | cons first rest =>
      rw [ofCode]
      by_cases blank : Text.isBlank first = true
      · rw [if_pos blank]
        exact Text.trim_subset _
      · rw [if_neg blank]
        exact (Text.splitWord_subset _).2

theorem label?_of_blanks {code : Text} (blanks : Text.Blanks code) :
    (ofCode code).label? = none := by
  cases code with
  | nil => rfl
  | cons first rest =>
      rw [ofCode, if_pos (blanks first List.mem_cons_self)]

/-- The end mark is reserved, so it labels nothing. -/
theorem isReserved_of_end {code : Text}
    (mark : Text.spells (Text.splitWord code).1 "END".toList = true) :
    ∀ name ∈ (ofCode code).label?, Mnemonic.isReserved name = true := by
  intro name named
  cases code with
  | nil => cases named
  | cons first rest =>
      rw [ofCode] at named
      split at named
      case isTrue => cases named
      case isFalse =>
        dsimp only at named
        generalize (Text.splitWord (first :: rest)).1 = word at mark named
        have spelled : Text.upper word = "END".toList := beq_iff_eq.mp mark
        have noColon : beforeColon? word = none := by
          refine if_neg fun last => ?_
          rw [← Text.getLast?_upper_eq_some_iff rfl, spelled] at last
          cases last
        rw [noColon] at named
        cases named
        rw [Option.getD_none, ← Mnemonic.isReserved_upper, spelled]
        rfl

theorem operands_subset {rest : Text} {parsed : Operands} (read : operands rest = .ok parsed) :
    ∀ part ∈ parsed.texts, part ⊆ rest := by
  unfold operands at read
  split at read
  case h_1 =>
    cases read
    split
    case isTrue => exact fun _ member => by cases member
    case isFalse =>
      intro part member
      rw [List.mem_singleton.mp member]
      exact List.Subset.refl _
  case h_2 source destination split =>
    split_ifs at read
    cases read
    intro part member
    exact Scan.subset_of_mem_splitList (split ▸ member)
  case h_3 => cases read

/-- A statement is named by the word in the first column, and its operands come from the rest. -/
theorem statement_parts {columns : Columns} {statement : Statement}
    (read : columns.statement = .ok statement) :
    statement.name? = columns.label? ∧ ∀ part ∈ statement.texts, part ⊆ columns.body := by
  have behind := (Text.splitWord_subset columns.body).2
  have single : ∀ {operand : Text}, operand ⊆ columns.body →
      ∀ part ∈ [operand], part ⊆ columns.body := by
    intro operand inside part member
    exact List.mem_singleton.mp member ▸ inside
  unfold Columns.statement at read
  split at read
  case h_1 result constant =>
    -- A constant has its name in the first column.
    cases named : columns.label? with
    | none => simp [constant?, named, read] at constant
    | some name =>
        simp only [constant?, named] at constant
        split at constant
        case isTrue =>
          rw [Option.some.injEq] at constant
          subst read
          simp only [Option.isNone_some, Bool.false_eq_true, ↓reduceIte] at constant
          split at constant
          case isTrue => cases constant
          case isFalse =>
            cases constant
            exact ⟨rfl, single behind⟩
        case isFalse => cases constant
  case h_2 =>
    dsimp only at read
    split at read
    case h_1 directive _ =>
      split at read
      case isTrue => cases read
      case isFalse =>
        cases read
        exact ⟨rfl, single behind⟩
    case h_2 =>
      split at read
      case isTrue =>
        split at read
        case isTrue => cases read
        case isFalse =>
          cases read
          exact ⟨rfl, single behind⟩
      case isFalse =>
        split at read
        case h_1 name named _ =>
          cases read
          exact ⟨named.symm, fun _ member => by cases member⟩
        case h_2 =>
          split at read
          case h_1 => cases read
          case h_2 =>
            cases parsed : operands (Text.splitWord columns.body).2 with
            | error fault =>
                rw [parsed] at read
                cases read
            | ok operands =>
                rw [parsed] at read
                cases read
                refine ⟨rfl, fun part member => ?_⟩
                exact List.Subset.trans (operands_subset parsed part member) behind

end Columns

/-- **A statement is made of parts of its line.** Blank lines, comments and the end mark name
nothing. Any other statement is named by the word in the first column, which is neither reserved
nor malformed, and its operand texts are cut out of the line. -/
theorem Statement.classify_parts {text : Text} {statement : Statement}
    (classified : classify text = .ok statement) :
    ((statement = .blank ∨ statement = .comment) ∧
        ∀ name ∈ firstColumn? text, Mnemonic.isReserved name = true) ∨
      (statement.name? = firstColumn? text ∧ (firstColumn? text).bind labelFault? = none ∧
        ∀ part ∈ statement.texts, part ⊆ text) := by
  have inside : Text.trimEnd (Scan.stripComment text) ⊆ text :=
    List.Subset.trans (Text.trimEnd_subset _) (Scan.cutComment_prefix none text).subset
  unfold classify at classified
  split at classified
  case isTrue blank =>
    cases classified
    have blanks : Text.Blanks (Text.trimEnd (Scan.stripComment text)) :=
      fun c member => Text.blanks_of_trim blank c (inside member)
    exact .inl ⟨.inl rfl, by simp [firstColumn?, Columns.label?_of_blanks blanks]⟩
  case isFalse =>
    dsimp only at classified
    split at classified
    case isTrue comment =>
      cases classified
      refine .inl ⟨.inr rfl, ?_⟩
      rcases Bool.or_eq_true_iff.mp comment with blank | mark
      · simp [firstColumn?, Columns.label?_of_blanks (Text.blanks_of_trim blank)]
      · exact Columns.isReserved_of_end mark
    case isFalse =>
      split at classified
      case h_1 => cases classified
      case h_2 passed =>
        obtain ⟨named, parts⟩ := Columns.statement_parts classified
        refine .inr ⟨named, passed, fun part member => ?_⟩
        exact List.Subset.trans (parts part member)
          (List.Subset.trans (Columns.body_subset _) inside)

theorem labelFault?_eq_none_iff {name : Text} :
    labelFault? name = none ↔
      Mnemonic.isReserved name = false ∧ Text.isIdentifier name = true := by
  unfold labelFault?
  cases Mnemonic.isReserved name with
  | true => simp
  | false => cases Text.isIdentifier name <;> simp

/-- The name of a statement stands in the first column and has passed the checks on labels. -/
theorem Statement.name?_sound {text name : Text} {statement : Statement}
    (classified : classify text = .ok statement) (named : statement.name? = some name) :
    firstColumn? text = some name ∧ Mnemonic.isReserved name = false ∧
      Text.isIdentifier name = true := by
  rcases classify_parts classified with ⟨rfl | rfl, _⟩ | ⟨inColumn, passed, _⟩
  · cases named
  · cases named
  · rw [← inColumn, named, Option.bind_some] at passed
    exact ⟨inColumn.symm.trans named, labelFault?_eq_none_iff.mp passed⟩

end Msp430
