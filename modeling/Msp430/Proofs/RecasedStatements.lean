import Msp430.Proofs.RecasedInstructions

/-! # Letter case in statements

A line in upper case is taken apart into the upper-case parts of the line
(`Statement.classify_upper`): every word that the assembler knows is recognised in
any letter case. Data without quotes is stored alike (`Data.fields_upper`).
-/

namespace Msp430

/-- The statement with its words and operands in upper case. -/
def Statement.upper : Statement → Statement
  | .blank => .blank
  | .comment => .comment
  | .constant name value => .constant (Text.upper name) (Text.upper value)
  | .data label? directive items => .data (label?.map Text.upper) directive (Text.upper items)
  | .origin label? address => .origin (label?.map Text.upper) (Text.upper address)
  | .label name => .label (Text.upper name)
  | .instruction label? operator operands =>
    .instruction (label?.map Text.upper) (Text.upper operator) operands.upper

/-- A name can be a label in any letter case, or has the same fault. -/
theorem labelFault?_upper (name : Text) :
    labelFault? (Text.upper name) = (labelFault? name).map Fault.upper := by
  rw [labelFault?, Mnemonic.isReserved_upper, Text.isIdentifier_upper, labelFault?]
  split
  case isTrue => rfl
  case isFalse => split <;> rfl

/-! ### Columns -/

namespace Columns

/-- The columns in upper case. -/
def upper (columns : Columns) : Columns :=
  ⟨columns.label?.map Text.upper, Text.upper columns.body⟩

theorem beforeColon?_upper (word : Text) :
    beforeColon? (Text.upper word) = (beforeColon? word).map Text.upper := by
  simp only [beforeColon?, @Text.getLast?_upper_eq_some_iff ':' rfl, Text.upper_dropLast]
  split <;> rfl

/-- A line falls into the same columns in any letter case. -/
theorem ofCode_upper (code : Text) : ofCode (Text.upper code) = (ofCode code).upper := by
  cases code with
  | nil => rfl
  | cons first rest =>
      rw [Text.upper_cons, ofCode, isBlank_toUpper, ofCode, ← Text.upper_cons, Text.trim_upper,
        Text.splitWord_upper]
      split
      case isTrue => rfl
      case isFalse =>
        simp only [upper, beforeColon?_upper, Option.map_some]
        cases beforeColon? (Text.splitWord (first :: rest)).1 <;> rfl

/-- A constant is recognised in any letter case, with its faults. -/
theorem constant?_upper (columns : Columns) :
    columns.upper.constant? = columns.constant?.map (Outcome.upper Statement.upper) := by
  obtain ⟨label?, body⟩ := columns
  cases label? with
  | some name =>
      simp only [constant?, upper, Option.map_some, Text.splitWord_upper, Text.spells_upper,
        Text.isEmpty_upper, Option.isNone_some, Bool.false_eq_true, ↓reduceIte]
      split
      case isTrue => split <;> rfl
      case isFalse => rfl
  | none =>
      simp only [constant?, upper, Option.map_none, Text.splitWord_upper, Text.spells_upper,
        Option.isNone_none, ↓reduceIte]
      split <;> rfl

/-- A word is refused as an operator for the same fault in any letter case. -/
theorem operatorFault?_upper (indented : Bool) (operator rest : Text) :
    operatorFault? indented (Text.upper operator) (Text.upper rest) =
      (operatorFault? indented operator rest).map Fault.upper := by
  have letter : (Text.upper operator).head?.map Char.isAlpha = operator.head?.map Char.isAlpha := by
    rw [Text.upper, List.head?_map, Option.map_map]
    simp only [Function.comp_def, Char.isAlpha_toUpper_eq_isAlpha]
  have plain : operatorFault? false (Text.upper operator) (Text.upper rest) =
      (operatorFault? false operator rest).map Fault.upper := by
    simp only [operatorFault?, letter, Bool.false_eq_true, ↓reduceIte, Bool.false_and]
    split <;> rfl
  cases indented with
  | false => exact plain
  | true =>
      simp only [operatorFault?, beforeColon?_upper, ↓reduceIte, letter,
        Mnemonic.isReserved_upper, Text.splitWord_upper]
      cases beforeColon? operator with
      | some name => rfl
      | none =>
          dsimp only [Option.map_none]
          split
          case isTrue => rfl
          case isFalse => split <;> rfl

/-- The field of the operands falls into the same operands, or has the same fault, in any letter
case. -/
theorem operands_upper (rest : Text) :
    operands (Text.upper rest) = Outcome.upper Operands.upper (operands rest) := by
  rw [operands, Scan.splitList_upper, operands]
  match Scan.splitList rest with
  | [] => rfl
  | [_] =>
      simp only [List.map_cons, List.map_nil, Text.isEmpty_upper]
      split <;> rfl
  | [source, destination] =>
      simp only [List.map_cons, List.map_nil, Text.isEmpty_upper]
      split
      case isTrue => rfl
      case isFalse => split <;> rfl
  | _ :: _ :: _ :: _ => rfl

/-- Columns are one statement in both spellings. -/
theorem statement_upper (columns : Columns) :
    columns.upper.statement = Outcome.upper Statement.upper columns.statement := by
  rw [statement, constant?_upper, statement]
  cases columns.constant? with
  | some result => rfl
  | none =>
      obtain ⟨label?, body⟩ := columns
      simp only [Option.map_none, upper, Text.splitWord_upper, Directive.ofWord?_upper,
        Text.isEmpty_upper, Text.spells_upper]
      generalize Text.splitWord body = parts
      cases Directive.ofWord? parts.1 with
      | some directive =>
          dsimp only
          split <;> rfl
      | none =>
          dsimp only
          split
          case isTrue => split <;> rfl
          case isFalse =>
            cases label? with
            | none =>
                simp only [Option.map_none, operatorFault?_upper, operands_upper]
                cases operatorFault? none.isNone parts.1 parts.2 with
                | some fault => rfl
                | none => cases operands parts.2 <;> rfl
            | some name =>
                cases body with
                | nil => rfl
                | cons first rest =>
                    simp only [Option.map_some, Option.isNone_some, Text.upper_cons,
                      operatorFault?_upper, operands_upper]
                    cases operatorFault? false parts.1 parts.2 with
                    | some fault => rfl
                    | none => cases operands parts.2 <;> rfl

end Columns

/-- **A line is taken apart alike in any letter case.** -/
theorem Statement.classify_upper (text : Text) :
    classify (Text.upper text) = Outcome.upper Statement.upper (classify text) := by
  rw [classify, Text.trim_upper, Text.isEmpty_upper, Scan.stripComment_upper, Text.trimEnd_upper,
    classify]
  split
  case isTrue => rfl
  case isFalse =>
    dsimp only
    rw [Text.trim_upper, Text.isEmpty_upper, Text.splitWord_upper, Text.spells_upper]
    split
    case isTrue => rfl
    case isFalse =>
      rw [Columns.ofCode_upper]
      have label : ∀ columns : Columns, columns.upper.label?.bind labelFault? =
          (columns.label?.bind labelFault?).map Fault.upper := by
        rintro ⟨label?, body⟩
        cases label? with
        | none => rfl
        | some name => exact labelFault?_upper name
      rw [label]
      cases (Columns.ofCode (Text.trimEnd (Scan.stripComment text))).label?.bind labelFault? with
      | some fault => rfl
      | none => exact Columns.statement_upper _

/-! ### Data -/

namespace Data

variable {resolver : Resolver} (caseless : resolver.Caseless)

/-- A text without quotes is no string. -/
theorem unquote?_of_quoteless {text : Text} (quoteless : text.Quoteless) :
    unquote? text = none := by
  unfold unquote?
  split
  case h_1 => exact absurd (quoteless '"' List.mem_cons_self) (by decide)
  case h_2 => rfl

include caseless

/-- An item of bytes without quotes is stored alike in any letter case. -/
theorem byteItem_upper (here : Word) {item : Text} (quoteless : item.Quoteless) :
    byteItem here resolver (Text.upper item) =
      Outcome.upper (List.map Field.upper) (byteItem here resolver item) := by
  rw [byteItem, unquote?_of_quoteless quoteless.upper, byteItem, unquote?_of_quoteless quoteless]
  dsimp only
  rw [Expr.evaluate_upper caseless quoteless]
  apply Outcome.upper_bind
  intro value _
  rw [fitsByte, Value.known?_upper, fitsByte]
  split <;> rfl

theorem immediate_upper (here : Word) {text : Text} (quoteless : text.Quoteless) :
    immediate (Text.upper text) here resolver =
      Outcome.upper id (immediate text here resolver) := by
  rw [immediate, Expr.evaluate_upper caseless quoteless, immediate]
  exact Outcome.upper_bind fun value _ => value.settle_upper caseless

/-- Data without quotes is stored alike in any letter case. -/
theorem fields_upper (directive : Directive) (here : Word) {items : Text}
    (quoteless : items.Quoteless) :
    fields directive (Text.upper items) here resolver =
      Outcome.upper (List.map Field.upper) (fields directive items here resolver) := by
  have item : ∀ part ∈ Scan.splitList items, part.Quoteless :=
    fun part member => quoteless.mono (Scan.subset_of_mem_splitList member)
  cases directive with
  | space =>
      simp only [fields]
      rw [immediate_upper caseless here quoteless]
      exact Outcome.upper_bind fun _ _ => rfl
  | word =>
      simp only [fields]
      rw [Scan.splitList_upper]
      apply Outcome.upper_mapM
      intro part member
      rw [wordItem, Expr.evaluate_upper caseless (item part member), wordItem]
      exact Outcome.upper_bind fun _ _ => rfl
  | byte =>
      simp only [fields]
      rw [Scan.splitList_upper, Outcome.upper_mapM fun part member =>
        byteItem_upper caseless here (item part member)]
      apply Outcome.upper_bind
      intro parts _
      exact congrArg Except.ok List.map_flatten.symm

end Data

end Msp430
