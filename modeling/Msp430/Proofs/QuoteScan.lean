import Msp430.Proofs.Trimming
import Msp430.Source.Scan

/-! # Quotes along a text

Which quote is open after a text (`Scan.quoteOver`), and how deep its parentheses
nest there (`Scan.depthOver`), decide about every semicolon and every comma. A
text that is code (`Scan.IsCode`) stays whole in front of a comment
(`Scan.IsCode.stripComment_append`). A text that is an item of a list
(`Scan.IsItem`) ends at the comma behind it (`Scan.IsItem.cutList_append`).
-/

namespace Msp430

namespace Scan

/-- The quote that is open after a text, given the one that was open before it. -/
def quoteOver (open? : Option Char) (text : Text) : Option Char :=
  text.foldl quoteAfter open?

/-- The nesting depth after a text, given the open quote and the depth before it. -/
def depthOver (open? : Option Char) (depth : Int) : Text → Int
  | [] => depth
  | c :: rest => depthOver (quoteAfter open? c) (depthAfter open? depth c) rest

/-- The quote that is open behind two texts is found by scanning one after the other. -/
theorem quoteOver_append (open? : Option Char) (first second : Text) :
    quoteOver open? (first ++ second) = quoteOver (quoteOver open? first) second :=
  List.foldl_append

/-- The depth behind two texts is found by scanning one after the other. -/
theorem depthOver_append (open? : Option Char) (depth : Int) (first second : Text) :
    depthOver open? depth (first ++ second) =
      depthOver (quoteOver open? first) (depthOver open? depth first) second := by
  induction first generalizing open? depth with
  | nil => rfl
  | cons c rest ih => exact ih _ _

/-! ### Characters that a scan passes over -/

/-- The characters that a scan takes notice of. -/
def marks : List Char :=
  ['\'', '"', '(', ')', ',', ';']

/-- A character that a scan passes over. -/
def isNeutral (c : Char) : Bool :=
  !marks.contains c

/-- The characters of a class that has none of the marks are neutral. -/
theorem isNeutral_of_test {test : Char → Bool} (unmarked : ∀ mark ∈ marks, test mark = false)
    {c : Char} (passes : test c = true) : isNeutral c = true := by
  rw [isNeutral, Bool.not_eq_true', Bool.eq_false_iff, ne_eq, List.contains_iff_mem]
  intro member
  rw [unmarked c member] at passes
  cases passes

theorem isNeutral_of_blanks {text : Text} (blank : Text.Blanks text) :
    ∀ c ∈ text, isNeutral c = true :=
  fun c member => isNeutral_of_test (by simp [marks, Text.isBlank]) (blank c member)

/-- A neutral character outside quotes opens no quote and leaves the depth. -/
theorem after_of_isNeutral {c : Char} (neutral : isNeutral c = true) (depth : Int) :
    quoteAfter none c = none ∧ depthAfter none depth c = depth := by
  simp only [isNeutral, marks, Bool.not_eq_true', List.contains_cons, Bool.or_eq_false_iff]
    at neutral
  simp [quoteAfter, isQuoteMark, depthAfter, neutral]

/-- Neutral characters outside quotes open no quote and leave the depth. -/
theorem over_of_isNeutral {text : Text} (neutral : ∀ c ∈ text, isNeutral c = true) (depth : Int) :
    quoteOver none text = none ∧ depthOver none depth text = depth := by
  induction text with
  | nil => exact ⟨rfl, rfl⟩
  | cons c rest ih =>
      obtain ⟨unquoted, level⟩ := after_of_isNeutral (neutral c List.mem_cons_self) depth
      have later := ih fun d member => neutral d (List.mem_cons_of_mem _ member)
      exact ⟨by rw [quoteOver, List.foldl_cons, unquoted]; exact later.1,
        by rw [depthOver, unquoted, level]; exact later.2⟩

/-! ### Comments -/

/-- Every semicolon of a text stands inside a quote. -/
def Uncommented (open? : Option Char) (text : Text) : Prop :=
  ∀ before after, text = before ++ ';' :: after → quoteOver open? before ≠ none

/-- A text that a comment can follow: its quotes are closed and its semicolons are quoted. -/
structure IsCode (text : Text) : Prop where
  closed : quoteOver none text = none
  uncommented : Uncommented none text

theorem uncommented_cons {open? : Option Char} {c : Char} {rest : Text} :
    Uncommented open? (c :: rest) ↔
      ¬ (open?.isNone && c == ';') = true ∧ Uncommented (quoteAfter open? c) rest := by
  rw [Bool.and_eq_true, Option.isNone_iff_eq_none, beq_iff_eq]
  constructor
  · intro uncommented
    refine ⟨?_, ?_⟩
    · rintro ⟨outside, rfl⟩
      exact uncommented [] rest rfl outside
    · rintro before after rfl
      exact uncommented (c :: before) after rfl
  · rintro ⟨first, later⟩ before after split
    cases before with
    | nil =>
        cases split
        exact fun outside => first ⟨outside, rfl⟩
    | cons _ others =>
        cases split
        exact later others after rfl

/-- Behind a text in which no comment starts, the scan goes on with the quote that the text leaves
open. -/
theorem cutComment_append {open? : Option Char} {text : Text}
    (uncommented : Uncommented open? text) (rest : Text) :
    cutComment open? (text ++ rest) = text ++ cutComment (quoteOver open? text) rest := by
  induction text generalizing open? with
  | nil => rfl
  | cons c others ih =>
      obtain ⟨first, later⟩ := uncommented_cons.mp uncommented
      rw [List.cons_append, cutComment, if_neg first, ih later]
      rfl

/-- A text keeps everything exactly if no comment starts in it. -/
theorem cutComment_eq_self_iff {open? : Option Char} {text : Text} :
    cutComment open? text = text ↔ Uncommented open? text := by
  induction text generalizing open? with
  | nil => exact ⟨fun _ before after split => by simp at split, fun _ => rfl⟩
  | cons c rest ih =>
      rw [uncommented_cons, cutComment, ← ih]
      by_cases comment : (open?.isNone && c == ';') = true
      · simp [comment]
      · simp [comment]

instance (open? : Option Char) (text : Text) : Decidable (Uncommented open? text) :=
  decidable_of_iff _ cutComment_eq_self_iff

/-- A comment behind a text goes without a trace, if the text has closed its quotes or has a
comment already. -/
theorem cutComment_comment {open? : Option Char} {text : Text}
    (ends : cutComment open? text ≠ text ∨ quoteOver open? text = none) (comment : Text) :
    cutComment open? (text ++ ';' :: comment) = cutComment open? text := by
  induction text generalizing open? with
  | nil =>
      rcases ends with found | closed
      · exact absurd rfl found
      · change open? = none at closed
        rw [closed]
        rfl
  | cons c rest ih =>
      rw [List.cons_append, cutComment]
      rw [cutComment] at ends ⊢
      split
      case isTrue => rfl
      case isFalse scanning =>
        rw [if_neg scanning] at ends
        rw [ih (ends.imp_left fun changed same => changed (by rw [same]))]

namespace IsCode

theorem of_isNeutral {text : Text} (neutral : ∀ c ∈ text, isNeutral c = true) : IsCode text := by
  refine ⟨(over_of_isNeutral neutral 0).1, ?_⟩
  rintro before after rfl
  exact absurd (neutral ';' (by simp)) (by decide)

theorem of_blanks {text : Text} (blank : Text.Blanks text) : IsCode text :=
  of_isNeutral (isNeutral_of_blanks blank)

theorem append {first second : Text} (left : IsCode first) (right : IsCode second) :
    IsCode (first ++ second) := by
  refine ⟨by rw [quoteOver_append, left.closed, right.closed], ?_⟩
  intro before after split
  rcases List.append_eq_append_iff.mp split with ⟨between, rfl, rest⟩ | ⟨between, rfl, rest⟩
  · rw [quoteOver_append, left.closed]
    exact right.uncommented between after rest
  · cases between with
    | nil =>
        exact absurd rfl (right.uncommented [] after rest.symm)
    | cons mark others =>
        cases rest
        exact left.uncommented before others rfl

/-- **A comment is cut off where it begins.** -/
theorem stripComment_append {text : Text} (code : IsCode text) (comment : Text) :
    stripComment (text ++ ';' :: comment) = text := by
  rw [stripComment, cutComment_append code.uncommented, code.closed]
  exact List.append_nil text

/-- Code has no comment to take off. -/
theorem stripComment_eq {text : Text} (code : IsCode text) : stripComment text = text :=
  cutComment_eq_self_iff.mpr code.uncommented

instance (text : Text) : Decidable (IsCode text) :=
  decidable_of_iff (quoteOver none text = none ∧ Uncommented none text)
    ⟨fun both => ⟨both.1, both.2⟩, fun code => ⟨code.closed, code.uncommented⟩⟩

end IsCode

/-! ### Lists -/

/-- Every comma of a text stands inside a quote or inside parentheses. -/
def Undivided (open? : Option Char) (depth : Int) (text : Text) : Prop :=
  ∀ before after, text = before ++ ',' :: after → quoteOver open? before = none →
    depthOver open? depth before ≠ 0

/-- A text that can be an item of a list: its quotes are closed, its parentheses balance, and its
commas are inside of either. -/
structure IsItem (text : Text) : Prop where
  closed : quoteOver none text = none
  balanced : depthOver none 0 text = 0
  undivided : Undivided none 0 text

theorem undivided_cons {open? : Option Char} {depth : Int} {c : Char} {rest : Text} :
    Undivided open? depth (c :: rest) ↔ ¬ (open?.isNone && depth == 0 && c == ',') = true ∧
      Undivided (quoteAfter open? c) (depthAfter open? depth c) rest := by
  rw [Bool.and_eq_true, Bool.and_eq_true, Option.isNone_iff_eq_none, beq_iff_eq, beq_iff_eq]
  constructor
  · intro undivided
    refine ⟨?_, ?_⟩
    · rintro ⟨⟨outside, level⟩, rfl⟩
      exact undivided [] rest rfl outside level
    · rintro before after rfl
      exact undivided (c :: before) after rfl
  · rintro ⟨first, later⟩ before after split
    cases before with
    | nil =>
        cases split
        exact fun outside level => first ⟨⟨outside, level⟩, rfl⟩
    | cons _ others =>
        cases split
        exact later others after rfl

/-- A text whose commas do not count is kept together with what follows it up to the next cut. -/
theorem cutList_append {open? : Option Char} {depth : Int} {text rest first : Text}
    {others : List Text} (undivided : Undivided open? depth text)
    (cut : cutList (quoteOver open? text) (depthOver open? depth text) rest = first :: others) :
    cutList open? depth (text ++ rest) = (text ++ first) :: others := by
  induction text generalizing open? depth with
  | nil => exact cut
  | cons c later ih =>
      obtain ⟨kept, inside⟩ := undivided_cons.mp undivided
      rw [List.cons_append, cutList, if_neg kept, ih inside cut]
      rfl

/-- A text without a dividing comma is a list of one part. -/
theorem cutList_undivided {text : Text} (undivided : Undivided none 0 text) :
    cutList none 0 text = [text] := by
  have whole : cutList none 0 (text ++ []) = [text ++ []] := cutList_append undivided rfl
  rwa [List.append_nil] at whole

instance decidableUndivided (open? : Option Char) (depth : Int) :
    ∀ text, Decidable (Undivided open? depth text)
  | [] => isTrue fun _ _ split => by simp at split
  | c :: rest =>
    have := decidableUndivided (quoteAfter open? c) (depthAfter open? depth c) rest
    decidable_of_iff _ undivided_cons.symm

namespace IsItem

theorem of_isNeutral {text : Text} (neutral : ∀ c ∈ text, isNeutral c = true) : IsItem text := by
  obtain ⟨closed, balanced⟩ := over_of_isNeutral neutral 0
  refine ⟨closed, balanced, ?_⟩
  rintro before after rfl
  exact absurd (neutral ',' (by simp)) (by decide)

theorem append {first second : Text} (left : IsItem first) (right : IsItem second) :
    IsItem (first ++ second) := by
  refine ⟨by rw [quoteOver_append, left.closed, right.closed],
    by rw [depthOver_append, left.closed, left.balanced, right.balanced], ?_⟩
  intro before after split
  -- A comma of the whole lies in one part; the second part starts as a text of its own.
  rcases List.append_eq_append_iff.mp split with ⟨between, rfl, rest⟩ | ⟨between, rfl, rest⟩
  · rw [quoteOver_append, depthOver_append, left.closed, left.balanced]
    exact right.undivided between after rest
  · cases between with
    | nil =>
        exact absurd rfl (right.undivided [] after rest.symm rfl)
    | cons mark others =>
        cases rest
        exact left.undivided before others rfl

/-- Blanks around an item belong to it. -/
theorem padded {left word right : Text} (item : IsItem word) (leftBlank : Text.Blanks left)
    (rightBlank : Text.Blanks right) : IsItem (left ++ word ++ right) :=
  ((of_isNeutral (isNeutral_of_blanks leftBlank)).append item).append
    (of_isNeutral (isNeutral_of_blanks rightBlank))

/-- **An item ends at the comma behind it.** -/
theorem cutList_append {text : Text} (item : IsItem text) (rest : Text) :
    cutList none 0 (text ++ ',' :: rest) = text :: cutList none 0 rest := by
  have cut : cutList (quoteOver none text) (depthOver none 0 text) (',' :: rest) =
      [] :: cutList none 0 rest := by
    rw [item.closed, item.balanced]
    rfl
  rw [Scan.cutList_append item.undivided cut, List.append_nil]

instance (text : Text) : Decidable (IsItem text) :=
  decidable_of_iff
    (quoteOver none text = none ∧ depthOver none 0 text = 0 ∧ Undivided none 0 text)
    ⟨fun all => ⟨all.1, all.2.1, all.2.2⟩, fun item => ⟨item.closed, item.balanced, item.undivided⟩⟩

end IsItem

end Scan

end Msp430
