import Mathlib.Data.List.DropRight
import Mathlib.Data.List.TakeWhile
import Msp430.Text.Basic

/-! # Blanks at the ends of a text

Trimming takes a text apart into blanks, a text with no blank at either end
(`Text.Bare`), and blanks (`Text.exists_trim`). It is the only way to do so
(`Text.trim_append`).
-/

namespace Msp430

namespace Text

/-- Nothing but blanks. -/
def Blanks (text : Text) : Prop :=
  ∀ c ∈ text, isBlank c = true

/-- No blank at either end. -/
def Bare (text : Text) : Prop :=
  (∀ c ∈ text.head?, isBlank c = false) ∧ ∀ c ∈ text.getLast?, isBlank c = false

instance (text : Text) : Decidable (Blanks text) :=
  decidable_of_iff (text.all isBlank = true) List.all_eq_true

instance (text : Text) : Decidable (Bare text) :=
  decidable_of_iff
    (text.head?.all (fun c => !isBlank c) = true ∧ text.getLast?.all (fun c => !isBlank c) = true)
    (by simp [Bare, Option.all_eq_true])

theorem Blanks.nil : Blanks [] := by
  intro c member
  cases member

theorem Blanks.append {first second : Text} (left : Blanks first) (right : Blanks second) :
    Blanks (first ++ second) := by
  intro c member
  rcases List.mem_append.mp member with inFirst | inSecond
  · exact left c inFirst
  · exact right c inSecond

theorem trimStart_append {left : Text} (blank : Blanks left) (rest : Text) :
    trimStart (left ++ rest) = trimStart rest :=
  List.dropWhile_append_of_pos blank

theorem trimStart_cons {first : Char} (solid : isBlank first = false) (rest : Text) :
    trimStart (first :: rest) = first :: rest :=
  List.dropWhile_cons_of_neg (by simp [solid])

/-- Trimming at the start takes off nothing but blanks. -/
theorem exists_trimStart (text : Text) : ∃ left, Blanks left ∧ text = left ++ trimStart text :=
  ⟨text.takeWhile isBlank, fun _ member => (List.mem_takeWhile_imp member),
    List.takeWhile_append_dropWhile.symm⟩

/-- Trimming at the start leaves no blank there. -/
theorem head?_trimStart (text : Text) : ∀ c ∈ (trimStart text).head?, isBlank c = false := by
  intro c first
  have kept := List.head?_dropWhile_not isBlank text
  rw [show (text.dropWhile isBlank).head? = some c from first] at kept
  exact kept

theorem trimEnd_append {right : Text} (blank : Blanks right) (text : Text) :
    trimEnd (text ++ right) = trimEnd text := by
  unfold trimEnd
  rw [List.reverse_append, List.dropWhile_append_of_pos]
  intro c member
  exact blank c (List.mem_reverse.mp member)

/-- Trimming at the end is dropping blanks from the right, whose lemmas serve here. -/
theorem trimEnd_eq_rdropWhile (text : Text) : trimEnd text = text.rdropWhile isBlank :=
  rfl

theorem trimEnd_of_getLast? {text : Text} (solid : ∀ c ∈ text.getLast?, isBlank c = false) :
    trimEnd text = text := by
  rw [trimEnd_eq_rdropWhile, List.rdropWhile_eq_self_iff]
  exact fun given => Bool.eq_false_iff.mp (solid _ (List.getLast_mem_getLast? given))

/-- Trimming at the end takes off nothing but blanks. -/
theorem exists_trimEnd (text : Text) : ∃ right, Blanks right ∧ text = trimEnd text ++ right :=
  ⟨text.rtakeWhile isBlank, fun _ member => List.mem_rtakeWhile_imp member,
    List.rdropWhile_append_rtakeWhile.symm⟩

/-- Trimming at the end leaves no blank there. -/
theorem getLast?_trimEnd (text : Text) : ∀ c ∈ (trimEnd text).getLast?, isBlank c = false := by
  intro c last
  rw [trimEnd_eq_rdropWhile] at last
  obtain ⟨given, rfl⟩ := List.mem_getLast?_eq_getLast last
  exact Bool.eq_false_iff.mpr (List.rdropWhile_last_not isBlank text given)

/-- Trimming leaves no blank at either end. -/
theorem bare_trim (text : Text) : Bare (trim text) := by
  refine ⟨?_, getLast?_trimEnd _⟩
  intro c first
  apply head?_trimStart text
  obtain ⟨right, _, whole⟩ := exists_trimEnd (trimStart text)
  rw [whole]
  change (trim text ++ right).head? = some c
  rw [List.head?_append, show (trim text).head? = some c from first]
  rfl

/-- Trimming takes off nothing but blanks. -/
theorem exists_trim (text : Text) :
    ∃ left right, Blanks left ∧ Blanks right ∧ text = left ++ trim text ++ right := by
  obtain ⟨left, leftBlank, whole⟩ := exists_trimStart text
  obtain ⟨right, rightBlank, rest⟩ := exists_trimEnd (trimStart text)
  refine ⟨left, right, leftBlank, rightBlank, ?_⟩
  rw [List.append_assoc]
  exact whole.trans (congrArg _ rest)

/-- **Trimming undoes padding.** A text with no blank at either end comes back from between
blanks. -/
theorem trim_append {left word right : Text} (leftBlank : Blanks left) (bare : Bare word)
    (rightBlank : Blanks right) : trim (left ++ word ++ right) = word := by
  unfold trim
  rw [List.append_assoc, trimStart_append leftBlank]
  cases word with
  | nil =>
      have nothing : trimStart right = [] := List.dropWhile_eq_nil_iff.mpr rightBlank
      rw [List.nil_append, nothing]
      rfl
  | cons first rest =>
      rw [List.cons_append, trimStart_cons (bare.1 first rfl), ← List.cons_append,
        trimEnd_append rightBlank, trimEnd_of_getLast? bare.2]

/-- Blanks around a text do not matter to trimming. -/
theorem trim_padded {left right : Text} (leftBlank : Blanks left) (rightBlank : Blanks right)
    (text : Text) : trim (left ++ text ++ right) = trim text := by
  obtain ⟨before, after, beforeBlank, afterBlank, whole⟩ := exists_trim text
  calc trim (left ++ text ++ right)
      = trim (left ++ (before ++ trim text ++ after) ++ right) := by rw [← whole]
    _ = trim (left ++ before ++ trim text ++ (after ++ right)) := by simp only [List.append_assoc]
    _ = trim text :=
      trim_append (leftBlank.append beforeBlank) (bare_trim text) (afterBlank.append rightBlank)

/-- Trimming once more at the start changes nothing. -/
theorem trim_trimStart (text : Text) : trim (trimStart text) = trim text := by
  obtain ⟨left, blank, whole⟩ := exists_trimStart text
  have padded := trim_padded blank Blanks.nil (trimStart text)
  rw [List.append_nil, ← whole] at padded
  exact padded.symm

/-- Trimming once more at the end changes nothing. -/
theorem trim_trimEnd (text : Text) : trim (trimEnd text) = trim text := by
  obtain ⟨right, blank, whole⟩ := exists_trimEnd text
  have padded := trim_padded Blanks.nil blank (trimEnd text)
  rw [List.nil_append, ← whole] at padded
  exact padded.symm

theorem mem_of_mem_trim {text : Text} {c : Char} (member : c ∈ trim text) : c ∈ text := by
  obtain ⟨left, right, _, _, whole⟩ := exists_trim text
  rw [whole]
  exact List.mem_append_left _ (List.mem_append_right _ member)

/-- A first character that is no blank stays the first one. -/
theorem head?_trim_cons {first : Char} (solid : isBlank first = false) (rest : Text) :
    (trim (first :: rest)).head? = some first := by
  obtain ⟨right, blank, whole⟩ := exists_trimEnd (first :: rest)
  unfold trim
  rw [trimStart_cons solid]
  cases shape : trimEnd (first :: rest) with
  | nil =>
      rw [shape, List.nil_append] at whole
      have inBlanks := blank first (whole ▸ List.mem_cons_self)
      rw [solid] at inBlanks
      cases inBlanks
  | cons kept others =>
      rw [shape] at whole
      cases whole
      rfl

/-- A text with no blank at either end is its own trimming. -/
theorem Bare.trim_eq {word : Text} (bare : Bare word) : trim word = word := by
  have padded := trim_append Blanks.nil bare Blanks.nil
  rwa [List.nil_append, List.append_nil] at padded

end Text

end Msp430
