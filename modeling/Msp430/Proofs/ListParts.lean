import Msp430.Proofs.WordLists

/-! # Parts of a list

Cutting a list at its commas undoes putting commas between its items
(`Scan.cutList_joinList`), and putting commas between the parts undoes cutting any
text (`Scan.joinList_cutList`). The joints are commas outside quotes and parentheses
(`Scan.over_of_cutList`), and the parts have no such comma left
(`Scan.undivided_of_mem_cutList`). What is given back has only lost the blanks around
the parts (`Scan.splitList_joined`).
-/

namespace Msp430

namespace Scan

variable {open? : Option Char} {depth : Int} {text : Text} {parts : List Text}

/-! ### Joining, then cutting -/

theorem joinList_cons_cons (part next : Text) (others : List Text) :
    joinList (part :: next :: others) = part ++ ',' :: joinList (next :: others) := by
  have whole := joinList_cons_append part next others []
  rwa [List.append_nil, List.append_nil] at whole

theorem joinList_append {front back : List Text} (before : front ≠ []) (behind : back ≠ []) :
    joinList (front ++ back) = joinList front ++ ',' :: joinList back := by
  obtain ⟨next, others, rfl⟩ := List.exists_cons_of_ne_nil behind
  induction front with
  | nil => exact absurd rfl before
  | cons part front ih =>
      cases front with
      | nil => rw [List.singleton_append, joinList_cons_cons, joinList, joinList,
          List.intercalate_singleton]
      | cons following front =>
          rw [List.cons_append, List.cons_append, joinList_cons_cons, ← List.cons_append,
            ih (List.cons_ne_nil _ _), joinList_cons_cons, List.append_assoc, List.cons_append]

/-- **Cutting undoes joining.** Items with commas between them are cut into the items. -/
theorem cutList_joinList (nonempty : parts ≠ []) (items : ∀ part ∈ parts, IsItem part) :
    cutList none 0 (joinList parts) = parts := by
  induction parts with
  | nil => exact absurd rfl nonempty
  | cons part others ih =>
      obtain ⟨item, later⟩ := List.forall_mem_cons.mp items
      cases others with
      | nil =>
          rw [joinList, List.intercalate_singleton]
          exact cutList_undivided item.undivided
      | cons next others =>
          rw [joinList_cons_cons, item.cutList_append, ih (List.cons_ne_nil _ _) later]

/-! ### Cutting, then joining -/

theorem joinList_extendFirst (c : Char) (nonempty : parts ≠ []) :
    joinList (Text.extendFirst c parts) = c :: joinList parts := by
  obtain ⟨part, others, rfl⟩ := List.exists_cons_of_ne_nil nonempty
  cases others with
  | nil => simp only [Text.extendFirst, joinList, List.intercalate_singleton]
  | cons next others =>
      rw [Text.extendFirst, joinList_cons_cons, joinList_cons_cons, List.cons_append]

/-- **Joining undoes cutting.** No character of a text is lost but the commas at the cuts. -/
theorem joinList_cutList (open? : Option Char) (depth : Int) (text : Text) :
    joinList (cutList open? depth text) = text := by
  induction text generalizing open? depth with
  | nil => rw [cutList, joinList, List.intercalate_singleton]
  | cons c rest ih =>
      rw [cutList]
      split
      case isTrue stops =>
        simp only [Bool.and_eq_true, beq_iff_eq] at stops
        have behind := cutList_ne_nil none 0 rest
        rw [← List.singleton_append, joinList_append (List.cons_ne_nil _ _) behind, ih, stops.2,
          joinList, List.intercalate_singleton, List.nil_append]
      case isFalse =>
        rw [joinList_extendFirst c (cutList_ne_nil _ _ rest), ih]

/-- Each cut is made at a comma outside quotes and parentheses. -/
theorem over_of_cutList {front back : List Text} (cut : cutList open? depth text = front ++ back)
    (before : front ≠ []) (behind : back ≠ []) :
    quoteOver open? (joinList front) = none ∧ depthOver open? depth (joinList front) = 0 := by
  induction front generalizing open? depth text with
  | nil => exact absurd rfl before
  | cons first front ih =>
      rw [List.cons_append] at cut
      obtain ⟨_, ⟨_, nothing⟩ | ⟨rest, _, others, closed, level⟩⟩ := cutList_cases cut
      · exact absurd (List.append_eq_nil_iff.mp nothing).2 behind
      · cases front with
        | nil =>
            rw [joinList, List.intercalate_singleton]
            exact ⟨closed, level⟩
        | cons next front =>
            -- Behind a cut the scan starts anew, as at the start of a text.
            rw [joinList_cons_cons, quoteOver_append, depthOver_append, closed, level]
            exact ih others.symm (List.cons_ne_nil _ _)

/-- The parts of a list have no comma left outside quotes and parentheses. -/
theorem undivided_of_mem_cutList {part : Text} (member : part ∈ cutList none 0 text) :
    Undivided none 0 part := by
  obtain ⟨front, back, cut⟩ := List.append_of_mem member
  induction front generalizing text with
  | nil => exact (cutList_cases cut).1
  | cons first front ih =>
      rw [List.cons_append] at cut
      obtain ⟨_, ⟨_, nothing⟩ | ⟨rest, _, others, _, _⟩⟩ := cutList_cases cut
      · simp at nothing
      · exact ih (others ▸ by simp) others.symm

/-! ### Blanks -/

theorem map_trim_of_padded {items : List Text} (padded : List.Forall₂ Text.Padded items parts) :
    parts.map Text.trim = items.map Text.trim := by
  induction padded with
  | nil => rfl
  | cons blanks _ ih =>
      obtain ⟨left, right, leftBlank, rightBlank, rfl⟩ := blanks
      rw [List.map_cons, List.map_cons, ih, Text.trim_padded leftBlank rightBlank]

theorem isItem_of_padded {items : List Text} (padded : List.Forall₂ Text.Padded items parts)
    (isItem : ∀ item ∈ items, IsItem item) : ∀ part ∈ parts, IsItem part := by
  induction padded with
  | nil => nofun
  | cons blanks _ ih =>
      obtain ⟨left, right, leftBlank, rightBlank, rfl⟩ := blanks
      obtain ⟨first, later⟩ := List.forall_mem_cons.mp isItem
      exact List.forall_mem_cons.mpr ⟨first.padded leftBlank rightBlank, ih later⟩

theorem padded_map_trim (parts : List Text) :
    List.Forall₂ Text.Padded (parts.map Text.trim) parts := by
  rw [List.forall₂_map_left_iff, List.forall₂_same]
  exact fun part _ => Text.exists_trim part

/-- **Splitting a list undoes joining its items,** with blanks around them; and whatever text is
split, the parts come from pieces that the text has between commas. Every comma at a joint stands
outside quotes and parentheses, every other comma inside of either, and the parts are the pieces
without the blanks at their ends. -/
theorem splitList_joined :
    (∀ items parts, items ≠ [] → (∀ item ∈ items, IsItem item) →
      List.Forall₂ Text.Padded items parts →
        splitList (joinList parts) = items.map Text.trim) ∧
    ∀ text, ∃ pieces, pieces ≠ [] ∧ joinList pieces = text ∧
      splitList text = pieces.map Text.trim ∧
      List.Forall₂ Text.Padded (splitList text) pieces ∧
      (∀ front back, pieces = front ++ back → front ≠ [] → back ≠ [] →
        text = joinList front ++ ',' :: joinList back ∧
          quoteOver none (joinList front) = none ∧ depthOver none 0 (joinList front) = 0) ∧
      ∀ piece ∈ pieces, Undivided none 0 piece := by
  constructor
  · intro items parts nonempty isItem padded
    have partsNonempty : parts ≠ [] := by
      rintro rfl
      cases padded
      exact nonempty rfl
    rw [splitList, cutList_joinList partsNonempty (isItem_of_padded padded isItem),
      map_trim_of_padded padded]
  · intro text
    refine ⟨cutList none 0 text, cutList_ne_nil none 0 text, joinList_cutList none 0 text, rfl,
      padded_map_trim _, fun front back cut before behind => ⟨?_, ?_⟩,
      fun piece member => undivided_of_mem_cutList member⟩
    · rw [← joinList_append before behind, ← cut, joinList_cutList]
    · exact over_of_cutList cut before behind

/-- Items with quoted commas and parentheses, an apostrophe in a string and nothing at all; and a
text whose parentheses and quotes stay open, which is cut at its first comma only. -/
theorem splitList_joined_quoted :
    let items := ["'a,('".toList, "(2,\")\")-1".toList, "\"it's,\"".toList, []]
    let parts := [" 'a,('".toList, "(2,\")\")-1\t".toList, "  \"it's,\" ".toList, " ".toList]
    (∀ item ∈ items, IsItem item) ∧ splitList (joinList parts) = items ∧
      ∃ pieces, joinList pieces = "R4, (R5,'x,R6".toList ∧
        splitList "R4, (R5,'x,R6".toList = pieces.map Text.trim ∧
        pieces.map Text.trim = ["R4".toList, "(R5,'x,R6".toList] := by
  intro items parts
  have isItem : ∀ item ∈ items, IsItem item := by decide +kernel
  have blank : Text.Blanks [' '] := by decide
  have padded : List.Forall₂ Text.Padded items parts :=
    .cons ⟨[' '], [], blank, .nil, rfl⟩ (.cons ⟨[], ['\t'], .nil, by decide, rfl⟩
      (.cons ⟨[' ', ' '], [' '], by decide, blank, rfl⟩
        (.cons ⟨[' '], [], blank, .nil, rfl⟩ .nil)))
  refine ⟨isItem, (splitList_joined.1 items parts (List.cons_ne_nil _ _) isItem padded).trans ?_, ?_⟩
  · decide +kernel
  · obtain ⟨pieces, _, joined, trimmed, _⟩ := splitList_joined.2 "R4, (R5,'x,R6".toList
    exact ⟨pieces, joined, trimmed, trimmed.symm.trans (by decide +kernel)⟩

end Scan

end Msp430
