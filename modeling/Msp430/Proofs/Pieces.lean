import Msp430.Text.Basic

/-! # Pieces of a text

The pieces that a text has between the occurrences of a mark. None of them holds the mark
(`Text.notMem_of_mem_splitOn`), and texts that are each ended by the mark are the pieces of the
whole in front of the last one (`Text.splitOn_flatMap`).
-/

namespace Msp430

namespace Text

/-- No piece holds the mark. -/
theorem notMem_of_mem_splitOn {mark : Char} {text piece : Text}
    (member : piece ∈ text.splitOn mark) : mark ∉ piece := by
  induction text generalizing piece with
  | nil =>
      rw [List.splitOn_nil, List.mem_singleton] at member
      exact member ▸ List.not_mem_nil
  | cons c rest ih =>
      rw [List.splitOn_cons_eq_if_modifyHead] at member
      split at member
      · rcases List.mem_cons.mp member with rfl | later
        · exact List.not_mem_nil
        · exact ih later
      · next other =>
          cases parts : List.splitOn mark rest with
          | nil => exact absurd parts (List.splitOn_ne_nil mark rest)
          | cons first others =>
              rw [parts] at member ih
              rcases List.mem_cons.mp member with rfl | later
              · exact List.not_mem_cons_of_ne_of_not_mem (fun same => other (beq_iff_eq.mpr same.symm))
                  (ih List.mem_cons_self)
              · exact ih (List.mem_cons_of_mem first later)

/-- A text starts with the mark if its first piece is empty and not its last. -/
theorem head?_eq_mark_iff {mark : Char} {text : Text} :
    text.head? = some mark ↔ ∃ piece rest, text.splitOn mark = [] :: piece :: rest := by
  cases text with
  | nil => simp
  | cons c rest =>
      obtain ⟨first, others, parts⟩ := List.exists_cons_of_ne_nil (List.splitOn_ne_nil mark rest)
      by_cases same : c = mark <;> simp [List.splitOn_cons_eq_if_modifyHead, parts, same]

/-- Texts that are each ended by the mark are the pieces in front of the last one. -/
theorem splitOn_flatMap {mark : Char} {texts : List Text} (unmarked : ∀ text ∈ texts, mark ∉ text)
    (rest : Text) :
    (texts.flatMap (fun text => text ++ [mark]) ++ rest).splitOn mark =
      texts ++ rest.splitOn mark := by
  induction texts with
  | nil => rfl
  | cons text others ih =>
      obtain ⟨first, later⟩ := List.forall_mem_cons.mp unmarked
      rw [List.flatMap_cons, List.append_assoc, List.append_assoc, List.singleton_append,
        List.splitOn_append_cons_self_of_not_mem first, ih later, List.cons_append]

end Text

end Msp430
