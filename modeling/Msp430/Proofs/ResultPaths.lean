import Mathlib.Data.List.TakeWhile
import Msp430.Command.Path
import Msp430.Proofs.Pieces

/-! # Paths of results

A path falls into folders, the name of the file, and pieces that stay where they
are (`Path.Names`). The results of a source stand beside it: their paths have the
folders of the source in front of one other name (`Path.Names.withExtension`), which is
not the name of a source (`Path.Names.isSource_beside`).
-/

namespace Msp430

namespace Path

/-- How a path that names a file falls into pieces: folders, the name, and pieces that stay. -/
structure Names (path : Text) (folders : List Text) (name : Text) (idles : List Text) : Prop where
  pieces : path.splitOn '/' = folders ++ name :: idles
  solid : isIdle name = false
  level : isUpward name = false
  idle : ∀ piece ∈ idles, isIdle piece = true

namespace Names

variable {path name : Text} {folders idles : List Text}

theorem ne_nil (names : Names path folders name idles) : name ≠ [] := by
  rintro rfl
  exact absurd names.solid (by decide)

theorem notMem (names : Names path folders name idles) : '/' ∉ name := by
  have member : name ∈ path.splitOn '/' := by simp [names.pieces]
  exact Text.notMem_of_mem_splitOn member

/-- A name is a path of its own. -/
theorem self (names : Names path folders name idles) : Names name [] name [] :=
  ⟨List.splitOn_eq_singleton names.notMem, names.solid, names.level, nofun⟩

end Names

/-- A path has a name exactly if it is folders, a name that is neither idle nor upward, and idle
pieces. -/
theorem splitName?_eq_some_iff {path folder name : Text} :
    splitName? path = some (folder, name) ↔ ∃ folders idles, Names path folders name idles ∧
      folder = folders.flatMap (fun folder => folder ++ ['/']) := by
  constructor
  · intro split
    unfold splitName? at split
    cases rest : (path.splitOn '/').reverse.dropWhile isIdle with
    | nil =>
        rw [rest] at split
        cases split
    | cons last folders =>
        rw [rest] at split
        dsimp only at split
        split_ifs at split with upward
        obtain ⟨rfl, rfl⟩ := Prod.mk.inj (Option.some.inj split)
        refine ⟨folders.reverse, ((path.splitOn '/').reverse.takeWhile isIdle).reverse,
          ⟨?_, ?_, Bool.eq_false_iff.mpr upward, fun piece member => ?_⟩, rfl⟩
        · have whole := List.takeWhile_append_dropWhile (p := isIdle)
            (l := (path.splitOn '/').reverse)
          rw [rest] at whole
          simpa using (congrArg List.reverse whole).symm
        · have head := List.head?_dropWhile_not isIdle (path.splitOn '/').reverse
          rw [rest] at head
          simpa using head
        · exact List.mem_takeWhile_imp (List.mem_reverse.mp member)
  · rintro ⟨folders, idles, names, rfl⟩
    have idle : ∀ piece ∈ idles.reverse, isIdle piece = true := fun piece member =>
      names.idle piece (List.mem_reverse.mp member)
    have reversed : (path.splitOn '/').reverse.dropWhile isIdle = name :: folders.reverse := by
      rw [names.pieces, List.reverse_append, List.reverse_cons, List.append_assoc,
        List.dropWhile_append_of_pos idle, List.singleton_append,
        List.dropWhile_cons_of_neg (by simp [names.solid])]
    unfold splitName?
    rw [reversed]
    simp [names.level]

/-! ### Extensions -/

/-- The extensions of listings and object files. -/
def resultExtensions : List Text :=
  ["lst".toList, "obj".toList]

/-- The extensions of results are plain words, and not those of sources. -/
theorem resultExtensions_plain : ∀ extension ∈ resultExtensions,
    '/' ∉ extension ∧ '.' ∉ extension ∧ extension ≠ [] ∧
      ["S43".toList, "ASM".toList, "S".toList].contains (Text.upper extension) = false := by
  decide

/-- A name with another extension. -/
def beside (name extension : Text) : Text :=
  (splitExtension name).1 ++ ['.'] ++ extension

theorem mem_of_mem_stem {name : Text} {c : Char} (member : c ∈ (splitExtension name).1) :
    c ∈ name := by
  unfold splitExtension at member
  dsimp only at member
  split at member
  · exact member
  · have front := (List.dropLast_sublist _).subset member
    exact List.mem_reverse.mp ((List.dropWhile_sublist _).subset (List.mem_reverse.mp front))

theorem stem_ne_nil {name : Text} (given : name ≠ []) : (splitExtension name).1 ≠ [] := by
  unfold splitExtension
  dsimp only
  split
  · exact given
  · assumption

/-- An extension without points is taken off where it was put. -/
theorem splitExtension_append {stem extension : Text} (given : stem ≠ [])
    (pointless : '.' ∉ extension) :
    splitExtension (stem ++ ['.'] ++ extension) = (stem, some extension) := by
  have others : ∀ c ∈ extension.reverse, (c != '.') = true := fun c member =>
    bne_iff_ne.mpr fun same => pointless (same ▸ List.mem_reverse.mp member)
  have behind : (stem ++ ['.'] ++ extension).reverse.takeWhile (· != '.') = extension.reverse := by
    simp [List.takeWhile_append_of_pos others]
  have front : (stem ++ ['.'] ++ extension).reverse.dropWhile (· != '.') = '.' :: stem.reverse := by
    simp [List.dropWhile_append_of_pos others]
  unfold splitExtension
  rw [behind, front, List.reverse_cons, List.reverse_reverse, List.reverse_reverse,
    List.dropLast_concat]
  cases stem with
  | nil => exact absurd rfl given
  | cons c rest => rfl

namespace Names

variable {path name : Text} {folders idles : List Text}

theorem splitName?_eq (names : Names path folders name idles) :
    splitName? path = some (folders.flatMap (fun folder => folder ++ ['/']), name) :=
  splitName?_eq_some_iff.mpr ⟨folders, idles, names, rfl⟩

theorem extension?_eq (names : Names path folders name idles) :
    extension? path = (splitExtension name).2 := by
  simp [extension?, names.splitName?_eq]

/-- Whether a path names a source lies in the name alone. -/
theorem isSource_eq (names : Names path folders name idles) : isSource name = isSource path := by
  unfold isSource
  rw [names.extension?_eq, names.self.extension?_eq]

/-- **A file beside another has the same folders** and its own name, which ends the path. -/
theorem withExtension (names : Names path folders name idles) (extension : Text)
    (result : extension ∈ resultExtensions) :
    Names (withExtension path extension) folders (beside name extension) [] := by
  obtain ⟨whole, -, given, -⟩ := resultExtensions_plain extension result
  have unmarked : '/' ∉ beside name extension := by
    simp only [beside, List.mem_append, not_or]
    exact ⟨⟨fun inside => names.notMem (mem_of_mem_stem inside), by decide⟩, whole⟩
  have long : 3 ≤ (beside name extension).length := by
    have stem := List.length_pos_iff.mpr (stem_ne_nil names.ne_nil)
    have behind := List.length_pos_iff.mpr given
    simp only [beside, List.length_append, List.length_singleton]
    omega
  refine ⟨?_, ?_, ?_, nofun⟩
  · have unslashed : ∀ folder ∈ folders, '/' ∉ folder := by
      intro folder member
      have among : folder ∈ path.splitOn '/' := by simp [names.pieces, member]
      exact Text.notMem_of_mem_splitOn among
    unfold Path.withExtension
    rw [names.splitName?_eq]
    dsimp only
    rw [List.append_assoc, List.append_assoc, ← List.append_assoc _ _ extension,
      Text.splitOn_flatMap unslashed, ← beside, List.splitOn_eq_singleton unmarked]
  · rw [Bool.eq_false_iff]
    intro idle
    rcases (by simpa [isIdle] using idle : beside name extension = [] ∨ _) with short | short <;>
      simp [short] at long
  · rw [Bool.eq_false_iff]
    intro upward
    have short : beside name extension = "..".toList := by simpa [isUpward] using upward
    simp [short] at long

/-- The name of a result is not that of a source. -/
theorem isSource_beside (names : Names path folders name idles) {extension : Text}
    (result : extension ∈ resultExtensions) : isSource (beside name extension) = false := by
  obtain ⟨-, pointless, -, other⟩ := resultExtensions_plain extension result
  unfold isSource
  rw [(names.withExtension extension result).self.extension?_eq, beside,
    splitExtension_append (stem_ne_nil names.ne_nil) pointless]
  exact other

/-- What stands beside a source under the name of a result is named like one. -/
theorem isResult_beside (names : Names path folders name idles) {extension : Text}
    (result : extension ∈ resultExtensions) : isResult (beside name extension) = true := by
  obtain ⟨-, pointless, -, -⟩ := resultExtensions_plain extension result
  unfold isResult
  rw [(names.withExtension extension result).self.extension?_eq, beside,
    splitExtension_append (stem_ne_nil names.ne_nil) pointless]
  exact List.contains_iff_mem.mpr result

/-- A path starts at the root if its first folder has no name. -/
theorem head?_iff (names : Names path folders name idles) :
    path.head? = some '/' ↔ folders.head? = some [] := by
  rw [Text.head?_eq_mark_iff, names.pieces]
  cases folders with
  | nil => simp [names.ne_nil]
  | cons folder others => cases others <;> simp

end Names

/-- The path of a source has a name. -/
theorem exists_names_of_isSource {path : Text} (source : isSource path = true) :
    ∃ folders name idles, Names path folders name idles := by
  cases split : splitName? path with
  | none => simp [isSource, extension?, split, Text.upper] at source
  | some parts =>
      obtain ⟨folders, idles, names, -⟩ := splitName?_eq_some_iff.mp split
      exact ⟨folders, parts.2, idles, names⟩

end Path

end Msp430
