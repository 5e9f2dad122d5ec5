import Mathlib.Data.List.Induction
import Msp430.Command.Storage

/-! # Writing on a disk

What writing changes, and what it leaves alone. A text is written where a file stands or
where one may be made, and whatever else stands on the disk stays (`Disk.Keeps`): the folders, the
links, the further names, and the rights of every file. So where a text may be written
(`Disk.Keeps.mayWrite_eq`) does not depend on what was written before. At every position there is
in the end what was written there last (`Disk.entry?_putAll_flatMap`).
-/

namespace Msp430

namespace Disk

/-! ### Entries -/

theorem entry?_put_self (disk : Disk) (position : Position) (entry : DiskEntry) :
    Disk.entry? (disk.put position entry) position = some entry := by
  simp [ entry?, put]

theorem entry?_put_of_ne (disk : Disk) {position other : Position} (apart : other ≠ position)
    (entry : DiskEntry) : Disk.entry? (disk.put position entry) other = disk.entry? other := by
  have kept (entries : List (Position × DiskEntry)) :
      (entries.filter (fun entry => entry.1 != position)).lookup other = entries.lookup other := by
    induction entries with
    | nil => rfl
    | cons first rest ih =>
        by_cases here : first.1 = position
        · have elsewhere : (other == first.1) = false := by simpa [here] using apart
          rw [List.filter_cons_of_neg (by simpa using here), ih, List.lookup_cons, elsewhere]
        · rw [List.filter_cons_of_pos (by simpa using here), List.lookup_cons, List.lookup_cons, ih]
  simp only [ entry?, put, List.lookup_cons, beq_eq_false_iff_ne.mpr apart, kept]

/-- Writing keeps the rights of every file, the written one included. -/
theorem rightsAt_putText (disk : Disk) (position other : Position) (text : Text) :
    (disk.putText position text).rightsAt other = disk.rightsAt other := by
  unfold putText
  by_cases same : other = position
  · subst same
    rw [rightsAt, entry?_put_self]
  · unfold rightsAt
    rw [entry?_put_of_ne _ same]

/-- Writing the same text leaves alike what was alike. -/
theorem entry?_putText_congr {disk other : Disk} {position elsewhere : Position}
    (rights : other.rightsAt position = disk.rightsAt position)
    (same : Disk.entry? other elsewhere = disk.entry? elsewhere) (text : Text) :
    Disk.entry? (other.putText position text) elsewhere =
      Disk.entry? (disk.putText position text) elsewhere := by
  unfold putText
  rw [rights]
  by_cases here : elsewhere = position
  · subst here
    rw [entry?_put_self, entry?_put_self]
  · rw [entry?_put_of_ne _ here, entry?_put_of_ne _ here, same]

/-- A text to be written and the position where it goes. -/
abbrev Write := Position × Text

/-- The disk after texts have been written, one after another. -/
def putAll (disk : Disk) (writes : List Write) : Disk :=
  writes.foldl (fun disk write => disk.putText write.1 write.2) disk

theorem putAll_cons (disk : Disk) (write : Write) (rest : List Write) :
    disk.putAll (write :: rest) = (disk.putText write.1 write.2).putAll rest :=
  rfl

theorem putAll_append (disk : Disk) (first later : List Write) :
    disk.putAll (first ++ later) = (disk.putAll first).putAll later :=
  List.foldl_append

/-- Writing any number of texts keeps the rights of every file. -/
theorem rightsAt_putAll (disk : Disk) (writes : List Write) (position : Position) :
    (disk.putAll writes).rightsAt position = disk.rightsAt position := by
  induction writes generalizing disk with
  | nil => rfl
  | cons write rest ih => rw [putAll_cons, ih, rightsAt_putText]

/-- Where nothing is written, nothing changes. -/
theorem entry?_putAll_of_notMem (disk : Disk) {position : Position} {writes : List Write}
    (unwritten : position ∉ writes.map Prod.fst) :
    Disk.entry? (disk.putAll writes) position = disk.entry? position := by
  induction writes generalizing disk with
  | nil => rfl
  | cons write rest ih =>
      obtain ⟨apart, later⟩ := not_or.mp (List.mem_cons.not.mp unwritten)
      rw [putAll_cons, ih _ later, putText, entry?_put_of_ne _ apart]

theorem entry?_putAll_of_forall_ne (disk : Disk) {position : Position} {writes : List Write}
    (elsewhere : ∀ write ∈ writes, write.1 ≠ position) :
    Disk.entry? (disk.putAll writes) position = disk.entry? position := by
  refine entry?_putAll_of_notMem disk fun targeted => ?_
  obtain ⟨write, inside, here⟩ := List.mem_map.mp targeted
  exact elsewhere write inside here

/-- The text that is written last at a position stands there. -/
theorem entry?_putAll_last (disk : Disk) (front : List Write) (position : Position) (text : Text)
    {rest : List Write} (last : position ∉ rest.map Prod.fst) :
    Disk.entry? (disk.putAll (front ++ (position, text) :: rest)) position =
      some (.file (disk.rightsAt position) (String.ofList text).toUTF8) := by
  rw [putAll_append, putAll_cons, entry?_putAll_of_notMem _ last, putText, entry?_put_self,
    rightsAt_putAll]

/-- Where something is written, one of the texts for that position is the last one. -/
theorem exists_last {position : Position} {writes : List Write}
    (written : position ∈ writes.map Prod.fst) :
    ∃ front text rest, writes = front ++ (position, text) :: rest ∧
      position ∉ rest.map Prod.fst := by
  induction writes with
  | nil => exact absurd written List.not_mem_nil
  | cons write rest ih =>
      by_cases later : position ∈ rest.map Prod.fst
      · obtain ⟨front, text, behind, whole, last⟩ := ih later
        exact ⟨write :: front, text, behind, congrArg _ whole, last⟩
      · have here : position = write.1 := (List.mem_cons.mp written).resolve_right later
        exact ⟨[], write.2, rest, by rw [here]; rfl, later⟩

/-- Of several lists of writes, the last one that has a position tells what is there. -/
theorem entry?_putAll_flatMap {α : Type} (disk : Disk) (writes : α → List Write) (items : List α)
    (position : Position) :
    Disk.entry? (disk.putAll (items.flatMap writes)) position =
      match items.reverse.find? fun item => decide (position ∈ (writes item).map Prod.fst) with
      | some item => Disk.entry? (disk.putAll (writes item)) position
      | none => disk.entry? position := by
  induction items using List.reverseRecOn with
  | nil => rfl
  | append_singleton items last ih =>
      -- The last item is the first one that the search meets.
      rw [List.flatMap_append, List.flatMap_singleton, putAll_append, List.reverse_concat,
        List.find?_cons]
      by_cases written : position ∈ (writes last).map Prod.fst
      · obtain ⟨front, text, rest, whole, ending⟩ := exists_last written
        rw [decide_eq_true written]
        dsimp only
        rw [whole, entry?_putAll_last _ _ _ _ ending, entry?_putAll_last _ _ _ _ ending,
          rightsAt_putAll]
      · rw [decide_eq_false written, entry?_putAll_of_notMem _ written, ih]

/-! ### What writing keeps -/

/-- A text can be written where a file stands or where one can be made, and nowhere else. -/
theorem mayWrite_eq_ok_iff {disk : Disk} {position : Position} :
    disk.mayWrite position = .ok () ↔
      (∃ rights content, disk.entry? position = some (.file rights content) ∧
        rights.write = .ok ()) ∨
      (disk.entry? position = none ∧ ∃ rights,
        disk.entry? position.dropLast = some (.folder rights) ∧ rights.write = .ok ()) := by
  unfold mayWrite
  cases disk.entry? position with
  | some entry => cases entry <;> simp [throw, throwThe, MonadExceptOf.throw]
  | none =>
      rcases disk.entry? position.dropLast with _ | ⟨_ | _ | _ | _⟩ <;>
        simp [throw, throwThe, MonadExceptOf.throw]

/-- A later state of a disk. Where it differs from the earlier one, a text has been written. -/
structure Keeps (disk later : Disk) : Prop where
  working : later.working = disk.working
  entries : ∀ position, Disk.entry? later position = disk.entry? position ∨
    disk.mayWrite position = .ok () ∧
      ∃ content, Disk.entry? later position = some (.file (disk.rightsAt position) content)

namespace Keeps

theorem refl (disk : Disk) : disk.Keeps disk :=
  ⟨rfl, fun _ => .inl rfl⟩

section Later

variable {disk later : Disk} {position : Position}

/-- Nothing but a file comes or goes. -/
theorem entry?_eq_some_iff (keeps : disk.Keeps later) {entry : DiskEntry}
    (special : ∀ rights content, entry ≠ .file rights content) :
    Disk.entry? later position = some entry ↔ disk.entry? position = some entry := by
  rcases keeps.entries position with same | ⟨may, content, now⟩
  · rw [same]
  · rw [now]
    constructor
    · intro found
      exact absurd (Option.some.inj found).symm (special _ _)
    · intro found
      rcases mayWrite_eq_ok_iff.mp may with ⟨rights, content, file, -⟩ | ⟨nothing, -⟩
      · exact absurd (Option.some.inj (found.symm.trans file)) (special _ _)
      · exact absurd (found.symm.trans nothing) (Option.some_ne_none _)

/-- Folders stay, with their rights. -/
theorem folder_iff (keeps : disk.Keeps later) {rights : Rights} :
    Disk.entry? later position = some (.folder rights) ↔
      disk.entry? position = some (.folder rights) :=
  keeps.entry?_eq_some_iff fun _ _ same => DiskEntry.noConfusion same

/-- Files keep their rights. -/
theorem rightsAt_eq (keeps : disk.Keeps later) (position : Position) :
    later.rightsAt position = disk.rightsAt position := by
  rcases keeps.entries position with same | ⟨-, content, now⟩
  · rw [rightsAt, rightsAt, same]
  · rw [rightsAt, now]

/-- **Where a text may be written stays the same,** and so does the fault where it may not. -/
theorem mayWrite_eq (keeps : disk.Keeps later) (position : Position) :
    later.mayWrite position = disk.mayWrite position := by
  rcases keeps.entries position with same | ⟨may, content, now⟩
  · unfold mayWrite
    rw [same]
    cases disk.entry? position with
    | some entry => cases entry <;> rfl
    | none =>
        -- A file that has come in the place of the folder is no folder either.
        rcases keeps.entries position.dropLast with around | ⟨vacant, content, file⟩
        · rw [around]
        · rw [file]
          rcases mayWrite_eq_ok_iff.mp vacant with ⟨rights, content, was, -⟩ | ⟨was, -⟩ <;> rw [was]
  · rw [may, mayWrite, now]
    unfold rightsAt
    rcases mayWrite_eq_ok_iff.mp may with ⟨rights, content, file, may⟩ | ⟨nothing, -⟩
    · rw [file]
      exact may
    · rw [nothing]
      rfl

/-- What is kept twice is kept. -/
theorem trans {last : Disk} (first : disk.Keeps later) (second : later.Keeps last) :
    disk.Keeps last where
  working := second.working.trans first.working
  entries position := by
    rcases second.entries position with same | ⟨may, content, now⟩
    · rw [same]
      exact first.entries position
    · rw [first.mayWrite_eq] at may
      rw [first.rightsAt_eq] at now
      exact .inr ⟨may, content, now⟩

end Later

/-- Writing where one may keeps the disk. -/
theorem putText {disk : Disk} {position : Position} (may : disk.mayWrite position = .ok ())
    (text : Text) : disk.Keeps (disk.putText position text) where
  working := rfl
  entries other := by
    unfold Disk.putText
    by_cases same : other = position
    · subst same
      exact .inr ⟨may, _, entry?_put_self ..⟩
    · exact .inl (entry?_put_of_ne _ same _)

/-- Writing texts where files may be written keeps the disk. -/
theorem putAll {disk : Disk} {writes : List Write}
    (may : ∀ write ∈ writes, disk.mayWrite write.1 = .ok ()) : disk.Keeps (disk.putAll writes) := by
  induction writes generalizing disk with
  | nil => exact refl disk
  | cons write rest ih =>
      obtain ⟨here, later⟩ := List.forall_mem_cons.mp may
      have first := putText here write.2
      exact first.trans (ih fun other member => (first.mayWrite_eq _).trans (later other member))

/-- Writing one text in both states leaves one a later state of the other. -/
theorem putText_both {disk later : Disk} (keeps : disk.Keeps later) {position : Position}
    (may : disk.mayWrite position = .ok ()) (text : Text) :
    (disk.putText position text).Keeps (later.putText position text) where
  working := keeps.working
  entries other := by
    rw [(putText may text).mayWrite_eq, rightsAt_putText]
    by_cases here : other = position
    · subst here
      unfold Disk.putText
      rw [entry?_put_self, entry?_put_self, keeps.rightsAt_eq]
      exact .inl rfl
    · unfold Disk.putText
      rw [entry?_put_of_ne _ here, entry?_put_of_ne _ here]
      exact keeps.entries other

end Keeps

end Disk

end Msp430
