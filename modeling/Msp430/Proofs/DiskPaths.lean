import Msp430.Proofs.DiskWrites
import Msp430.Proofs.ResultPaths

/-! # Following paths on a disk

Following a path looks for folders at the positions it passes (`Disk.passedBy`), and a file that is
made at one of them is all that a write can change about it (`Disk.Keeps.locate_eq`). A path that
leads somewhere passes folders only, and these are never replaced, so it leads there for good
(`Disk.Keeps.locate_eq_ok_iff`). On a disk where sources and results have no links and no further
names (`Disk.Unlinked`), a source ends at its own name, and its results stand beside it
(`Disk.Unlinked.locate_beside`).
-/

namespace Msp430

namespace Disk

/-! ### One piece of a path -/

section Enter

variable {disk later : Disk} {position : Position} {piece : Text}

/-- Entering looks at one position. -/
theorem enter_congr (same : Disk.entry? later position = disk.entry? position) :
    later.enter position piece = disk.enter position piece := by
  unfold enter
  rw [same]

/-- Only in a folder a piece can be looked up. -/
theorem folder_of_enter (entered : disk.enter position piece = .ok ()) :
    ∃ rights, disk.entry? position = some (.folder rights) := by
  unfold enter at entered
  rcases found : disk.entry? position with _ | ⟨rights | _ | _ | _⟩
  case some.folder => exact ⟨rights, rfl⟩
  all_goals
    rw [found] at entered
    cases entered

/-- All pieces with names can be looked up in the same folders. -/
theorem enter_of_enter {other : Text} (entered : disk.enter position piece = .ok ())
    (named : piece ≠ []) : disk.enter position other = .ok () := by
  obtain ⟨rights, folder⟩ := folder_of_enter entered
  unfold enter at entered ⊢
  rw [folder] at entered ⊢
  simp only [List.isEmpty_iff, if_neg named] at entered
  simp only [entered]
  exact ite_self _

namespace Keeps

theorem enter_eq_ok_iff (keeps : disk.Keeps later) :
    later.enter position piece = .ok () ↔ disk.enter position piece = .ok () := by
  constructor
  · intro entered
    obtain ⟨rights, folder⟩ := folder_of_enter entered
    rwa [enter_congr (folder.trans (keeps.folder_iff.mp folder).symm)] at entered
  · intro entered
    obtain ⟨rights, folder⟩ := folder_of_enter entered
    rwa [enter_congr ((keeps.folder_iff.mpr folder).trans folder.symm)]

/-- Writing puts up and takes away no links, so a piece leads where it led. -/
theorem turn_eq (keeps : disk.Keeps later) :
    later.turn position piece = disk.turn position piece := by
  unfold turn
  have links (target : Text) : Disk.entry? later (position ++ [piece]) = some (.link target) ↔
      disk.entry? (position ++ [piece]) = some (.link target) :=
    keeps.entry?_eq_some_iff fun _ _ => nofun
  split_ifs
  · rfl
  · rfl
  · split
    · next target link => rw [(links target).mp link]
    · next none =>
        split
        · next target link => exact absurd ((links target).mpr link) (none target)
        · rfl

/-- Further names keep their owners. -/
theorem owner_eq (keeps : disk.Keeps later) : later.owner position = disk.owner position := by
  have owners (owner : Position) : Disk.entry? later position = some (.shared owner) ↔
      disk.entry? position = some (.shared owner) :=
    keeps.entry?_eq_some_iff fun _ _ => nofun
  unfold owner
  split
  · next owner shared => rw [(owners owner).mp shared]
  · next none =>
      split
      · next owner shared => exact absurd ((owners owner).mpr shared) (none owner)
      · rfl

end Keeps

end Enter

/-! ### A whole path -/

/-- Following a path goes from piece to piece, or through a link with one link less to go. -/
@[elab_as_elim]
theorem follow_induction {disk : Disk} {motive : Nat → Position → List Text → Prop}
    (nil : ∀ links position, motive links position [])
    (cons : ∀ links position piece rest,
      (∀ next, disk.turn position piece = .onto next → motive links next rest) →
      (∀ fewer start pieces, disk.turn position piece = .through start pieces → links = fewer + 1 →
        motive fewer start (pieces ++ rest)) →
      motive links position (piece :: rest)) :
    ∀ links position pieces, motive links position pieces := by
  intro links
  induction links with
  | zero =>
      intro position pieces
      induction pieces generalizing position with
      | nil => exact nil 0 position
      | cons piece rest ih =>
          exact cons 0 position piece rest (fun next _ => ih next) fun fewer _ _ _ none =>
            absurd none (Nat.succ_ne_zero fewer).symm
  | succ links fewer =>
      intro position pieces
      induction pieces generalizing position with
      | nil => exact nil _ position
      | cons piece rest ih =>
          refine cons _ position piece rest (fun next _ => ih next) fun left start pieces _ same => ?_
          rw [← Nat.succ.inj same]
          exact fewer start (pieces ++ rest)

/-- What is followed behind a link. -/
def detour (disk : Disk) : Nat → Position → List Text → Except FileFault Position
  | 0 => fun _ _ => .error .tooManyLinks
  | links + 1 => disk.follow links

theorem follow_nil (disk : Disk) (links : Nat) (position : Position) :
    disk.follow links position [] = .ok position := by
  cases links <;> rfl

theorem follow_cons (disk : Disk) (links : Nat) (position : Position) (piece : Text)
    (rest : List Text) :
    disk.follow links position (piece :: rest) =
      match disk.enter position piece with
      | .error fault => .error fault
      | .ok () =>
        match disk.turn position piece with
        | .onto next => disk.follow links next rest
        | .through start pieces => disk.detour links start (pieces ++ rest) := by
  cases links <;>
    · simp only [follow, walk, detour, bind, Except.bind]
      cases disk.enter position piece with
      | error fault => rfl
      | ok _ => cases disk.turn position piece <;> rfl

/-- A path leads somewhere exactly if its first piece can be entered and the rest leads there,
behind a link with one link fewer. -/
theorem follow_cons_eq_ok_iff {disk : Disk} {links : Nat} {position target : Position}
    {piece : Text} {rest : List Text} :
    disk.follow links position (piece :: rest) = .ok target ↔
      disk.enter position piece = .ok () ∧
        ((∃ next, disk.turn position piece = .onto next ∧ disk.follow links next rest = .ok target) ∨
          ∃ fewer start pieces, disk.turn position piece = .through start pieces ∧
            links = fewer + 1 ∧ disk.follow fewer start (pieces ++ rest) = .ok target) := by
  rw [follow_cons]
  cases disk.enter position piece with
  | error fault => simp
  | ok _ =>
      cases disk.turn position piece with
      | onto next => simp
      | through start pieces => cases links <;> simp [detour]

/-- Walks the pieces of a path like `walk`, and collects the positions where it looks for a
folder. -/
def pass (disk : Disk) (behind : Position → List Text → List Position) (position : Position) :
    List Text → List Position
  | [] => []
  | piece :: rest =>
    position ::
      match disk.enter position piece, disk.turn position piece with
      | .error _, _ => []
      | .ok _, .onto next => disk.pass behind next rest
      | .ok _, .through start pieces => behind start (pieces ++ rest)

/-- The positions at which following the pieces of a path looks for a folder. -/
def passed (disk : Disk) : Nat → Position → List Text → List Position
  | 0 => disk.pass fun _ _ => []
  | links + 1 => disk.pass (disk.passed links)

/-- What is passed behind a link. -/
def passedBehind (disk : Disk) : Nat → Position → List Text → List Position
  | 0 => fun _ _ => []
  | links + 1 => disk.passed links

theorem passed_cons (disk : Disk) (links : Nat) (position : Position) (piece : Text)
    (rest : List Text) :
    disk.passed links position (piece :: rest) =
      position ::
        match disk.enter position piece, disk.turn position piece with
        | .error _, _ => []
        | .ok _, .onto next => disk.passed links next rest
        | .ok _, .through start pieces => disk.passedBehind links start (pieces ++ rest) := by
  cases links <;> rfl

/-- Where a path ends, it came through folders. -/
theorem folder_of_mem_passed {disk : Disk} {links : Nat} {position target : Position}
    {pieces : List Text} (found : disk.follow links position pieces = .ok target) :
    ∀ passed ∈ disk.passed links position pieces,
      ∃ rights, disk.entry? passed = some (.folder rights) := by
  induction links, position, pieces using disk.follow_induction with
  | nil links position =>
      cases links <;> exact nofun
  | cons links position piece rest onward behind =>
      obtain ⟨entered, further⟩ := follow_cons_eq_ok_iff.mp found
      rw [passed_cons, entered]
      refine List.forall_mem_cons.mpr ⟨folder_of_enter entered, ?_⟩
      rcases further with ⟨next, leads, ends⟩ | ⟨fewer, start, pieces, leads, rfl, ends⟩
      · rw [leads]
        exact onward next leads ends
      · rw [leads]
        exact behind fewer start pieces leads rfl ends

section Later

variable {disk later : Disk}

namespace Keeps

/-- The way along a path stays the same. -/
theorem passed_eq (keeps : disk.Keeps later) (links : Nat) (position : Position)
    (pieces : List Text) : later.passed links position pieces = disk.passed links position pieces := by
  induction links, position, pieces using disk.follow_induction with
  | nil links position => cases links <;> rfl
  | cons links position piece rest onward behind =>
      rw [passed_cons, passed_cons, keeps.turn_eq]
      cases before : disk.enter position piece with
      | error fault =>
          cases after : later.enter position piece with
          | error fault => rfl
          | ok _ =>
              rw [keeps.enter_eq_ok_iff.mp after] at before
              cases before
      | ok _ =>
          rw [keeps.enter_eq_ok_iff.mpr before]
          cases turn : disk.turn position piece with
          | onto next => exact congrArg _ (onward next turn)
          | through start pieces =>
              cases links with
              | zero => rfl
              | succ fewer => exact congrArg _ (behind fewer start pieces turn rfl)

/-- A path that leads somewhere leads there for good, and no other one comes to lead anywhere. -/
theorem follow_eq_ok_iff (keeps : disk.Keeps later) {links : Nat} {position target : Position}
    {pieces : List Text} :
    later.follow links position pieces = .ok target ↔
      disk.follow links position pieces = .ok target := by
  induction links, position, pieces using disk.follow_induction with
  | nil links position => rw [follow_nil, follow_nil]
  | cons links position piece rest onward behind =>
      rw [follow_cons_eq_ok_iff, follow_cons_eq_ok_iff, keeps.enter_eq_ok_iff, keeps.turn_eq]
      refine and_congr_right fun _ => or_congr (exists_congr fun next => ?_)
        (exists_congr fun fewer => exists_congr fun start => exists_congr fun pieces => ?_)
      · exact and_congr_right fun leads => onward next leads
      · exact and_congr_right fun leads => and_congr_right fun same =>
          behind fewer start pieces leads same

/-- Writing off its way leaves a path as it is, and the fault of one that leads nowhere. -/
theorem follow_eq (keeps : disk.Keeps later) {links : Nat} {position : Position}
    {pieces : List Text} (offPath : ∀ passed ∈ disk.passed links position pieces,
      Disk.entry? later passed = disk.entry? passed) :
    later.follow links position pieces = disk.follow links position pieces := by
  induction links, position, pieces using disk.follow_induction with
  | nil links position => rw [follow_nil, follow_nil]
  | cons links position piece rest onward behind =>
      rw [passed_cons] at offPath
      obtain ⟨here, further⟩ := List.forall_mem_cons.mp offPath
      rw [follow_cons, follow_cons, enter_congr here, keeps.turn_eq]
      cases entered : disk.enter position piece with
      | error fault => rfl
      | ok _ =>
          rw [entered] at further
          cases turn : disk.turn position piece with
          | onto next =>
              rw [turn] at further
              exact onward next turn further
          | through start pieces =>
              rw [turn] at further
              cases links with
              | zero => rfl
              | succ fewer => exact behind fewer start pieces turn rfl further

end Keeps

end Later

/-! ### Where a path ends -/

/-- The positions at which locating a path looks for a folder. -/
def passedBy (disk : Disk) (path : Text) : List Position :=
  disk.passed maxLinks (start disk.working path) (path.splitOn '/')

/-- A path names what owns the position where it ends. -/
theorem locate_eq_ok_iff {disk : Disk} {path : Text} {target : Position} :
    disk.locate path = .ok target ↔ ∃ position,
      disk.follow maxLinks (start disk.working path) (path.splitOn '/') = .ok position ∧
        disk.owner position = target := by
  unfold locate
  cases disk.follow maxLinks (start disk.working path) (path.splitOn '/') <;>
    simp [bind, Except.bind, pure, Except.pure]

/-- A text can be written at a path exactly if the path names a position where it can be written. -/
theorem place_eq_ok_iff {disk : Disk} {path : Text} {position : Position} :
    disk.place path = .ok position ↔
      disk.locate path = .ok position ∧ disk.mayWrite position = .ok () := by
  unfold place
  cases disk.locate path with
  | error fault => simp [bind, Except.bind]
  | ok target =>
      cases may : disk.mayWrite target with
      | error fault =>
          simp only [bind, Except.bind, may, reduceCtorEq, Except.ok.injEq, false_iff, not_and]
          rintro rfl
          simp [may]
      | ok _ =>
          simp only [bind, Except.bind, may, pure, Except.pure, Except.ok.injEq]
          exact ⟨fun same => ⟨same, same ▸ may⟩, And.left⟩

/-- On the way to what is found there are folders only. -/
theorem folder_of_mem_passedBy {disk : Disk} {path : Text} {target : Position}
    (found : disk.locate path = .ok target) :
    ∀ passed ∈ disk.passedBy path, ∃ rights, disk.entry? passed = some (.folder rights) := by
  obtain ⟨position, followed, -⟩ := locate_eq_ok_iff.mp found
  exact folder_of_mem_passed followed

/-- On the way to what is found no text can be written. -/
theorem notMem_passedBy_of_mayWrite {disk : Disk} {path : Text} {target position : Position}
    (found : disk.locate path = .ok target) (may : disk.mayWrite position = .ok ()) :
    position ∉ disk.passedBy path := by
  intro passed
  obtain ⟨rights, folder⟩ := folder_of_mem_passedBy found position passed
  rw [mayWrite, folder] at may
  cases may

namespace Keeps

variable {disk later : Disk} {path : Text}

theorem passedBy_eq (keeps : disk.Keeps later) : later.passedBy path = disk.passedBy path := by
  rw [passedBy, keeps.working, keeps.passed_eq, passedBy]

/-- **What a path names, it names for good.** -/
theorem locate_eq_ok_iff (keeps : disk.Keeps later) {target : Position} :
    later.locate path = .ok target ↔ disk.locate path = .ok target := by
  simp only [Disk.locate_eq_ok_iff, keeps.working, keeps.follow_eq_ok_iff, keeps.owner_eq]

/-- Where a text can be written at a path, it can be written for good. -/
theorem place_eq_ok_iff (keeps : disk.Keeps later) {target : Position} :
    later.place path = .ok target ↔ disk.place path = .ok target := by
  rw [Disk.place_eq_ok_iff, Disk.place_eq_ok_iff, keeps.locate_eq_ok_iff, keeps.mayWrite_eq]

section Clear

variable (clear : ∀ passed ∈ disk.passedBy path,
  Disk.entry? later passed = disk.entry? passed)

include clear

/-- **Writing off its way leaves what a path names,** and the fault of one that names nothing. -/
theorem locate_eq (keeps : disk.Keeps later) : later.locate path = disk.locate path := by
  unfold locate
  rw [keeps.working, keeps.follow_eq clear]
  simp only [keeps.owner_eq]

theorem place_eq (keeps : disk.Keeps later) : later.place path = disk.place path := by
  unfold place
  rw [keeps.locate_eq clear]
  simp only [keeps.mayWrite_eq]

/-- Writing neither on its way nor at its end leaves what is read at a path. -/
theorem read_eq (keeps : disk.Keeps later)
    (ending : ∀ position, disk.locate path = .ok position →
      Disk.entry? later position = disk.entry? position) : later.read path = disk.read path := by
  unfold read
  rw [keeps.locate_eq clear]
  cases found : disk.locate path with
  | error fault => rfl
  | ok position => simp only [bind, Except.bind, ending position found]

end Clear

end Keeps

/-! ### Disks without links to sources and results -/

/-- Whether what stands at a position is only another name of something. -/
def isAlias (disk : Disk) (position : Position) : Bool :=
  match disk.entry? position with
  | some (.link _) | some (.shared _) => true
  | _ => false

/-- Nothing with the name of a source, a listing or an object file is a link or a further name. -/
def Unlinked (disk : Disk) : Prop :=
  ∀ position name, position.getLast? = some name →
    Path.isSource name = true ∨ Path.isResult name = true → disk.isAlias position = false

/-- Whatever is only another name has an entry. -/
theorem exists_entry_of_isAlias {disk : Disk} {position : Position}
    (further : disk.isAlias position = true) : ∃ entry ∈ disk.entries, entry.1 = position := by
  cases found : disk.entries.lookup position with
  | some entry =>
      obtain ⟨front, rest, whole, -⟩ := List.lookup_eq_some_iff.mp found
      exact ⟨(position, entry), whole ▸ List.mem_append_right _ List.mem_cons_self, rfl⟩
  | none =>
      simp only [isAlias, entry?, found] at further
      split_ifs at further

instance (disk : Disk) : Decidable disk.Unlinked :=
  decidable_of_iff (∀ entry ∈ disk.entries, disk.isAlias entry.1 = true →
      ∀ name ∈ entry.1.getLast?, ¬ (Path.isSource name = true ∨ Path.isResult name = true)) <| by
    constructor
    · intro checked position name ends kind
      by_contra further
      rw [Bool.not_eq_false] at further
      obtain ⟨entry, member, rfl⟩ := exists_entry_of_isAlias further
      exact checked entry member further name ends kind
    · intro unlinked entry member further name ends kind
      rw [unlinked entry.1 name ends kind] at further
      cases further

/-- A name that is no link leads to its own position. -/
theorem turn_of_isAlias {disk : Disk} {position : Position} {piece : Text}
    (solid : Path.isIdle piece = false) (level : Path.isUpward piece = false)
    (plain : disk.isAlias (position ++ [piece]) = false) :
    disk.turn position piece = .onto (position ++ [piece]) := by
  unfold turn
  rw [solid, level, if_neg Bool.false_ne_true, if_neg Bool.false_ne_true]
  split
  · next target link =>
      rw [isAlias, link] at plain
      cases plain
  · rfl

theorem owner_of_isAlias {disk : Disk} {position : Position}
    (plain : disk.isAlias position = false) : disk.owner position = position := by
  unfold owner
  split
  · next owner shared =>
      rw [isAlias, shared] at plain
      cases plain
  · rfl

/-- The front of a path that leads somewhere leads to a place from where the rest can be followed, or
anything else. -/
theorem exists_follow_append {disk : Disk} {links : Nat} {position target : Position}
    {front rest : List Text} (found : disk.follow links position (front ++ rest) = .ok target) :
    ∃ left middle, disk.follow left middle rest = .ok target ∧
      ∀ other, disk.follow links position (front ++ other) = disk.follow left middle other := by
  induction links, position, front using disk.follow_induction with
  | nil links position => exact ⟨links, position, found, fun _ => rfl⟩
  | cons links position piece front onward behind =>
      rw [List.cons_append] at found
      obtain ⟨entered, further⟩ := follow_cons_eq_ok_iff.mp found
      rcases further with ⟨next, leads, ends⟩ | ⟨fewer, start, pieces, leads, rfl, ends⟩
      · obtain ⟨left, middle, last, same⟩ := onward next leads ends
        refine ⟨left, middle, last, fun other => ?_⟩
        rw [List.cons_append, follow_cons, entered, leads]
        exact same other
      · rw [← List.append_assoc] at ends
        obtain ⟨left, middle, last, same⟩ := behind fewer start pieces leads rfl ends
        refine ⟨left, middle, last, fun other => ?_⟩
        rw [List.cons_append, follow_cons, entered, leads, ← same other, List.append_assoc]
        rfl

/-- Idle pieces lead nowhere else. -/
theorem eq_of_follow_idles {disk : Disk} {links : Nat} {position target : Position}
    {idles : List Text} (idle : ∀ piece ∈ idles, Path.isIdle piece = true)
    (found : disk.follow links position idles = .ok target) : target = position := by
  induction idles with
  | nil =>
      rw [follow_nil] at found
      exact (Except.ok.inj found).symm
  | cons piece rest ih =>
      obtain ⟨here, later⟩ := List.forall_mem_cons.mp idle
      have stays : disk.turn position piece = .onto position := by rw [turn, if_pos here]
      obtain ⟨-, further⟩ := follow_cons_eq_ok_iff.mp found
      rw [stays] at further
      rcases further with ⟨next, leads, ends⟩ | ⟨fewer, start, pieces, leads, -⟩
      · obtain rfl := Turn.onto.inj leads
        exact ih later ends
      · cases leads

/-- The way to an entry of a folder that is no link is part of the way to, and through, any other. -/
theorem passed_concat_subset (disk : Disk) (links : Nat) (position : Position) (front : List Text)
    {last : Text} (plain : ∀ position, ∃ next, disk.turn position last = .onto next) (other : Text)
    (rest : List Text) :
    disk.passed links position (front ++ [last]) ⊆
      disk.passed links position (front ++ other :: rest) := by
  induction links, position, front using disk.follow_induction with
  | nil links position =>
      have short : disk.passed links position [last] = [position] := by
        obtain ⟨next, leads⟩ := plain position
        rw [passed_cons, leads]
        cases disk.enter position last <;> cases links <;> rfl
      rw [List.nil_append, List.nil_append, short, passed_cons]
      exact List.cons_subset.mpr ⟨List.mem_cons_self, List.nil_subset _⟩
  | cons links position piece front onward behind =>
      rw [List.cons_append, List.cons_append, passed_cons, passed_cons]
      refine List.cons_subset_cons _ ?_
      cases disk.enter position piece with
      | error fault => exact List.Subset.refl _
      | ok _ =>
          cases turn : disk.turn position piece with
          | onto next => exact onward next turn
          | through start pieces =>
              cases links with
              | zero => exact List.Subset.refl _
              | succ fewer =>
                  have further := behind fewer start pieces turn rfl
                  rwa [List.append_assoc, List.append_assoc] at further

namespace Unlinked

variable {disk : Disk} {path beside name other : Text} {folders idles : List Text}

theorem isAlias_concat (unlinked : disk.Unlinked)
    (kind : Path.isSource name = true ∨ Path.isResult name = true) (folder : Position) :
    disk.isAlias (folder ++ [name]) = false :=
  unlinked _ name List.getLast?_concat kind

/-- A source or a result that is found stands at its own name in some folder, and whatever else the
path could name behind its folders would be looked for there. -/
theorem exists_folder (unlinked : disk.Unlinked) (names : Path.Names path folders name idles)
    (kind : Path.isSource name = true ∨ Path.isResult name = true) {target : Position}
    (found : disk.locate path = .ok target) :
    ∃ left folder, target = folder ++ [name] ∧ disk.enter folder name = .ok () ∧
      ∀ other, disk.follow maxLinks (start disk.working path) (folders ++ other) =
        disk.follow left folder other := by
  obtain ⟨position, followed, owned⟩ := locate_eq_ok_iff.mp found
  rw [names.pieces] at followed
  obtain ⟨left, folder, further, same⟩ := exists_follow_append followed
  obtain ⟨entered, ending⟩ := follow_cons_eq_ok_iff.mp further
  have plain := unlinked.isAlias_concat kind folder
  rw [turn_of_isAlias names.solid names.level plain] at ending
  rcases ending with ⟨next, leads, idling⟩ | ⟨fewer, start, pieces, leads, -⟩
  · obtain rfl := Turn.onto.inj leads
    obtain rfl := eq_of_follow_idles names.idle idling
    exact ⟨left, folder, owned.symm.trans (owner_of_isAlias plain), entered, same⟩
  · cases leads

/-- A source or a result is found under its own name. -/
theorem getLast?_of_locate (unlinked : disk.Unlinked)
    (names : Path.Names path folders name idles)
    (kind : Path.isSource name = true ∨ Path.isResult name = true) {target : Position}
    (found : disk.locate path = .ok target) : target.getLast? = some name := by
  obtain ⟨-, folder, rfl, -⟩ := unlinked.exists_folder names kind found
  exact List.getLast?_concat

/-- Files beside each other are looked for from the same folder. -/
theorem start_eq (names : Path.Names path folders name idles)
    (near : Path.Names beside folders other []) (folder : Position) :
    start folder beside = start folder path := by
  unfold start
  simp only [near.head?_iff, names.head?_iff]

/-- **A file beside another is found in the same folder.** -/
theorem locate_beside (unlinked : disk.Unlinked) (names : Path.Names path folders name idles)
    (kind : Path.isSource name = true ∨ Path.isResult name = true)
    (near : Path.Names beside folders other [])
    (also : Path.isSource other = true ∨ Path.isResult other = true) {target : Position}
    (found : disk.locate path = .ok target) :
    disk.locate beside = .ok (target.dropLast ++ [other]) := by
  obtain ⟨left, folder, rfl, entered, same⟩ := unlinked.exists_folder names kind found
  have plain := unlinked.isAlias_concat also folder
  rw [List.dropLast_concat, locate_eq_ok_iff]
  refine ⟨folder ++ [other], ?_, owner_of_isAlias plain⟩
  rw [start_eq names near, near.pieces, same, follow_cons_eq_ok_iff]
  exact ⟨enter_of_enter entered names.ne_nil, .inl ⟨folder ++ [other],
    turn_of_isAlias near.solid near.level plain, follow_nil ..⟩⟩

/-- The way to a file beside another is part of the way to the other. -/
theorem passedBy_subset (unlinked : disk.Unlinked) (names : Path.Names path folders name idles)
    (near : Path.Names beside folders other [])
    (also : Path.isSource other = true ∨ Path.isResult other = true) :
    disk.passedBy beside ⊆ disk.passedBy path := by
  rw [passedBy, passedBy, start_eq names near, near.pieces, names.pieces]
  exact disk.passed_concat_subset _ _ folders (fun position => ⟨_,
    turn_of_isAlias near.solid near.level (unlinked.isAlias_concat also position)⟩) name idles

end Unlinked

end Disk

end Msp430
