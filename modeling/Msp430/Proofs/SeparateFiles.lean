import Msp430.Proofs.FileAssembly
import Msp430.Proofs.SpelledOptions

/-! # Files of one command line

Files on one command line do not affect each other as long as what each of them writes is hidden
from the others, and from itself (`Options.Apart`): it goes neither on the way of a source or of its
results, nor in the place of a source. Then every file finds the disk as it would find it alone
(`Session.view_putAll`), and so the session over all of them is made of the sessions over one each
(`Session.run_separately`). Where sources and results have no links and no further names, it is enough
that no source path runs through the results of another (`Options.apart_of_unlinked`). A listing
that is a link to a source breaks it (`Session.files_affect_each_other`).
-/

namespace Msp430

namespace Disk

/-- A text written at a position is not seen by the file at a path: it is neither on the way of the
file or of its results, nor in the place of the file. -/
structure Hidden (disk : Disk) (path : Text) (position : Position) : Prop where
  ways : ∀ way ∈ [path, Path.listing path, Path.object path], position ∉ disk.passedBy way
  ends : disk.locate path ≠ .ok position

instance (disk : Disk) (path : Text) (position : Position) :
    Decidable (disk.Hidden path position) :=
  decidable_of_iff
    ((∀ way ∈ [path, Path.listing path, Path.object path], position ∉ disk.passedBy way) ∧
      disk.locate path ≠ .ok position)
    ⟨fun both => ⟨both.1, both.2⟩, fun hidden => ⟨hidden.ways, hidden.ends⟩⟩

/-- Whether the way along a path comes through the position that another path names. -/
def runsThrough (disk : Disk) (path other : Text) : Bool :=
  match disk.locate other with
  | .error _ => false
  | .ok position => (disk.passedBy path).contains position

end Disk

namespace Options

/-- What the files of a command line write, each alone, is hidden from all of them. -/
def Apart (options : Options) (disk : Disk) : Prop :=
  ∀ source ∈ options.sources, ∀ other ∈ options.sources,
    ∀ write ∈ Session.written options disk other, disk.Hidden source write.1

instance (options : Options) (disk : Disk) : Decidable (options.Apart disk) :=
  inferInstanceAs (Decidable (∀ source ∈ options.sources, ∀ other ∈ options.sources,
    ∀ write ∈ Session.written options disk other, disk.Hidden source write.1))

/-- No source path runs through the listing or the object file of another. -/
def WaysApart (options : Options) (disk : Disk) : Prop :=
  ∀ source ∈ options.sources, ∀ other ∈ options.sources, other ≠ source →
    disk.runsThrough source (Path.listing other) = false ∧
      disk.runsThrough source (Path.object other) = false

instance (options : Options) (disk : Disk) : Decidable (options.WaysApart disk) :=
  inferInstanceAs (Decidable (∀ source ∈ options.sources, ∀ other ∈ options.sources,
    other ≠ source → _ ∧ _))

/-- Command lines that have the same options and one of the files each. -/
def Singles (options : Options) (alone : Text → List Text) : Prop :=
  ∀ file ∈ options.files, read (alone file) = .ok { options with files := [file] }

end Options

open Disk (Write)

/-! ### Disks without links to sources and results -/

section Unlinked

variable {options : Options} {disk : Disk} {path : Text} {target : Position}

/-- The place of a result has the name of a result. -/
theorem Disk.Unlinked.isResult_of_place (unlinked : disk.Unlinked)
    (known : Path.isSource path = true) {extension : Text}
    (result : extension ∈ Path.resultExtensions)
    (placed : disk.place (Path.withExtension path extension) = .ok target) :
    ∃ name, target.getLast? = some name ∧ Path.isSource name = false := by
  obtain ⟨folders, name, idles, names⟩ := Path.exists_names_of_isSource known
  exact ⟨_, unlinked.getLast?_of_locate (names.withExtension extension result)
    (.inr (names.isResult_beside result)) (Disk.place_eq_ok_iff.mp placed).1,
    names.isSource_beside result⟩

/-- A source stands at the name of a source. -/
theorem Disk.Unlinked.isSource_of_locate (unlinked : disk.Unlinked)
    (known : Path.isSource path = true) (found : disk.locate path = .ok target) :
    ∃ name, target.getLast? = some name ∧ Path.isSource name = true := by
  obtain ⟨folders, name, idles, names⟩ := Path.exists_names_of_isSource known
  exact ⟨name, unlinked.getLast?_of_locate names (.inl (names.isSource_eq.trans known)) found,
    names.isSource_eq.trans known⟩

/-- The ways to the results of a source are part of the way to the source. -/
theorem Disk.Unlinked.passedBy_result_subset (unlinked : disk.Unlinked)
    (known : Path.isSource path = true) :
    ∀ way ∈ [path, Path.listing path, Path.object path], disk.passedBy way ⊆ disk.passedBy path := by
  obtain ⟨folders, name, idles, names⟩ := Path.exists_names_of_isSource known
  have beside (extension : Text) (result : extension ∈ Path.resultExtensions) :
      disk.passedBy (Path.withExtension path extension) ⊆ disk.passedBy path :=
    unlinked.passedBy_subset names (names.withExtension extension result)
      (.inr (names.isResult_beside result))
  intro way member
  rcases List.mem_cons.mp member with rfl | member
  · exact List.Subset.refl _
  rcases List.mem_cons.mp member with rfl | member
  · exact beside "lst".toList (by decide)
  · rw [List.mem_singleton.mp member]
    exact beside "obj".toList (by decide)

/-- **Where sources and results have no links and no further names, nothing but the ways of the
sources matters.** -/
theorem Options.apart_of_unlinked (unlinked : disk.Unlinked) (apart : options.WaysApart disk) :
    options.Apart disk := by
  intro source member other among write inside
  have known := (List.mem_filter.mp member).2
  obtain ⟨lines, also, readable, -, extension, kind, placed, -⟩ := Session.mem_written inside
  obtain ⟨located, may⟩ := Disk.place_eq_ok_iff.mp placed
  constructor
  case ways =>
    intro way ways passed
    have through := unlinked.passedBy_result_subset known way ways passed
    by_cases same : other = source
    -- A source with results is found, so it has only folders on its way.
    · subst same
      obtain ⟨target, found⟩ := Session.exists_locate_of_linesOf readable
      exact Disk.notMem_passedBy_of_mayWrite found may through
    · obtain ⟨listing, object⟩ := apart source member other among same
      have avoided : disk.runsThrough source (Path.withExtension other extension) = false := by
        rcases List.mem_cons.mp kind with rfl | last
        · exact listing
        · rw [List.mem_singleton.mp last]
          exact object
      rw [Disk.runsThrough, located] at avoided
      exact List.contains_iff_mem.mpr.mt (Bool.eq_false_iff.mp avoided) through
  case ends =>
    intro found
    obtain ⟨name, ends, isSource⟩ := unlinked.isSource_of_locate known found
    obtain ⟨name', ends', other'⟩ := unlinked.isResult_of_place also kind placed
    rw [Option.some_inj.mp (ends.symm.trans ends'), other'] at isSource
    cases isSource

end Unlinked

namespace Session

/-! ### One file after others -/

section Apart

variable {options : Options} {disk : Disk} {file : Text}

/-- Writes that each belong to a file of the command line, as the disk was at first. -/
def Foreseen (options : Options) (disk : Disk) (writes : List Write) : Prop :=
  ∀ write ∈ writes, ∃ other ∈ options.files, write ∈ written options disk other

theorem Foreseen.keeps {writes : List Write} (foreseen : Foreseen options disk writes) :
    disk.Keeps (disk.putAll writes) :=
  Disk.Keeps.putAll fun write inside =>
    have ⟨_, _, result⟩ := foreseen write inside
    mayWrite_of_mem_written result

theorem Foreseen.append {writes : List Write} (foreseen : Foreseen options disk writes)
    (member : file ∈ options.files) :
    Foreseen options disk (writes ++ written options disk file) := by
  intro write inside
  rcases List.mem_append.mp inside with before | now
  · exact foreseen write before
  · exact ⟨file, member, now⟩

theorem Foreseen.hidden (apart : options.Apart disk) (member : file ∈ options.sources)
    {writes : List Write} (foreseen : Foreseen options disk writes) :
    ∀ write ∈ writes, disk.Hidden file write.1 := by
  intro write inside
  obtain ⟨other, among, result⟩ := foreseen write inside
  obtain ⟨-, known, -⟩ := mem_written result
  exact apart file member other (List.mem_filter.mpr ⟨among, known⟩) write result

/-- Where a source is, and on its ways, nothing changes. -/
theorem Foreseen.entry?_putAll (apart : options.Apart disk) (member : file ∈ options.sources)
    {writes : List Write} (foreseen : Foreseen options disk writes) :
    (∀ way ∈ [file, Path.listing file, Path.object file], ∀ passed ∈ disk.passedBy way,
      Disk.entry? (disk.putAll writes) passed = disk.entry? passed) ∧
    ∀ position, disk.locate file = .ok position →
      Disk.entry? (disk.putAll writes) position = disk.entry? position := by
  have hidden := Foreseen.hidden apart member foreseen
  constructor
  · intro way ways passed through
    refine Disk.entry?_putAll_of_forall_ne disk ?_
    rintro write inside rfl
    exact (hidden write inside).ways way ways through
  · intro position found
    refine Disk.entry?_putAll_of_forall_ne disk ?_
    rintro write inside rfl
    exact (hidden write inside).ends found

/-- **The results of the files of a command line are invisible to them.** -/
theorem view_putAll (apart : options.Apart disk) (member : file ∈ options.sources)
    {writes : List Write} (foreseen : Foreseen options disk writes) :
    (disk.putAll writes).view file = disk.view file := by
  obtain ⟨ways, ending⟩ := Foreseen.entry?_putAll apart member foreseen
  have keeps := foreseen.keeps
  have content := keeps.read_eq (ways file (by simp)) ending
  have listing := keeps.place_eq (ways (Path.listing file) (by simp))
  have clear := ways (Path.object file) (by simp)
  have object (text : Text) : ((disk.putAll writes).afterListing file text).place
      (Path.object file) = (disk.afterListing file text).place (Path.object file) := by
    unfold Disk.afterListing
    rw [listing]
    cases placed : disk.place (Path.listing file) with
    | error fault => exact keeps.place_eq clear
    | ok position =>
        -- The same listing is written on both disks, which stay alike on the way of the object file.
        have may := (Disk.place_eq_ok_iff.mp placed).2
        refine (keeps.putText_both may text).place_eq fun passed through => ?_
        rw [(Disk.Keeps.putText may text).passedBy_eq] at through
        exact Disk.entry?_putText_congr (keeps.rightsAt_eq position) (clear passed through) text
  unfold Disk.view
  rw [content, listing]
  exact congrArg _ (funext object)

/-- **One file after others.** It prints what it prints first, and its results are added. -/
theorem assembleFile_putAll (apart : options.Apart disk) (member : file ∈ options.files)
    {writes : List Write} (foreseen : Foreseen options disk writes) :
    (assembleFile options file : StateM Disk Report).run (disk.putAll writes) =
      (report options disk file, disk.putAll (writes ++ written options disk file)) := by
  rw [assembleFile_run options fun known =>
    view_putAll apart (List.mem_filter.mpr ⟨member, known⟩) foreseen, Disk.putAll_append]

/-- The files of a command line, after some of them. -/
theorem mapM_run (apart : options.Apart disk) {files : List Text} (among : files ⊆ options.files)
    {writes : List Write} (foreseen : Foreseen options disk writes) :
    (files.mapM (assembleFile options) : StateM Disk (List Report)).run (disk.putAll writes) =
      (files.map (report options disk),
        disk.putAll (writes ++ files.flatMap (written options disk))) := by
  induction files generalizing writes with
  | nil =>
      rw [List.flatMap_nil, List.append_nil]
      rfl
  | cons file rest ih =>
      obtain ⟨member, later⟩ := List.cons_subset.mp among
      rw [List.mapM_cons, run_bind, assembleFile_putAll apart member foreseen, run_bind,
        ih later (foreseen.append member), List.flatMap_cons, List.append_assoc]
      rfl

end Apart

/-! ### Whole sessions -/

theorem output_outcome (reports : List Report) :
    (outcome reports).output = reports.flatMap Report.text := by
  unfold outcome
  dsimp only
  split_ifs <;> rfl

theorem status_outcome_eq_one_iff (reports : List Report) :
    (outcome reports).status = 1 ↔ ∃ report ∈ reports, report.succeeded = false := by
  unfold outcome
  dsimp only
  split_ifs with none <;> simpa [List.countP_eq_zero] using none

theorem errors_outcome {reports : List Report} (failed : (outcome reports).status = 1) :
    (outcome reports).errors =
      Message.failures (reports.countP fun report => !report.succeeded) := by
  unfold outcome at failed ⊢
  dsimp only at failed ⊢
  split_ifs at failed ⊢ with none
  rfl

/-- How a session over several files relates to the sessions over one of them each. -/
structure Separate (options : Options) (disk : Disk) (sole : Text → Disk → Outcome × Disk)
    (whole : Outcome × Disk) : Prop where
  /-- The output is what the files print alone, in their order. -/
  output : whole.1.output = options.files.flatMap fun file => (sole file disk).1.output
  /-- A file alone prints its report, and fails if and only if that is not one of success. -/
  single : ∀ file ∈ options.files, (sole file disk).1.output = (report options disk file).text ∧
    ((sole file disk).1.status = 1 ↔ (report options disk file).succeeded = false)
  /-- The session fails if and only if a file fails alone. -/
  status : whole.1.status = 1 ↔ ∃ file ∈ options.files, (sole file disk).1.status = 1
  /-- A session that fails tells how many files fail alone. -/
  errors : whole.1.status = 1 → whole.1.errors =
    Message.failures (options.files.countP fun file => (sole file disk).1.status == 1)
  /-- The disk is left as by the sessions over one file each, one after another. -/
  successive : whole.2 = options.files.foldl (fun disk file => (sole file disk).2) disk
  /-- What a file leaves alone is what it writes, and that goes where files may be written. -/
  alone : ∀ file ∈ options.files,
    (sole file disk).2 = disk.putAll (written options disk file) ∧
      ∀ write ∈ written options disk file, disk.mayWrite write.1 = .ok ()
  /-- At every position there is what the last file leaves alone that writes there. -/
  pathwise : ∀ position, Disk.entry? whole.2 position =
    match options.files.reverse.find? fun file =>
      decide (position ∈ (written options disk file).map Prod.fst) with
    | some file => Disk.entry? (sole file disk).2 position
    | none => disk.entry? position
  /-- No source is overwritten, and every source is read in the end as it was at first. -/
  sources : ∀ source ∈ options.sources, Disk.read whole.2 source = disk.read source ∧
    ∀ position, disk.locate source = .ok position →
      Disk.entry? whole.2 position = disk.entry? position

section Whole

variable {options : Options} {disk : Disk} {alone : Text → List Text}

/-- The session over one file, after some others. -/
theorem run_single_putAll (apart : options.Apart disk) (singles : options.Singles alone)
    {file : Text} (member : file ∈ options.files) {writes : List Write}
    (foreseen : Foreseen options disk writes) :
    (run (alone file) : StateM Disk Outcome).run (disk.putAll writes) =
      (outcome [report options disk file],
        disk.putAll (writes ++ written options disk file)) := by
  rw [run_single_eq (singles file member), assembleFile_putAll apart member foreseen]

theorem foldl_run_single (apart : options.Apart disk) (singles : options.Singles alone)
    {files : List Text} (among : files ⊆ options.files) {writes : List Write}
    (foreseen : Foreseen options disk writes) :
    files.foldl (fun disk file => ((run (alone file) : StateM Disk Outcome).run disk).2)
        (disk.putAll writes) =
      disk.putAll (writes ++ files.flatMap (written options disk)) := by
  induction files generalizing writes with
  | nil => rw [List.foldl_nil, List.flatMap_nil, List.append_nil]
  | cons file rest ih =>
      obtain ⟨member, later⟩ := List.cons_subset.mp among
      rw [List.foldl_cons, run_single_putAll apart singles member foreseen,
        ih later (foreseen.append member), List.flatMap_cons, List.append_assoc]

theorem run_putAll {arguments : List Text} (accepted : Options.read arguments = .ok options)
    (apart : options.Apart disk) :
    (run arguments : StateM Disk Outcome).run disk =
      (outcome (options.files.map (report options disk)),
        disk.putAll (options.files.flatMap (written options disk))) := by
  have nothing : Foreseen options disk [] := nofun
  rw [run_eq accepted]
  exact congrArg (fun reported => (outcome reported.1, reported.2))
    (mapM_run apart (List.Subset.refl _) nothing)

theorem separate_run {arguments : List Text} (accepted : Options.read arguments = .ok options)
    (apart : options.Apart disk) (singles : options.Singles alone) :
    Separate options disk (fun file => (run (alone file) : StateM Disk Outcome).run)
      ((run arguments : StateM Disk Outcome).run disk) := by
  have nothing : Foreseen options disk [] := nofun
  have sole (file : Text) (member : file ∈ options.files) :
      (run (alone file) : StateM Disk Outcome).run disk =
        (outcome [report options disk file], disk.putAll (written options disk file)) :=
    run_single_putAll apart singles member nothing
  have failed (file : Text) (member : file ∈ options.files) :
      ((run (alone file) : StateM Disk Outcome).run disk).1.status = 1 ↔
        (report options disk file).succeeded = false := by
    simp [sole file member, status_outcome_eq_one_iff]
  have foreseen : Foreseen options disk (options.files.flatMap (written options disk)) :=
    fun write inside => List.mem_flatMap.mp inside
  rw [run_putAll accepted apart]
  constructor
  case output =>
    rw [output_outcome, List.flatMap_map]
    refine List.flatMap_congr fun file member => ?_
    simp [sole file member, output_outcome]
  case single =>
    intro file member
    refine ⟨?_, failed file member⟩
    simp [sole file member, output_outcome]
  case status =>
    simp only [status_outcome_eq_one_iff, List.mem_map, exists_exists_and_eq_and]
    exact exists_congr fun file => and_congr_right fun member => (failed file member).symm
  case errors =>
    intro status
    rw [errors_outcome status, List.countP_map]
    refine congrArg Message.failures (List.countP_congr fun file member => ?_)
    simp [failed file member]
  case successive =>
    exact (foldl_run_single apart singles (List.Subset.refl _) nothing).symm
  case alone =>
    intro file member
    exact ⟨congrArg Prod.snd (sole file member), fun write => mayWrite_of_mem_written⟩
  case pathwise =>
    intro position
    rw [Disk.entry?_putAll_flatMap]
    split
    · next file found =>
        have member := List.mem_reverse.mp (List.mem_of_find?_eq_some found)
        rw [found]
        dsimp only
        rw [sole file member]
    · next none => rw [none]
  case sources =>
    intro source member
    obtain ⟨ways, ending⟩ := Foreseen.entry?_putAll apart member foreseen
    exact ⟨foreseen.keeps.read_eq (ways source (by simp)) ending, ending⟩

/-- Whatever a session changes is the place of a result. -/
theorem isResult_of_entry?_run_ne (arguments : List Text) (disk : Disk) {position : Position}
    (changed : Disk.entry? ((run arguments : StateM Disk Outcome).run disk).2 position ≠
      disk.entry? position) :
    ∃ options, Options.read arguments = .ok options ∧ options.IsResult disk position := by
  cases accepted : Options.read arguments with
  | error ending =>
      unfold run at changed
      rw [accepted] at changed
      exact absurd rfl changed
  | ok options =>
      refine ⟨options, rfl, ?_⟩
      by_contra other
      exact changed ((reaches_run accepted disk).changes position other)

/-- Where sources and results have no links and no further names, no source is overwritten. -/
theorem entry?_run_of_unlinked (arguments : List Text) (unlinked : disk.Unlinked)
    {position : Position} {name : Text} (ends : position.getLast? = some name)
    (isSource : Path.isSource name = true) :
    Disk.entry? ((run arguments : StateM Disk Outcome).run disk).2 position =
      disk.entry? position := by
  by_contra changed
  obtain ⟨options, -, source, member, extension, result, placed⟩ :=
    isResult_of_entry?_run_ne arguments disk changed
  obtain ⟨name', ends', other⟩ :=
    unlinked.isResult_of_place (List.mem_filter.mp member).2 result placed
  rw [Option.some_inj.mp (ends.symm.trans ends'), other] at isSource
  cases isSource

end Whole

/-- **Files on one command line do not affect each other.** A session changes nothing but places of
results. Where sources and results have no links and no further names, these are never places of
sources, and the results of the files are hidden from all of them if no source path runs through the
results of another. Wherever they are hidden, the session over all the files prints, reports and
writes what the sessions over one file each do, on the same disk and with the same options, and
leaves the sources. -/
theorem run_separately (arguments : List Text) (disk : Disk) :
    (∀ position, Disk.entry? ((run arguments : StateM Disk Outcome).run disk).2 position ≠
        disk.entry? position →
      ∃ options, Options.read arguments = .ok options ∧ options.IsResult disk position) ∧
    (disk.Unlinked → ∀ position name, position.getLast? = some name →
      Path.isSource name = true →
        Disk.entry? ((run arguments : StateM Disk Outcome).run disk).2 position =
          disk.entry? position) ∧
    ∀ options, Options.read arguments = .ok options →
      (disk.Unlinked → options.WaysApart disk → options.Apart disk) ∧
      (options.Apart disk → (∃ alone, options.Singles alone) ∧ ∀ alone, options.Singles alone →
        Separate options disk (fun file => (run (alone file) : StateM Disk Outcome).run)
          ((run arguments : StateM Disk Outcome).run disk)) := by
  refine ⟨fun position => isResult_of_entry?_run_ne arguments disk,
    fun unlinked position name => entry?_run_of_unlinked arguments unlinked,
    fun options accepted => ⟨Options.apart_of_unlinked, fun apart =>
      ⟨⟨fun file => { options with files := [file] }.spell, fun file _ => ?_⟩,
        fun alone singles => separate_run accepted apart singles⟩⟩⟩
  exact Options.read_spell (by simp)

/-- One file by several paths, one that is missing, one that may not be read, and a wrong one in a
folder that is named like a listing; then a file and a link to it. -/
theorem run_separately_repeated :
    let options : Options := ⟨true, false, false, true, some 0x4400, ["a.s43".toList,
      "b.lst/../a.s43".toList, "/l/a.s43".toList, "../w/c.asm".toList, "b.lst/d.s".toList,
      "e.s".toList, "a.s43".toList]⟩
    let denied : FileFault := .other "Permission denied (os error 13)".toList
    let disk := ((((Disk.fresh ["w".toList]).makeFile ["w".toList, "a.s43".toList]
      "\tnop\n".toUTF8).makeFile ["w".toList, "b.lst".toList, "d.s".toList] "\tjunk\n".toUTF8).put
      ["w".toList, "e.s".toList] (.file ⟨.ok (), .error denied, .ok ()⟩ ByteArray.empty)).put
      ["l".toList] (.link "w".toList)
    let alone := fun file : Text => { options with files := [file] }.spell
    let final := ((run options.spell : StateM Disk Outcome).run disk).2
    let linked : Options := ⟨false, true, false, true, none, ["a.s43".toList, "x.s".toList]⟩
    let other := disk.put ["w".toList, "x.s".toList] (.link "../l/a.s43".toList)
    let alone' := fun file : Text => { linked with files := [file] }.spell
    (Options.read options.spell = .ok options ∧ disk.Unlinked ∧ options.WaysApart disk ∧
      options.Singles alone ∧
      Separate options disk (fun file => (run (alone file) : StateM Disk Outcome).run)
        ((run options.spell : StateM Disk Outcome).run disk)) ∧
    Disk.entry? final ["w".toList, "a.s43".toList] =
      Disk.entry? disk ["w".toList, "a.s43".toList] ∧
    ((Disk.entry? final ["w".toList, "a.lst".toList]).isSome = true ∧
      (Disk.entry? disk ["w".toList, "a.lst".toList]).isNone = true ∧
      ∃ asked, Options.read options.spell = .ok asked ∧
        asked.IsResult disk ["w".toList, "a.lst".toList]) ∧
    (Options.read linked.spell = .ok linked ∧ linked.Apart other ∧ linked.Singles alone' ∧
      Separate linked other (fun file => (run (alone' file) : StateM Disk Outcome).run)
        ((run linked.spell : StateM Disk Outcome).run other)) := by
  intro options denied disk alone final linked other alone'
  have accepted : Options.read options.spell = .ok options := Options.read_spell (by decide)
  have unlinked : disk.Unlinked := by decide +kernel
  have ways : options.WaysApart disk := by decide +kernel
  have singles : options.Singles alone := fun file _ => Options.read_spell (by simp)
  have accepted' : Options.read linked.spell = .ok linked := Options.read_spell (by decide)
  have apart' : linked.Apart other := by decide +kernel
  have singles' : linked.Singles alone' := fun file _ => Options.read_spell (by simp)
  have now : (Disk.entry? final ["w".toList, "a.lst".toList]).isSome = true := by decide +kernel
  have before : (Disk.entry? disk ["w".toList, "a.lst".toList]).isNone = true := by decide +kernel
  obtain ⟨changes, kept, separate⟩ := run_separately options.spell disk
  obtain ⟨enough, whole⟩ := separate options accepted
  refine ⟨⟨accepted, unlinked, ways, singles, (whole (enough unlinked ways)).2 alone singles⟩,
    kept unlinked _ "a.s43".toList rfl (by decide), ⟨now, before, changes _ fun same => ?_⟩,
    accepted', apart', singles',
    (((run_separately linked.spell other).2.2 linked accepted').2 apart').2 alone' singles'⟩
  rw [same, Option.isNone_iff_eq_none.mp before] at now
  cases now

/-- **Files of one command line can affect each other.** No source path runs through the results of
another file, but the listing of the first one is a link to the second one, which is overwritten and
then has faults. And without any link, a path can run through the listing of its own file in another
spelling: as soon as that is written, the path leads through a file. -/
theorem files_affect_each_other :
    let nop := "\tnop\n".toUTF8
    let output := fun arguments disk => ((run arguments : StateM Disk Outcome).run disk).1.output
    let writing := fun files : List Text => "-w".toList :: files
    (let files := ["a.s43".toList, "b.s43".toList]
      let options : Options := ⟨false, false, false, true, none, files⟩
      let disk := (((Disk.fresh ["w".toList]).makeFile ["w".toList, "a.s43".toList] nop).makeFile
        ["w".toList, "b.s43".toList] nop).put ["w".toList, "a.lst".toList] (.link "b.s43".toList)
      Options.read (writing files) = .ok options ∧ options.WaysApart disk ∧
        disk.read "b.s43".toList = .ok nop ∧
        Disk.read ((run (writing files) : StateM Disk Outcome).run disk).2 "b.s43".toList ≠
          .ok nop ∧
        output (writing files) disk ≠ files.flatMap fun file => output (writing [file]) disk) ∧
    (let files := ["a.s43".toList, "d/../a.lst/../a.s43".toList]
      let options : Options := ⟨false, false, false, true, none, files⟩
      let disk := ((Disk.fresh ["w".toList]).makeFile ["w".toList, "a.s43".toList] nop).makeFolder
        ["w".toList, "d".toList]
      Options.read (writing files) = .ok options ∧
        (∀ source ∈ files, ∀ other ∈ files, ∀ extension ∈ Path.resultExtensions,
          ¬ (Path.withExtension other extension).splitOn '/' <+: source.splitOn '/') ∧
        output (writing files) disk ≠ files.flatMap fun file => output (writing [file]) disk) := by
  intro nop output writing
  constructor
  · exact ⟨by decide +kernel, by decide +kernel, by decide +kernel, by decide +kernel,
      by decide +kernel⟩
  · exact ⟨by decide +kernel, by decide +kernel, by decide +kernel⟩

end Session

end Msp430
