import Msp430.Command.Session
import Msp430.Proofs.DiskPaths

/-! # Assembling a file on a disk

All that assembling a file sees of a disk is its source and the places of its results
(`Disk.View`); what it prints and what it writes depends on that view alone
(`Session.assembleFile_run`). It writes nothing but results, each to its place
(`Session.mem_written`). So a session over many files adds to the disk what each of them writes on the
disk that it finds, and that disk differs from the first one at places of results only
(`Session.mapM_run_disk`, `Session.Reaches`).
-/

namespace Msp430

/-- The result of a program that goes to the file with the given extension, if there is one. -/
def Program.result? (program : Program) (extension : Text) : Option Text :=
  if extension = "lst".toList then some program.listing
  else program.object?.map ObjectFile.render

namespace Disk

/-- What assembling a file sees of a disk. -/
structure View where
  /-- The content of the source. -/
  content : Except FileFault ByteArray
  /-- Where the listing goes. -/
  listing : Except FileFault Position
  /-- Where the object file goes once the listing has the given text. -/
  object : Text → Except FileFault Position

/-- The disk with a listing beside a source, if there is a place for it. -/
def afterListing (disk : Disk) (path text : Text) : Disk :=
  match disk.place (Path.listing path) with
  | .error _ => disk
  | .ok position => disk.putText position text

/-- What assembling the file at a path sees. -/
def view (disk : Disk) (path : Text) : View :=
  ⟨disk.read path, disk.place (Path.listing path),
    fun text => (disk.afterListing path text).place (Path.object path)⟩

/-- Writing the listing keeps the disk. -/
theorem keeps_afterListing (disk : Disk) (path text : Text) :
    disk.Keeps (disk.afterListing path text) := by
  unfold afterListing
  cases placed : disk.place (Path.listing path) with
  | error fault => exact Keeps.refl disk
  | ok position => exact Keeps.putText (place_eq_ok_iff.mp placed).2 text

end Disk

namespace Options

/-- The files that are sources. -/
def sources (options : Options) : List Text :=
  options.files.filter Path.isSource

/-- A position where a listing or an object file of a source would be written. -/
def IsResult (options : Options) (disk : Disk) (position : Position) : Prop :=
  ∃ source ∈ options.sources, ∃ extension ∈ Path.resultExtensions,
    disk.place (Path.withExtension source extension) = .ok position

end Options

namespace Session

open Disk (Write View)

/-! ### One file -/

theorem run_bind {α β : Type} (action : StateM Disk α) (next : α → StateM Disk β) (disk : Disk) :
    (action >>= next).run disk = (next (action.run disk).1).run (action.run disk).2 :=
  rfl

/-- Writing a file changes the disk if there is a place for it. -/
theorem write_run (disk : Disk) (path text : Text) :
    (Storage.write path text : StateM Disk (Except FileFault Unit)).run disk =
      match disk.place path with
      | .error fault => (.error fault, disk)
      | .ok position => (.ok (), disk.putText position text) := by
  simp only [Storage.write, Disk.write, StateT.run_bind, StateT.run_get, pure_bind]
  cases disk.place path <;> rfl

/-- The lines of a source with the given content. -/
def linesOf : Except FileFault ByteArray → Except FileFault (List Text)
  | .error fault => .error fault
  | .ok bytes =>
    match SourceFile.ofBytes? bytes with
    | none => .error .notText
    | some source => .ok source

/-- Reading a source leaves the disk. -/
theorem readSource_run (disk : Disk) (path : Text) :
    (readSource path : StateM Disk (Except FileFault (List Text))).run disk =
      (linesOf (disk.read path), disk) := by
  simp only [readSource, Storage.read, StateT.run_bind, StateT.run_get, pure_bind,
    StateT.run_pure]
  cases disk.read path with
  | error fault => rfl
  | ok bytes =>
      simp only [linesOf]
      cases SourceFile.ofBytes? bytes <;> rfl

/-- The results of a program, as far as there is a place for them. -/
def results (program : Program) (view : View) : List Write :=
  match view.listing with
  | .error _ => []
  | .ok listing =>
    (listing, program.listing) ::
      match program.object?, view.object program.listing with
      | some object, .ok position => [(position, object.render)]
      | _, _ => []

/-- What assembling a file writes. -/
def written (options : Options) (disk : Disk) (path : Text) : List Write :=
  if Path.isSource path then
    match linesOf (disk.read path) with
    | .error _ => []
    | .ok source =>
      if options.writeFiles then results (assemble options.origin source) (disk.view path) else []
  else []

/-- What assembling a file reports. -/
def report (options : Options) (disk : Disk) (path : Text) : Report :=
  ((assembleFile options path : StateM Disk Report).run disk).1

section View

variable {disk other : Disk} {path : Text}

/-- Writing the results looks at nothing but the places of the two files, the second one on the disk
with the listing. -/
theorem writeResults_run (seen : other.view path = disk.view path) (program : Program) :
    (writeResults path program : StateM Disk (Text × Option FileFault)).run other =
      (((writeResults path program : StateM Disk (Text × Option FileFault)).run disk).1,
        other.putAll (results program (disk.view path))) := by
  have listing : other.place (Path.listing path) = disk.place (Path.listing path) :=
    congrArg View.listing seen
  have object := congrFun (congrArg View.object seen) program.listing
  unfold writeResults results
  rw [run_bind, run_bind, write_run, write_run, listing]
  unfold Disk.view Disk.afterListing at object ⊢
  rw [listing] at object
  dsimp only at object ⊢
  cases placed : disk.place (Path.listing path) with
  | error fault => rfl
  | ok position =>
      cases program.object? with
      | none => rfl
      | some code =>
          -- The object file goes to a disk that has the listing already.
          rw [placed] at object
          dsimp only at object ⊢
          rw [run_bind, run_bind, write_run, write_run, object]
          cases (disk.putText position program.listing).place (Path.object path) <;> rfl

/-- Assembling a source adds its results to the disk if they are asked for. -/
theorem assembleSource_run (seen : other.view path = disk.view path) (options : Options)
    (lines : List Text) :
    (assembleSource options path lines : StateM Disk Report).run other =
      (((assembleSource options path lines : StateM Disk Report).run disk).1,
        other.putAll (if options.writeFiles then
          results (assemble options.origin lines) (disk.view path) else [])) := by
  unfold assembleSource
  by_cases writing : options.writeFiles = true
  · simp only [if_pos writing]
    rw [run_bind, run_bind, writeResults_run seen]
    dsimp only
    cases ((writeResults path (assemble options.origin lines) :
      StateM Disk (Text × Option FileFault)).run disk).1.2 <;> rfl
  · simp only [if_neg writing]
    rfl

/-- **Assembling a file depends on its view alone.** On disks that look the same to a file, its
assembly prints the same and writes the same. -/
theorem assembleFile_run (options : Options)
    (seen : Path.isSource path = true → other.view path = disk.view path) :
    (assembleFile options path : StateM Disk Report).run other =
      (report options disk path, other.putAll (written options disk path)) := by
  unfold report assembleFile written
  cases source : Path.isSource path with
  | false => rfl
  | true =>
      -- Only here does the file look at the disk, and there `seen` applies.
      have content : other.read path = disk.read path := congrArg View.content (seen source)
      rw [Bool.not_true, if_neg Bool.false_ne_true, if_pos rfl, run_bind, run_bind,
        readSource_run, readSource_run, content]
      cases linesOf (disk.read path) with
      | error fault => rfl
      | ok lines =>
          dsimp only
          rw [run_bind, run_bind, assembleSource_run (seen source)]
          rfl

end View

/-! ### What is written -/

section Written

variable {options : Options} {disk : Disk} {path : Text} {write : Write}

/-- Whatever is written is a result of the program and goes to its place. -/
theorem mem_results {program : Program} (member : write ∈ results program (disk.view path)) :
    ∃ extension ∈ Path.resultExtensions,
      disk.place (Path.withExtension path extension) = .ok write.1 ∧
        program.result? extension = some write.2 := by
  unfold results at member
  cases listing : (disk.view path).listing with
  | error fault =>
      rw [listing] at member
      cases member
  | ok position =>
      rw [listing] at member
      rcases List.mem_cons.mp member with rfl | later
      · exact ⟨"lst".toList, by decide, listing, rfl⟩
      · split at later
        · next object target code placed =>
            obtain rfl := List.mem_singleton.mp later
            refine ⟨"obj".toList, by decide,
              (disk.keeps_afterListing path program.listing).place_eq_ok_iff.mp placed, ?_⟩
            rw [Program.result?, if_neg (by decide), code]
            rfl
        · cases later

/-- If there is a place for the listing, every result with a place is written there. -/
theorem mem_results_of_result? {program : Program} {listing : Position}
    (listed : disk.place (Path.listing path) = .ok listing) {extension : Text}
    (result : extension ∈ Path.resultExtensions) {position : Position}
    (placed : disk.place (Path.withExtension path extension) = .ok position) {text : Text}
    (text? : program.result? extension = some text) :
    (position, text) ∈ results program (disk.view path) := by
  have first : (disk.view path).listing = .ok listing := listed
  unfold results
  rw [first]
  rcases List.mem_cons.mp result with rfl | last
  · obtain rfl := Except.ok.inj (listed.symm.trans placed)
    rw [Program.result?, if_pos rfl] at text?
    exact Option.some.inj text? ▸ List.mem_cons_self
  · obtain rfl := List.mem_singleton.mp last
    rw [Program.result?, if_neg (by decide)] at text?
    obtain ⟨object, code, rfl⟩ := Option.map_eq_some_iff.mp text?
    have second : (disk.view path).object program.listing = .ok position :=
      (disk.keeps_afterListing path program.listing).place_eq_ok_iff.mpr placed
    rw [code, second]
    exact List.mem_cons_of_mem _ List.mem_cons_self

/-- **Only sources that are read have results,** and each result goes to its place beside the
source. -/
theorem mem_written (member : write ∈ written options disk path) :
    ∃ source, Path.isSource path = true ∧ linesOf (disk.read path) = .ok source ∧
      options.writeFiles = true ∧ ∃ extension ∈ Path.resultExtensions,
        disk.place (Path.withExtension path extension) = .ok write.1 ∧
          (assemble options.origin source).result? extension = some write.2 := by
  unfold written at member
  by_cases known : Path.isSource path = true
  · rw [if_pos known] at member
    split at member
    · cases member
    · next source lines =>
        by_cases writing : options.writeFiles = true
        · rw [if_pos writing] at member
          exact ⟨source, known, lines, writing, mem_results member⟩
        · rw [if_neg writing] at member
          cases member
  · rw [if_neg known] at member
    cases member

/-- Results go where files may be written. -/
theorem mayWrite_of_mem_written (member : write ∈ written options disk path) :
    disk.mayWrite write.1 = .ok () := by
  obtain ⟨-, -, -, -, extension, -, placed, -⟩ := mem_written member
  exact (Disk.place_eq_ok_iff.mp placed).2

theorem keeps_written (options : Options) (disk : Disk) (path : Text) :
    disk.Keeps (disk.putAll (written options disk path)) :=
  Disk.Keeps.putAll fun _ => mayWrite_of_mem_written

/-- A source that has results is found. -/
theorem exists_locate_of_linesOf {source : List Text}
    (readable : linesOf (disk.read path) = .ok source) : ∃ target, disk.locate path = .ok target := by
  cases located : disk.locate path with
  | ok target => exact ⟨target, rfl⟩
  | error fault =>
      rw [Disk.read, located] at readable
      cases readable

end Written

/-! ### One file after another -/

/-- A disk that a session can find later on: texts have been written, all of them at places of
results. -/
structure Reaches (options : Options) (disk later : Disk) : Prop where
  keeps : disk.Keeps later
  changes : ∀ position, ¬ options.IsResult disk position →
    Disk.entry? later position = disk.entry? position

/-- The files of a session, each with the disk that it finds. -/
def stages (options : Options) (disk : Disk) : List Text → List (Text × Disk)
  | [] => []
  | file :: rest => (file, disk) :: stages options (disk.putAll (written options disk file)) rest

section Stages

variable {options : Options} {disk later : Disk}

theorem Reaches.refl (options : Options) (disk : Disk) : Reaches options disk disk :=
  ⟨Disk.Keeps.refl disk, fun _ _ => rfl⟩

/-- The results of a file lead from one disk of a session to the next. -/
theorem Reaches.putAll (reaches : Reaches options disk later) {file : Text}
    (member : file ∈ options.files) :
    Reaches options disk (later.putAll (written options later file)) where
  keeps := reaches.keeps.trans (keeps_written options later file)
  changes position other := by
    rw [← reaches.changes position other]
    refine Disk.entry?_putAll_of_forall_ne later ?_
    rintro write inside rfl
    refine other ?_
    obtain ⟨-, known, -, -, extension, result, placed, -⟩ := mem_written inside
    exact ⟨file, List.mem_filter.mpr ⟨member, known⟩, extension, result,
      reaches.keeps.place_eq_ok_iff.mp placed⟩

theorem map_fst_stages (options : Options) (disk : Disk) (files : List Text) :
    (stages options disk files).map Prod.fst = files := by
  induction files generalizing disk with
  | nil => rfl
  | cons file rest ih => rw [stages, List.map_cons, ih]

theorem reaches_of_mem_stages {files : List Text} (among : files ⊆ options.files)
    (reaches : Reaches options disk later) :
    ∀ stage ∈ stages options later files, Reaches options disk stage.2 := by
  induction files generalizing later with
  | nil => exact nofun
  | cons file rest ih =>
      obtain ⟨member, others⟩ := List.cons_subset.mp among
      exact List.forall_mem_cons.mpr ⟨reaches, ih others (reaches.putAll member)⟩

/-- Every file of a session finds a disk that differs from the first one at places of results only. -/
theorem mem_stages {stage : Text × Disk} (member : stage ∈ stages options disk options.files) :
    stage.1 ∈ options.files ∧ Reaches options disk stage.2 := by
  constructor
  · rw [← map_fst_stages options disk options.files]
    exact List.mem_map_of_mem member
  · exact reaches_of_mem_stages (List.Subset.refl _) (Reaches.refl options disk) stage member

/-- **A session adds to the disk what each of its files writes on the disk that it finds.** -/
theorem mapM_run_disk (options : Options) (disk : Disk) (files : List Text) :
    ((files.mapM (assembleFile options) : StateM Disk (List Report)).run disk).2 =
      disk.putAll ((stages options disk files).flatMap fun stage =>
        written options stage.2 stage.1) := by
  induction files generalizing disk with
  | nil => rfl
  | cons file rest ih =>
      rw [List.mapM_cons, run_bind, assembleFile_run options fun _ => rfl, run_bind, stages,
        List.flatMap_cons, Disk.putAll_append]
      exact ih _

/-- After any files of a session the disk differs from the first one at places of results only. -/
theorem reaches_mapM {files : List Text} (among : files ⊆ options.files)
    (reaches : Reaches options disk later) :
    Reaches options disk
      ((files.mapM (assembleFile options) : StateM Disk (List Report)).run later).2 := by
  induction files generalizing later with
  | nil => exact reaches
  | cons file rest ih =>
      obtain ⟨member, others⟩ := List.cons_subset.mp among
      rw [List.mapM_cons, run_bind, assembleFile_run options fun _ => rfl, run_bind]
      exact ih others (reaches.putAll member)

end Stages

/-! ### Whole sessions -/

/-- A session assembles its files one after another and counts the failures. -/
theorem run_eq {arguments : List Text} {options : Options}
    (accepted : Options.read arguments = .ok options) (disk : Disk) :
    (run arguments : StateM Disk Outcome).run disk =
      let reported :=
        (options.files.mapM (assembleFile options) : StateM Disk (List Report)).run disk
      (outcome reported.1, reported.2) := by
  unfold run
  rw [accepted]
  rfl

theorem run_single_eq {arguments : List Text} {options : Options} {file : Text}
    (accepted : Options.read arguments = .ok { options with files := [file] }) (disk : Disk) :
    (run arguments : StateM Disk Outcome).run disk =
      let reported := (assembleFile options file : StateM Disk Report).run disk
      (outcome [reported.1], reported.2) := by
  rw [run_eq accepted]
  rfl

/-- After a session the disk differs from the first one at places of results only. -/
theorem reaches_run {arguments : List Text} {options : Options}
    (accepted : Options.read arguments = .ok options) (disk : Disk) :
    Reaches options disk ((run arguments : StateM Disk Outcome).run disk).2 := by
  rw [run_eq accepted]
  exact reaches_mapM (List.Subset.refl _) (Reaches.refl options disk)

end Session

end Msp430
