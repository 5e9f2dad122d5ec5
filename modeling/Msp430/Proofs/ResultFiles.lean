import Msp430.Proofs.FileAssembly
import Msp430.Proofs.ListingBytes
import Msp430.Proofs.SpelledOptions

/-! # The results beside a source

What a session leaves beside its sources. Take a source that no result of the session overwrites and
that shares its own results with no other source (`Options.Unshared`). Whatever the files before it
wrote, it is read as it was at first, and every text that goes to the place of one of its results is
that result (`Session.Handled.eq_result_of_mem`). So the listing beside it is that of this session
(`Session.run_results`). Its object file is of this session if the source has no faults; else it is
left as it was, for a session removes nothing (`Session.object_left_over`).
-/

namespace Msp430

namespace Disk

/-- The content of the file that a path leads to, whether or not it may be read. -/
def content? (disk : Disk) (path : Text) : Option ByteArray :=
  match disk.locate path with
  | .error _ => none
  | .ok position =>
    match disk.entry? position with
    | some (.file _ content) => some content
    | _ => none

/-- Whether two ways of looking for a position find the same one. -/
def coincide : Except FileFault Position → Except FileFault Position → Bool
  | .ok first, .ok second => first == second
  | _, _ => false

theorem coincide_iff {first second : Except FileFault Position} :
    coincide first second = true ↔ ∃ position, first = .ok position ∧ second = .ok position := by
  cases first with
  | error fault => simp [coincide]
  | ok position =>
      cases second with
      | error fault => simp [coincide]
      | ok other =>
          simp only [coincide, beq_iff_eq, Except.ok.injEq]
          exact ⟨fun same => ⟨position, rfl, same.symm⟩, fun ⟨_, here, there⟩ => here.trans there.symm⟩

theorem content?_eq {disk : Disk} {path : Text} {position : Position}
    (found : disk.locate path = .ok position) :
    disk.content? path =
      match disk.entry? position with
      | some (.file _ content) => some content
      | _ => none := by
  rw [content?, found]

/-- A path has its content for good, unless the place where it ends is written. -/
theorem content?_congr {disk later : Disk} {path : Text} (keeps : disk.Keeps later)
    (unwritten : ∀ position, disk.locate path = .ok position → disk.mayWrite position = .ok () →
      Disk.entry? later position = disk.entry? position) :
    later.content? path = disk.content? path := by
  cases located : disk.locate path with
  | error fault =>
      cases located' : later.locate path with
      | error fault => rw [content?, content?, located, located']
      | ok position =>
          rw [keeps.locate_eq_ok_iff.mp located'] at located
          cases located
  | ok position =>
      rw [content?_eq (keeps.locate_eq_ok_iff.mpr located), content?_eq located]
      rcases keeps.entries position with same | ⟨may, -⟩
      · rw [same]
      · rw [unwritten position located may]

/-- A place where only one text is written, and that at least once, has that text. -/
theorem content?_putAll_of_mem {disk : Disk} {writes : List Write} {path text : Text}
    {position : Position} (keeps : disk.Keeps (disk.putAll writes))
    (placed : disk.place path = .ok position) (written : (position, text) ∈ writes)
    (only : ∀ write ∈ writes, write.1 = position → write.2 = text) :
    (disk.putAll writes).content? path = some (String.ofList text).toUTF8 := by
  have found := (place_eq_ok_iff.mp placed).1
  obtain ⟨front, last, rest, whole, ending⟩ := exists_last (List.mem_map.mpr ⟨_, written, rfl⟩)
  have same : last = text := only (position, last) (whole ▸ by simp) rfl
  rw [content?_eq (keeps.locate_eq_ok_iff.mpr found), whole,
    entry?_putAll_last disk front position last ending, same]

end Disk

namespace Options

/-- No result of a session goes to the source itself, and those that go to a result of the source are
the same result of the same source. -/
def Unshared (options : Options) (disk : Disk) (file : Text) : Prop :=
  ∀ other ∈ options.sources, ∀ extension ∈ Path.resultExtensions,
    let place := disk.place (Path.withExtension other extension)
    Disk.coincide place (disk.locate file) = false ∧
      ∀ own ∈ Path.resultExtensions,
        Disk.coincide place (disk.place (Path.withExtension file own)) = true →
          disk.locate other = disk.locate file ∧ extension = own

instance (options : Options) (disk : Disk) (file : Text) :
    Decidable (options.Unshared disk file) :=
  inferInstanceAs (Decidable (∀ other ∈ options.sources,
    ∀ extension ∈ Path.resultExtensions, _ ∧ ∀ own ∈ Path.resultExtensions, _ → _ ∧ _))

/-- **Where sources and results have no links and no further names, only sources elsewhere matter:**
the results of a source have names of their own, and go to two files. -/
theorem unshared_of_unlinked {options : Options} {disk : Disk} {file : Text}
    (unlinked : disk.Unlinked) (known : Path.isSource file = true) {target : Position}
    (found : disk.locate file = .ok target)
    (elsewhere : ∀ other ∈ options.sources, disk.locate other ≠ disk.locate file →
      ∀ extension ∈ Path.resultExtensions, ∀ own ∈ Path.resultExtensions,
        Disk.coincide (disk.place (Path.withExtension other extension))
          (disk.place (Path.withExtension file own)) = false) :
    options.Unshared disk file := by
  intro other member extension result place
  have also := (List.mem_filter.mp member).2
  obtain ⟨folders, name, idles, names⟩ := Path.exists_names_of_isSource known
  obtain ⟨folders', name', idles', names'⟩ := Path.exists_names_of_isSource also
  have kind : Path.isSource name = true := names.isSource_eq.trans known
  have kind' : Path.isSource name' = true := names'.isSource_eq.trans also
  have ends := unlinked.getLast?_of_locate names (.inl kind) found
  constructor
  · rw [Bool.eq_false_iff]
    intro same
    obtain ⟨position, placed, located⟩ := Disk.coincide_iff.mp same
    have last := unlinked.getLast?_of_locate (names'.withExtension extension result)
      (.inr (names'.isResult_beside result)) (Disk.place_eq_ok_iff.mp placed).1
    obtain rfl := Except.ok.inj (found.symm.trans located)
    rw [Option.some_inj.mp (ends.symm.trans last), names'.isSource_beside result] at kind
    cases kind
  · intro own result' same
    by_cases together : disk.locate other = disk.locate file
    · refine ⟨together, ?_⟩
      obtain ⟨position, placed, placed'⟩ := Disk.coincide_iff.mp same
      have found' := together.trans found
      have ends' := unlinked.getLast?_of_locate names' (.inl kind') found'
      have beside := unlinked.locate_beside names' (.inl kind')
        (names'.withExtension extension result) (.inr (names'.isResult_beside result)) found'
      have beside' := unlinked.locate_beside names (.inl kind)
        (names.withExtension own result') (.inr (names.isResult_beside result')) found
      rw [(Disk.place_eq_ok_iff.mp placed).1] at beside
      rw [(Disk.place_eq_ok_iff.mp placed').1, Except.ok.inj beside,
        Option.some_inj.mp (ends'.symm.trans ends)] at beside'
      simpa [Path.beside] using beside'
    · rw [elsewhere other member together extension result own result'] at same
      cases same

end Options

theorem Program.object?_of_faulty {program : Program} (faulty : program.faultCount ≠ 0) :
    program.object? = none := by
  obtain ⟨line, member, fault⟩ := List.countP_pos_iff.mp (Nat.pos_of_ne_zero faulty)
  rw [object?, if_pos (List.any_eq_true.mpr ⟨line, member, fault⟩)]

namespace Session

open Disk (Write View)

/-- A source of a command line that is read and whose results can be written. -/
structure Handled (options : Options) (disk : Disk) (file : Text) (source : List Text) :
    Prop where
  writing : options.writeFiles = true
  member : file ∈ options.sources
  readable : linesOf (disk.read file) = .ok source
  listed : ∃ position, disk.place (Path.listing file) = .ok position
  /-- A place for the object file is needed only if there is one. -/
  stored : (assemble options.origin source).faultCount = 0 →
    ∃ position, disk.place (Path.object file) = .ok position

namespace Handled

variable {options : Options} {disk later : Disk} {file : Text} {source : List Text}

theorem known (handled : Handled options disk file source) : Path.isSource file = true :=
  (List.mem_filter.mp handled.member).2

/-- The source is at a position where the session writes nothing. -/
theorem exists_target (handled : Handled options disk file source)
    (unshared : options.Unshared disk file) (reaches : Reaches options disk later) :
    ∃ target, disk.locate file = .ok target ∧ later.locate file = .ok target ∧
      Disk.entry? later target = disk.entry? target := by
  obtain ⟨target, found⟩ := exists_locate_of_linesOf handled.readable
  refine ⟨target, found, reaches.keeps.locate_eq_ok_iff.mpr found,
    reaches.changes target fun ⟨other, member, extension, result, placed⟩ => ?_⟩
  exact Bool.eq_false_iff.mp (unshared other member extension result).1
    (Disk.coincide_iff.mpr ⟨target, placed, found⟩)

/-- At every path to it the source is read as at first. -/
theorem read_eq (handled : Handled options disk file source)
    (unshared : options.Unshared disk file) (reaches : Reaches options disk later) {other : Text}
    (same : disk.locate other = disk.locate file) : later.read other = disk.read file := by
  obtain ⟨target, found, located, entry⟩ := handled.exists_target unshared reaches
  have also := reaches.keeps.locate_eq_ok_iff.mpr (same.trans found)
  unfold Disk.read
  rw [also, found]
  simp only [bind, Except.bind, entry]

/-- **Whatever a session writes to the place of a result of the source is that result.** -/
theorem eq_result_of_mem (handled : Handled options disk file source)
    (unshared : options.Unshared disk file) (reaches : Reaches options disk later) {other own : Text}
    (among : other ∈ options.files) (result : own ∈ Path.resultExtensions) {position : Position}
    (placed : disk.place (Path.withExtension file own) = .ok position) {write : Write}
    (inside : write ∈ written options later other) (here : write.1 = position) :
    (assemble options.origin source).result? own = some write.2 := by
  obtain ⟨lines, known, readable, -, extension, kind, target, text⟩ := mem_written inside
  have target' := reaches.keeps.place_eq_ok_iff.mp target
  rw [here] at target'
  obtain ⟨same, rfl⟩ := (unshared other (List.mem_filter.mpr ⟨among, known⟩) extension kind).2 own
    result (Disk.coincide_iff.mpr ⟨position, target', placed⟩)
  rw [handled.read_eq unshared reaches same, handled.readable] at readable
  rw [Except.ok.inj readable]
  exact text

/-- The results of the source are among what it writes, whenever its turn comes. -/
theorem mem_written_of_result? (handled : Handled options disk file source)
    (unshared : options.Unshared disk file) (reaches : Reaches options disk later) {own : Text}
    (result : own ∈ Path.resultExtensions) {position : Position}
    (placed : disk.place (Path.withExtension file own) = .ok position) {text : Text}
    (text? : (assemble options.origin source).result? own = some text) :
    (position, text) ∈ written options later file := by
  obtain ⟨listing, listed⟩ := handled.listed
  have whole : written options later file =
      results (assemble options.origin source) (later.view file) := by
    rw [written, if_pos handled.known, handled.read_eq unshared reaches rfl, handled.readable]
    exact if_pos handled.writing
  rw [whole]
  exact mem_results_of_result? (reaches.keeps.place_eq_ok_iff.mpr listed) result
    (reaches.keeps.place_eq_ok_iff.mpr placed) text?

section Run

variable {arguments : List Text} {own : Text} {position : Position}

/-- The session writes to the place of a result of the source nothing but that result, from whatever
stage the text comes. -/
theorem eq_result_of_mem_stages (handled : Handled options disk file source)
    (unshared : options.Unshared disk file) (result : own ∈ Path.resultExtensions)
    (placed : disk.place (Path.withExtension file own) = .ok position) :
    ∀ write ∈ (stages options disk options.files).flatMap
        fun stage => written options stage.2 stage.1, write.1 = position →
      (assemble options.origin source).result? own = some write.2 := by
  intro write inside here
  obtain ⟨stage, member, inside⟩ := List.mem_flatMap.mp inside
  obtain ⟨among, reaches⟩ := mem_stages member
  exact handled.eq_result_of_mem unshared reaches among result placed inside here

/-- A result of the program is there after the session. -/
theorem content?_run_of_some (handled : Handled options disk file source)
    (accepted : Options.read arguments = .ok options) (unshared : options.Unshared disk file)
    (result : own ∈ Path.resultExtensions)
    (placed : disk.place (Path.withExtension file own) = .ok position) {text : Text}
    (text? : (assemble options.origin source).result? own = some text) :
    Disk.content? ((run arguments : StateM Disk Outcome).run disk).2
      (Path.withExtension file own) = some (String.ofList text).toUTF8 := by
  have keeps := (reaches_run accepted disk).keeps
  rw [run_eq accepted, mapM_run_disk] at keeps ⊢
  have given : file ∈ (stages options disk options.files).map Prod.fst := by
    rw [map_fst_stages]
    exact (List.mem_filter.mp handled.member).1
  obtain ⟨stage, member, rfl⟩ := List.mem_map.mp given
  have reaches := (mem_stages member).2
  refine Disk.content?_putAll_of_mem keeps placed (List.mem_flatMap.mpr ⟨stage, member,
    handled.mem_written_of_result? unshared reaches result placed text?⟩) fun write inside here => ?_
  have only := handled.eq_result_of_mem_stages unshared result placed write inside here
  exact Option.some.inj (only.symm.trans text?)

/-- Where the program has no result, the session leaves what is there. -/
theorem content?_run_of_none (handled : Handled options disk file source)
    (accepted : Options.read arguments = .ok options) (unshared : options.Unshared disk file)
    (result : own ∈ Path.resultExtensions)
    (text? : (assemble options.origin source).result? own = none) :
    Disk.content? ((run arguments : StateM Disk Outcome).run disk).2
      (Path.withExtension file own) = disk.content? (Path.withExtension file own) := by
  have reaches := reaches_run accepted disk
  refine Disk.content?_congr reaches.keeps fun position located may => ?_
  have placed := Disk.place_eq_ok_iff.mpr ⟨located, may⟩
  rw [run_eq accepted, mapM_run_disk]
  refine Disk.entry?_putAll_of_forall_ne disk fun write inside here => ?_
  rw [handled.eq_result_of_mem_stages unshared result placed write inside here] at text?
  cases text?

end Run

end Handled

/-- **The results beside a source.** Let a source be read, its results be writable, no result of the
session go to the source itself, and no result but its own go to its results. The source is left as
it is, and the listing beside it is that of this session. If no line has a fault, the object file is
there and is that of this session. If a line has one, the object file is what it was before, so it
is there if and only if it was. -/
theorem run_results {arguments : List Text} {options : Options} {disk : Disk} {file : Text}
    {source : List Text} (accepted : Options.read arguments = .ok options)
    (handled : Handled options disk file source) (unshared : options.Unshared disk file) :
    let program := assemble options.origin source
    let final := ((run arguments : StateM Disk Outcome).run disk).2
    Disk.read final file = disk.read file ∧
      Disk.content? final (Path.listing file) = some (String.ofList program.listing).toUTF8 ∧
      (program.faultCount = 0 → ∃ object, program.object? = some object ∧
        Disk.content? final (Path.object file) = some (String.ofList object.render).toUTF8) ∧
      (program.faultCount ≠ 0 →
        Disk.content? final (Path.object file) = disk.content? (Path.object file)) ∧
      ((Disk.content? final (Path.object file)).isSome = true ↔
        program.faultCount = 0 ∨ (disk.content? (Path.object file)).isSome = true) := by
  intro program final
  have kept : Disk.read final file = disk.read file :=
    handled.read_eq unshared (reaches_run accepted disk) rfl
  obtain ⟨position, placed⟩ := handled.listed
  have listed : Disk.content? final (Path.listing file) =
      some (String.ofList program.listing).toUTF8 :=
    handled.content?_run_of_some accepted unshared (by decide) placed rfl
  refine ⟨kept, listed, ?_⟩
  by_cases clean : program.faultCount = 0
  · obtain ⟨position, placed⟩ := handled.stored clean
    have code : program.object? = some (ObjectFile.ofLines program.lines) :=
      Program.object?_of_faultCount clean
    have text? : program.result? "obj".toList =
        some (ObjectFile.ofLines program.lines).render := by
      rw [Program.result?, if_neg (by decide), code]
      rfl
    have stored : Disk.content? final (Path.object file) = _ :=
      handled.content?_run_of_some accepted unshared (by decide) placed text?
    refine ⟨fun _ => ⟨_, code, stored⟩, fun faulty => absurd clean faulty, ?_⟩
    rw [stored]
    exact ⟨fun _ => .inl clean, fun _ => rfl⟩
  · have text? : program.result? "obj".toList = none := by
      rw [Program.result?, if_neg (by decide), Program.object?_of_faulty clean]
      rfl
    have left : Disk.content? final (Path.object file) = disk.content? (Path.object file) :=
      handled.content?_run_of_none accepted unshared (by decide) text?
    refine ⟨fun none => absurd none clean, fun _ => left, ?_⟩
    rw [left]
    exact ⟨.inr, fun either => either.resolve_left clean⟩

/-- A source by two paths, one that is missing, and one with a fault beside an older object file,
whose listing is a link to a file that may not be read. -/
theorem run_results_beside_faulty :
    let options : Options := ⟨false, false, false, true, none,
      ["d/a.s43".toList, "c.s".toList, "b.asm".toList, "/w/d/./a.s43".toList]⟩
    let denied : FileFault := .other "Permission denied (os error 13)".toList
    let disk := (((((Disk.fresh ["w".toList]).makeFile ["w".toList, "d".toList, "a.s43".toList]
      "\tnop\n".toUTF8).makeFile ["w".toList, "b.asm".toList] "\tjunk\n".toUTF8).makeFile
      ["w".toList, "b.obj".toList] "older".toUTF8).put
      ["t".toList] (.file ⟨.ok (), .error denied, .ok ()⟩ ByteArray.empty)).put
      ["w".toList, "b.lst".toList] (.link "../t".toList)
    let final := ((run options.spell : StateM Disk Outcome).run disk).2
    Options.read options.spell = .ok options ∧
      (Handled options disk "d/a.s43".toList ["\tnop".toList] ∧
        options.Unshared disk "d/a.s43".toList ∧
        ∃ object, (assemble options.origin ["\tnop".toList]).object? = some object ∧
          Disk.content? final "d/a.obj".toList = some (String.ofList object.render).toUTF8) ∧
      Handled options disk "b.asm".toList ["\tjunk".toList] ∧
      options.Unshared disk "b.asm".toList ∧
      Disk.content? final "b.lst".toList =
        some (String.ofList (assemble options.origin ["\tjunk".toList]).listing).toUTF8 ∧
      Disk.content? final "b.obj".toList = some "older".toUTF8 := by
  intro options denied disk final
  have accepted : Options.read options.spell = .ok options := Options.read_spell (by decide)
  have clean : Handled options disk "d/a.s43".toList ["\tnop".toList] :=
    ⟨rfl, by decide +kernel, by decide +kernel,
      ⟨["w".toList, "d".toList, "a.lst".toList], by decide +kernel⟩,
      fun _ => ⟨["w".toList, "d".toList, "a.obj".toList], by decide +kernel⟩⟩
  have faulty : Handled options disk "b.asm".toList ["\tjunk".toList] :=
    ⟨rfl, by decide +kernel, by decide +kernel, ⟨["t".toList], by decide +kernel⟩,
      fun _ => ⟨["w".toList, "b.obj".toList], by decide +kernel⟩⟩
  have first : options.Unshared disk "d/a.s43".toList := by decide +kernel
  have second : options.Unshared disk "b.asm".toList := by decide +kernel
  obtain ⟨-, -, stored, -⟩ := run_results accepted clean first
  obtain ⟨-, listed, -, left, -⟩ := run_results accepted faulty second
  have older : disk.content? "b.obj".toList = some "older".toUTF8 := by decide +kernel
  exact ⟨accepted, ⟨clean, first, stored (by decide +kernel)⟩, faulty, second, listed,
    (left (by decide +kernel)).trans older⟩

/-- **An object file can be left over.** The source has a fault now, and beside it stands the object
file of an earlier session, for which the source was another. -/
theorem object_left_over :
    let arguments := ["-w".toList, "a.s43".toList]
    let options : Options := ⟨false, false, false, true, none, ["a.s43".toList]⟩
    let older := "MSP430 OBJECT V1\nFFFF0000 0200 2 0343\nFFFFFFFF 4303\n".toUTF8
    let disk := ((Disk.fresh ["w".toList]).makeFile ["w".toList, "a.s43".toList]
      "\tjunk\n".toUTF8).makeFile ["w".toList, "a.obj".toList] older
    let source := ["\tjunk".toList]
    let final := ((run arguments : StateM Disk Outcome).run disk).2
    Options.read arguments = .ok options ∧ Handled options disk "a.s43".toList source ∧
      options.Unshared disk "a.s43".toList ∧
      Disk.content? final (Path.object "a.s43".toList) = some older ∧
      ¬ ((∃ content, Disk.content? final (Path.object "a.s43".toList) = some content) ↔
        (assemble options.origin source).faultCount = 0) := by
  intro arguments options older disk source final
  have handled : Handled options disk "a.s43".toList source :=
    ⟨rfl, by decide +kernel, by decide +kernel,
      ⟨["w".toList, "a.lst".toList], by decide +kernel⟩,
      fun _ => ⟨["w".toList, "a.obj".toList], by decide +kernel⟩⟩
  have left : Disk.content? final (Path.object "a.s43".toList) = some older := by decide +kernel
  have faulty : (assemble options.origin source).faultCount ≠ 0 := by decide +kernel
  exact ⟨by decide +kernel, handled, by decide +kernel, left,
    fun same => faulty (same.mp ⟨older, left⟩)⟩

end Session

end Msp430
