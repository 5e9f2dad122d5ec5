import Msp430.Proofs.OnePass

/-! # Addresses and stored bytes

The first pass counts addresses in words that wrap around; the object file counts
nothing and only strings bytes together. For a program without faults the two
agree (`assemble_object`): the segments are the runs of bytes between origins
(`byteRuns`), and each line's bytes lie in its segment where its address says.

The addresses of the lines follow each other by size (`Follows`), and every
field of a finished line has as many bytes as its size says, so the open run and
the location counter advance together (`exists_openRun`).
-/

namespace Msp430

/-! ### Runs of bytes -/

namespace Line

/-- The bytes that a line stores. -/
def bytes (line : Line) : List Byte :=
  match line.content with
  | .code fields => fields.flatMap Field.bytes
  | _ => []

end Line

/-- The bytes in front of the first origin, and the run of bytes that each origin opens. -/
def cutAtOrigins : List Line → List Byte × List Segment
  | [] => ([], [])
  | line :: rest =>
    match line.content with
    | .origin address => ([], ⟨address, (cutAtOrigins rest).1⟩ :: (cutAtOrigins rest).2)
    | _ => (line.bytes ++ (cutAtOrigins rest).1, (cutAtOrigins rest).2)

/-- The runs of bytes between consecutive origins. The first one starts at the given address and
every later one at the address of its origin; a run may be empty. -/
def byteRuns (origin : Word) (lines : List Line) : List Segment :=
  ⟨origin, (cutAtOrigins lines).1⟩ :: (cutAtOrigins lines).2

/-- The runs that store something. -/
def storedRuns (runs : List Segment) : List Segment :=
  runs.filter fun run => !run.bytes.isEmpty

/-- An origin ends the open run. -/
theorem cutAtOrigins_cons_origin {line : Line} {address : Word}
    (content : line.content = .origin address) (rest : List Line) :
    cutAtOrigins (line :: rest) = ([], byteRuns address rest) := by
  simp only [cutAtOrigins, content, byteRuns]

/-- Every other line adds its bytes to the open run. -/
theorem cutAtOrigins_cons {line : Line} (content : ∀ address, line.content ≠ .origin address)
    (rest : List Line) :
    cutAtOrigins (line :: rest) =
      (line.bytes ++ (cutAtOrigins rest).1, (cutAtOrigins rest).2) := by
  cases kind : line.content with
  | origin address => exact (content address kind).elim
  | _ => simp only [cutAtOrigins, kind]

namespace ObjectFile

theorem add_of_origin {line : Line} {address : Word} (content : line.content = .origin address)
    (object : ObjectFile) : object.add line = object.org address := by
  simp only [add, content]

/-- A line that is no origin leaves the closed segments alone and extends the open one. -/
theorem add_eq {line : Line} (content : ∀ address, line.content ≠ .origin address)
    (object : ObjectFile) :
    (object.add line).segments = object.segments ∧
      (object.add line).current =
        ⟨object.current.address, object.current.bytes ++ line.bytes⟩ := by
  cases kind : line.content with
  | origin address => exact (content address kind).elim
  | code fields => simp only [add, kind, Line.bytes, emitAll, and_self]
  | _ => simp only [add, kind, Line.bytes, List.append_nil, and_self]

theorem segments_org (object : ObjectFile) (address : Word) :
    (object.org address).segments = object.segments ++ storedRuns [object.current] := by
  unfold org storedRuns
  cases empty : object.current.bytes with
  | nil => simp [empty]
  | cons byte rest => simp [empty]

/-- Collecting lines and closing the last segment yields the stored runs, the open segment being
the first of them. -/
theorem segments_foldl_add (lines : List Line) (object : ObjectFile) :
    ((lines.foldl add object).org 0).segments =
      object.segments ++ storedRuns
        (⟨object.current.address, object.current.bytes ++ (cutAtOrigins lines).1⟩ ::
          (cutAtOrigins lines).2) := by
  induction lines generalizing object with
  | nil =>
      simp only [List.foldl_nil, segments_org, cutAtOrigins, List.append_nil]
  | cons line rest ih =>
      rw [List.foldl_cons, ih]
      by_cases kind : ∃ address, line.content = .origin address
      · obtain ⟨address, content⟩ := kind
        rw [cutAtOrigins_cons_origin content, add_of_origin content, segments_org,
          List.append_assoc, List.append_nil]
        exact congrArg _ (List.filter_append _ _).symm
      · have content : ∀ address, line.content ≠ .origin address :=
          fun address same => kind ⟨address, same⟩
        obtain ⟨segments, current⟩ := object.add_eq content
        rw [cutAtOrigins_cons content, segments, current, List.append_assoc]

end ObjectFile

/-! ### Addresses of the first pass -/

/-- The address of a line with the given content, if the location counter stands as given. -/
def Content.start (counter : Word) : Content → Word
  | .origin address => address
  | _ => counter

/-- Lines whose addresses follow each other: each one starts where the counter stands, or at its
origin, and moves the counter by its size. -/
def Follows (counter : Word) : List Line → Prop
  | [] => True
  | line :: rest =>
    line.address = line.content.start counter ∧ Follows (line.address + line.content.size) rest

namespace Layout

/-- A line without a fault is placed at the counter, or at its origin. -/
theorem step_address {layout : Layout} {number : Nat} {source : Text}
    (clean : (layout.step number source).2.isFault = false) :
    (layout.step number source).2.address =
      (layout.step number source).2.content.start layout.counter := by
  obtain ⟨statement, placed, _, placement, address, _⟩ := step_placement clean
  rw [address]
  generalize (layout.step number source).2.content = content at placement
  cases placement with
  | blank => rfl
  | comment => rfl
  | label accepted => exact counter_of_label accepted
  | constant evaluation defined =>
      obtain ⟨symbols, _, done⟩ := bind_eq_ok_iff.mp defined
      cases done
      rfl
  | origin evaluation accepted => exact counter_of_label accepted
  | data accepted produced => exact counter_of_label accepted
  | instruction accepted produced => exact counter_of_label accepted

theorem follows_steps (layout : Layout) (number : Nat) (source : List Text)
    (clean : ∀ line ∈ (layout.steps number source).2, line.isFault = false) :
    Follows layout.counter (layout.steps number source).2 := by
  induction source generalizing layout number with
  | nil => trivial
  | cons text rest ih =>
      refine ⟨step_address (clean _ List.mem_cons_self), ?_⟩
      exact ih (layout.step number text).1 (number + 1) fun line member =>
        clean line (List.mem_cons_of_mem _ member)

end Layout

/-! ### Sizes and bytes of finished lines -/

/-- A completed field has its size and waits for nothing. -/
theorem Settlement.completeField_ready {resolver : Resolver} {field resolved : Field}
    (completed : completeField resolver field = .ok resolved) :
    resolved.isPending = false ∧ resolved.size = field.size := by
  unfold completeField at completed
  split at completed
  case isTrue => exact ⟨Field.isPending_of_resolve completed, Field.size_of_resolve completed⟩
  case isFalse ready =>
    cases completed
    exact ⟨by simpa using ready, rfl⟩

/-- The number of bytes of fields that wait for nothing is their size, modulo 65536. -/
theorem ofNat_length_flatMap_bytes {fields : List Field}
    (ready : ∀ field ∈ fields, field.isPending = false) :
    BitVec.ofNat 16 (fields.flatMap Field.bytes).length = Content.size (.code fields) := by
  induction fields with
  | nil => rfl
  | cons field rest ih =>
      have restSize := ih fun other member => ready other (List.mem_cons_of_mem _ member)
      have fieldSize := Field.length_bytes (ready field List.mem_cons_self)
      change _ = field.size + Content.size (.code rest)
      rw [List.flatMap_cons, List.length_append, BitVec.ofNat_add, restSize, fieldSize,
        BitVec.ofNat_toNat, BitVec.setWidth_eq]

theorem size_code_of_forall₂ {first second : List Field}
    (same : List.Forall₂ (fun field resolved => resolved.size = field.size) first second) :
    Content.size (.code second) = Content.size (.code first) := by
  induction same with
  | nil => rfl
  | cons head _ ih =>
      change _ + Content.size (.code _) = _ + Content.size (.code _)
      rw [head, ih]

/-- A finished line without a fault starts where it started, has the size that it had, and stores
as many bytes as its size says. -/
theorem Line.finished_layout {line : Line} {table : SymbolTable}
    (clean : (line.finished table).isFault = false) :
    (∀ counter, (line.finished table).content.start counter = line.content.start counter) ∧
      (line.finished table).content.size = line.content.size ∧
      BitVec.ofNat 16 (line.finished table).bytes.length = (line.finished table).content.size := by
  rcases Line.finished_cases clean with ⟨same, noCode⟩ | ⟨name, value, word, before, after⟩ |
    ⟨fields, resolved, before, completed, after⟩
  · refine ⟨fun counter => by rw [same], by rw [same], ?_⟩
    cases content : line.content with
    | code fields => exact (noCode fields content).elim
    | _ => rw [Line.bytes, same, content]; rfl
  · rw [before, Line.bytes, after]
    exact ⟨fun counter => rfl, rfl, rfl⟩
  · have pointwise := mapM_eq_ok_iff.mp completed
    have sizes : Content.size (.code resolved) = Content.size (.code fields) :=
      size_code_of_forall₂ (pointwise.imp fun field final done =>
        (Settlement.completeField_ready done).2)
    have ready : ∀ field ∈ resolved, field.isPending = false := by
      intro field member
      obtain ⟨index, bound, rfl⟩ := List.mem_iff_getElem.mp member
      have inBoth := pointwise.length_eq
      exact (Settlement.completeField_ready (pointwise.get (inBoth ▸ bound) bound)).1
    rw [before, Line.bytes, after]
    exact ⟨fun counter => rfl, sizes, ofNat_length_flatMap_bytes ready⟩

theorem follows_map_finished {table : SymbolTable} {lines : List Line} {counter : Word}
    (clean : ∀ line ∈ lines, (line.finished table).isFault = false)
    (follows : Follows counter lines) : Follows counter (lines.map (Line.finished table)) := by
  induction lines generalizing counter with
  | nil => trivial
  | cons line rest ih =>
      obtain ⟨address, restFollows⟩ := follows
      obtain ⟨start, size, _⟩ := Line.finished_layout (clean line List.mem_cons_self)
      refine ⟨?_, ?_⟩
      · rw [start]
        exact address
      · rw [size]
        exact ih (fun other member => clean other (List.mem_cons_of_mem _ member)) restFollows

/-! ### The open run -/

/-- **The counter and the open run advance together.** When the bytes of some lines have been
collected, the run that is open ends where the counter stands. The induction is on the lines, with
the start and the bytes of the open run as they are before them. -/
theorem exists_openRun {address : Word} {filled : List Byte} {before : List Line} {line : Line}
    {after : List Line}
    (follows : Follows (address + BitVec.ofNat 16 filled.length) (before ++ line :: after))
    (sized : ∀ other ∈ before, BitVec.ofNat 16 other.bytes.length = other.content.size)
    (content : ∀ origin, line.content ≠ .origin origin) :
    ∃ closed run,
      ⟨address, filled ++ (cutAtOrigins before).1⟩ :: (cutAtOrigins before).2 = closed ++ [run] ∧
      run.address + BitVec.ofNat 16 run.bytes.length = line.address ∧
      ∀ rest, ⟨address, filled ++ (cutAtOrigins (before ++ rest)).1⟩ ::
          (cutAtOrigins (before ++ rest)).2 =
        closed ++ ⟨run.address, run.bytes ++ (cutAtOrigins rest).1⟩ :: (cutAtOrigins rest).2 := by
  induction before generalizing address filled with
  | nil =>
      refine ⟨[], ⟨address, filled⟩, ?_, ?_, fun rest => rfl⟩
      · simp only [cutAtOrigins, List.append_nil, List.nil_append]
      · have start : line.content.start (address + BitVec.ofNat 16 filled.length) =
            address + BitVec.ofNat 16 filled.length := by
          cases kind : line.content with
          | origin origin => exact (content origin kind).elim
          | _ => rfl
        exact (follows.1.trans start).symm
  | cons first before ih =>
      obtain ⟨start, follows⟩ := follows
      have exactRest : ∀ other ∈ before,
          BitVec.ofNat 16 other.bytes.length = other.content.size :=
        fun other member => sized other (List.mem_cons_of_mem _ member)
      by_cases kind : ∃ next, first.content = .origin next
      · obtain ⟨next, opens⟩ := kind
        rw [opens] at start follows
        have moved : Follows (next + BitVec.ofNat 16 ([] : List Byte).length)
            (before ++ line :: after) := by
          rw [show next = first.address from start.symm]
          exact follows
        obtain ⟨closed, run, split, ends, extended⟩ := ih moved exactRest
        refine ⟨⟨address, filled⟩ :: closed, run, ?_, ends, ?_⟩
        · rw [cutAtOrigins_cons_origin opens, List.append_nil, byteRuns]
          exact congrArg _ split
        · intro rest
          rw [List.cons_append, cutAtOrigins_cons_origin opens, List.append_nil, byteRuns]
          exact congrArg _ (extended rest)
      · have stays : ∀ next, first.content ≠ .origin next := fun next same => kind ⟨next, same⟩
        have sameStart : first.address = address + BitVec.ofNat 16 filled.length := by
          apply start.trans
          cases content : first.content with
          | origin next => exact (stays next content).elim
          | _ => rfl
        have moved : Follows (address + BitVec.ofNat 16 (filled ++ first.bytes).length)
            (before ++ line :: after) := by
          rw [List.length_append, BitVec.ofNat_add, ← BitVec.add_assoc, ← sameStart,
            sized first List.mem_cons_self]
          exact follows
        obtain ⟨closed, run, split, ends, extended⟩ := ih moved exactRest
        refine ⟨closed, run, ?_, ends, ?_⟩
        · rw [cutAtOrigins_cons stays, ← List.append_assoc]
          exact split
        · intro rest
          rw [List.cons_append, cutAtOrigins_cons stays, ← List.append_assoc]
          exact extended rest

/-! ### Labels -/

/-- The label that a statement defines at its address, if it has one. -/
def Statement.label? : Statement → Option Text
  | .label name => some name
  | .data label? _ _ | .origin label? _ | .instruction label? _ _ => label?
  | .blank | .comment | .constant _ _ => none

namespace Layout

theorem find?_of_label {layout labelled : Layout} {name : Text} {number : Nat}
    (accepted : layout.label (some name) number = .ok labelled) :
    labelled.symbols.find? name = some ⟨name, some labelled.counter, number⟩ := by
  rcases label_eq_ok_iff.mp accepted with ⟨⟨⟩, _⟩ | ⟨_, symbols, ⟨⟩, defined, rfl⟩
  exact SymbolTable.find?_of_define_self defined

/-- The label of a line without a fault is a symbol of the line, with its address as value. -/
theorem find?_step_of_label? {layout : Layout} {number : Nat} {source name : Text}
    {statement : Statement} (classified : Statement.classify source = .ok statement)
    (labelled : statement.label? = some name)
    (clean : (layout.step number source).2.isFault = false) :
    (layout.step number source).1.symbols.find? name =
      some ⟨name, some (layout.step number source).2.address, number⟩ := by
  obtain ⟨statement, placed, same, placement, address, symbols⟩ := step_placement clean
  rw [classified] at same
  cases same
  rw [address, symbols]
  generalize (layout.step number source).2.content = content at placement
  cases placement with
  | blank => cases labelled
  | comment => cases labelled
  | constant evaluation defined => cases labelled
  | label accepted =>
      cases labelled
      exact find?_of_label accepted
  | origin evaluation accepted =>
      cases labelled
      exact find?_of_label accepted
  | data accepted produced =>
      cases labelled
      exact find?_of_label accepted
  | instruction accepted produced =>
      cases labelled
      exact find?_of_label accepted

end Layout

/-! ### Programs without faults -/

section Clean

variable {origin : Word} {source : List Text}

theorem isFault_of_faultCount (clean : (assemble origin source).faultCount = 0) :
    ∀ line ∈ (assemble origin source).lines, line.isFault = false := by
  intro line member
  simpa using List.countP_eq_zero.mp clean line member

/-- The lines of a program without faults follow each other from the origin, and store as many
bytes as their sizes say. -/
theorem follows_assemble (clean : (assemble origin source).faultCount = 0) :
    Follows origin (assemble origin source).lines ∧
      ∀ line ∈ (assemble origin source).lines,
        BitVec.ofNat 16 line.bytes.length = line.content.size := by
  have faultless := isFault_of_faultCount clean
  rw [assemble_lines] at faultless ⊢
  have finished : ∀ line ∈ (Layout.ofSource origin source).2,
      (line.finished (assemble origin source).symbols).isFault = false :=
    fun line member => faultless _ (List.mem_map_of_mem member)
  constructor
  · refine follows_map_finished finished (Layout.follows_steps (Layout.start origin) 1 source ?_)
    intro line member
    exact Line.isFault_of_finished (finished line member)
  · intro line member
    obtain ⟨placed, inLayout, rfl⟩ := List.mem_map.mp member
    exact (Line.finished_layout (finished placed inLayout)).2.2

/-- The object code of lines that follow each other from an origin holds their stored runs. -/
theorem segments_ofLines {counter : Word} {lines : List Line} (follows : Follows counter lines) :
    (ObjectFile.ofLines lines).segments = storedRuns (byteRuns counter lines) := by
  rw [ObjectFile.ofLines, ObjectFile.segments_foldl_add, byteRuns]
  cases lines with
  | nil => rfl
  | cons line rest =>
      by_cases kind : ∃ address, line.content = .origin address
      · obtain ⟨address, content⟩ := kind
        rw [cutAtOrigins_cons_origin content]
        rfl
      · have start : line.address = counter := by
          apply follows.1.trans
          cases content : line.content with
          | origin address => exact (kind ⟨address, content⟩).elim
          | _ => rfl
        rw [List.head?_cons, Option.map_some, Option.getD_some, start]
        rfl

/-- The label of a line of a program without faults has the address of the line as its value. -/
theorem find?_assemble_of_label? (clean : (assemble origin source).faultCount = 0) {line : Line}
    {index : Nat} (found : (assemble origin source).lines[index]? = some line)
    {statement : Statement} {name : Text}
    (classified : Statement.classify line.source = .ok statement)
    (labelled : statement.label? = some name) :
    (assemble origin source).symbols.find? name = some ⟨name, some line.address, line.number⟩ := by
  have faultless := isFault_of_faultCount clean line (List.mem_of_getElem? found)
  have bounded : index < source.length := by
    have below := (List.getElem?_eq_some_iff.mp found).1
    rwa [assemble_lines, List.length_map, Layout.length_ofSource] at below
  have present : source[index]? = some source[index] := List.getElem?_eq_getElem bounded
  rw [assemble_getElem? origin source present] at found
  cases found
  have placedClean := Line.isFault_of_finished faultless
  have classifiedText : Statement.classify source[index] = .ok statement := classified
  have early := Layout.find?_step_of_label? classifiedText labelled placedClean
  rw [← Layout.before_succ present] at early
  obtain ⟨grown, foundGrown, sameName, sameLine, sameValue⟩ :=
    assemble_grows origin source (Nat.succ_le_of_lt bounded) early
  rw [foundGrown]
  obtain ⟨grownName, grownValue, grownLine⟩ := grown
  cases sameName
  cases sameLine
  cases sameValue _ rfl
  rfl

/-- **The object file puts every byte where the listing says it is.** A program without faults has
object code, and its segments are the stored runs of bytes between origins. A line of code finds,
among the runs of the lines before it, the last one ending at its address; if the line stores
bytes, they stand in the segment of that run right after what the run held; and a label on the
line has that address as its value. -/
theorem assemble_object (origin : Word) (source : List Text)
    (clean : (assemble origin source).faultCount = 0) :
    ∃ object, (assemble origin source).object? = some object ∧
      object.segments = storedRuns (byteRuns origin (assemble origin source).lines) ∧
      ∀ before line after fields, (assemble origin source).lines = before ++ line :: after →
        line.content = .code fields →
        (∃ closed run, byteRuns origin before = closed ++ [run] ∧
          (run.address.toNat + run.bytes.length) % 65536 = line.address.toNat ∧
          (fields.flatMap Field.bytes ≠ [] → ∃ rest later,
            object.segments = storedRuns closed ++
              ⟨run.address, run.bytes ++ fields.flatMap Field.bytes ++ rest⟩ :: later)) ∧
        ∀ statement name, Statement.classify line.source = .ok statement →
          statement.label? = some name →
          (assemble origin source).symbols.find? name =
            some ⟨name, some line.address, line.number⟩ := by
  obtain ⟨follows, sized⟩ := follows_assemble clean
  have produced : (assemble origin source).object? =
      some (ObjectFile.ofLines (assemble origin source).lines) := by
    unfold Program.object?
    rw [if_neg]
    intro fault
    obtain ⟨line, member, isFault⟩ := List.any_eq_true.mp fault
    rw [isFault_of_faultCount clean line member] at isFault
    cases isFault
  refine ⟨_, produced, segments_ofLines follows, ?_⟩
  intro before line after fields split code
  constructor
  · have stays : ∀ address, line.content ≠ .origin address := by
      intro address same
      rw [code] at same
      cases same
    have fromOrigin : Follows (origin + BitVec.ofNat 16 ([] : List Byte).length)
        (before ++ line :: after) := by
      rw [← split, List.length_nil]
      simpa using follows
    obtain ⟨closed, run, opened, ends, extended⟩ := exists_openRun fromOrigin
      (fun other member => sized other (split ▸ List.mem_append_left _ member)) stays
    refine ⟨closed, run, opened, ?_, ?_⟩
    · have inNat := congrArg BitVec.toNat ends
      rwa [BitVec.toNat_add, BitVec.toNat_ofNat, Nat.add_mod_mod] at inNat
    · intro stores
      have whole : byteRuns origin (assemble origin source).lines =
          closed ++ ⟨run.address, run.bytes ++ (cutAtOrigins (line :: after)).1⟩ ::
            (cutAtOrigins (line :: after)).2 := split ▸ extended (line :: after)
      have lineBytes : line.bytes = fields.flatMap Field.bytes := by rw [Line.bytes, code]
      rw [cutAtOrigins_cons stays, lineBytes] at whole
      refine ⟨(cutAtOrigins after).1, storedRuns (cutAtOrigins after).2, ?_⟩
      rw [segments_ofLines follows, whole, storedRuns, List.filter_append, List.filter_cons_of_pos,
        List.append_assoc]
      · rfl
      · simp [stores]
  · intro statement name classified labelled
    have found : (assemble origin source).lines[before.length]? = some line := by
      rw [split, List.getElem?_append_right (Nat.le_refl _), Nat.sub_self]
      rfl
    exact find?_assemble_of_label? clean found classified labelled

/-- A program whose second segment runs over the end of memory: the last line stands at address
`4`, six bytes into the segment at `0xFFFE`. -/
theorem assemble_object_overEnd :
    let source := [" JMP DONE".toList, " ORG 0x300".toList, " ORG 0xFFFE".toList,
      "TAIL DW DONE,7".toList, " DS 2".toList, "DONE MOV #TAIL,R5".toList]
    let program := assemble 0x0200 source
    let fields := [Field.word (.known 0x4035), .word (.known 0xFFFE)]
    program.faultCount = 0 ∧ ∃ (object : ObjectFile) (closed : List Segment) (run : Segment)
        (rest : List Byte) (later : List Segment),
      program.object? = some object ∧
      object.segments = storedRuns closed ++
        ⟨run.address, run.bytes ++ fields.flatMap Field.bytes ++ rest⟩ :: later ∧
      (run.address.toNat + run.bytes.length) % 65536 = 4 ∧
      program.symbols.find? "DONE".toList = some ⟨"DONE".toList, some 4, 6⟩ := by
  intro source program fields
  have clean : program.faultCount = 0 := by decide +kernel
  have split : program.lines =
      program.lines.take 5 ++ ⟨6, 4, "DONE MOV #TAIL,R5".toList, .code fields⟩ :: [] := by
    decide +kernel
  obtain ⟨object, produced, _, placed⟩ := assemble_object 0x0200 source clean
  obtain ⟨⟨closed, run, _, ends, stored⟩, labels⟩ := placed _ _ _ fields split rfl
  obtain ⟨rest, later, segments⟩ := stored (by decide)
  exact ⟨clean, object, closed, run, rest, later, produced, segments, ends,
    labels (.instruction (some "DONE".toList) "MOV".toList (.two "#TAIL".toList "R5".toList)) _
      (by decide +kernel) rfl⟩

end Clean

end Msp430
