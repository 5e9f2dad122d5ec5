import Mathlib.Algebra.GroupWithZero.Nat
import Msp430.Proofs.Addressing

/-! # The listing and the object code

The listing and the object file render the same fields in different ways: the one
exchanges the bytes of a word and prints it, the other splits the word and stores
its bytes; the one prints a byte with as many digits as it needs, the other cuts
it to eight bits. The two agree because of what a field of a program without
faults is (`Field.Stored`): a known word, or a known byte below 256. The first
pass leaves fields of this kind or fields that wait for a name (`Field.Storable`),
and completing the latter keeps the range (`Settlement.completeField_stored`). Only
reserved space is different, and it has a line of its own (`reserve_or_stored_of_code`).
-/

namespace Msp430

/-! ### Digits -/

namespace Digits

theorem fixed_two (value : Nat) :
    fixed 2 value = [symbol (value / 16 % 16), symbol (value % 16)] :=
  rfl

theorem fixed_four (high low : Nat) (small : low < 256) :
    fixed 4 (256 * high + low) = fixed 2 high ++ fixed 2 low := by
  have first : (256 * high + low) / 16 / 16 = high := by omega
  have third : (256 * high + low) / 16 % 16 = low / 16 % 16 := by omega
  have last : (256 * high + low) % 16 = low % 16 := by omega
  change fixed 2 ((256 * high + low) / 16 / 16) ++ [symbol ((256 * high + low) / 16 % 16)] ++
    [symbol ((256 * high + low) % 16)] = _
  rw [first, third, last, List.append_assoc]
  rfl

/-- A number below 256, filled up to two digits, has the two digits of a byte. -/
theorem leftpad_render {value : Nat} (small : value < 256) :
    (render 16 value).leftpad 2 '0' = fixed 2 value := by
  rw [fixed_two]
  unfold render
  by_cases oneDigit : value < 16
  · have low : value % 16 = value := Nat.mod_eq_of_lt oneDigit
    have high : value / 16 % 16 = 0 := by omega
    rw [if_pos (.inr oneDigit), low, high]
    rfl
  · have top : value / 16 < 16 := by omega
    rw [if_neg (by omega), Nat.mod_eq_of_lt top]
    unfold render
    rw [if_pos (.inr top)]
    rfl

theorem question_notMem_fixed (width value : Nat) : '?' ∉ fixed width value := by
  have noDigit : ∀ digit < 16, '?' ≠ symbol digit := by decide
  induction width generalizing value with
  | zero => exact List.not_mem_nil
  | succ width ih =>
      intro member
      rcases List.mem_append.mp member with front | last
      · exact ih _ front
      · exact noDigit _ (Nat.mod_lt _ (by omega)) (List.mem_singleton.mp last)

end Digits

/-- The two hexadecimal digits of a byte in upper case, high digit first. -/
def Byte.upperDigits (byte : Byte) : Text :=
  [byte.toNat / 16, byte.toNat % 16].map fun digit => "0123456789ABCDEF".toList.getD digit ' '

theorem Byte.hex_eq_upperDigits : hex = upperDigits := by
  have spelled : ∀ digit < 16,
      Digits.symbol digit = "0123456789ABCDEF".toList.getD digit ' ' := by decide
  funext byte
  have high : byte.toNat / 16 < 16 := by omega
  have low : byte.toNat % 16 < 16 := by omega
  rw [hex, Digits.fixed_two, Nat.mod_eq_of_lt high, spelled _ high, spelled _ low]
  rfl

/-- The digits of a word with its bytes exchanged are those of its bytes in memory order. -/
theorem Word.hex_swap (word : Word) : hex (swap word) = (bytes word).flatMap Byte.hex := by
  have joined : (swap word).toNat = 256 * (low word).toNat + (high word).toNat := by
    have below := (high word).isLt
    rw [swap, BitVec.toNat_append, Nat.shiftLeft_eq, Nat.mul_comm,
      ← Nat.two_pow_add_eq_or_of_lt below]
  rw [hex, joined, Digits.fixed_four _ _ (high word).isLt]
  simp only [bytes, List.flatMap_cons, List.flatMap_nil, List.append_nil, Byte.hex]

/-! ### Fields that are stored -/

namespace Field

/-- A field that the object file stores with a value: a known word, or a known byte in range. -/
inductive Stored : Field → Prop where
  | word (datum : Word) : Stored (.word (.known datum))
  | byte (datum : Word) (small : datum.toNat < 256) : Stored (.byte (.known datum))

/-- A field that can become a stored one: it is no reserved space and no byte out of range. -/
def Storable (field : Field) : Prop :=
  (∀ datum, field = .byte (.known datum) → datum.toNat < 256) ∧ ∀ count, field ≠ .reserve count

/-- The word that a field adds to the object code, if it is a word or a byte. -/
def datum? : Field → Option Word
  | word value | byte value => value.known?
  | jump _ _ _ _ | reserve _ => none

/-- **A stored field is shown as it is stored.** -/
theorem Stored.display {field : Field} (stored : field.Stored) :
    field.display = field.bytes.flatMap Byte.hex := by
  cases stored with
  | word datum => exact Word.hex_swap datum
  | byte datum small =>
      have cut : (Word.low datum).toNat = datum.toNat := by
        rw [Word.low, BitVec.extractLsb'_toNat, Nat.shiftRight_zero]
        exact Nat.mod_eq_of_lt small
      change (Digits.render 16 datum.toNat).leftpad 2 '0' = Byte.hex (Word.low datum) ++ []
      rw [Digits.leftpad_render small, Byte.hex, cut, List.append_nil]

theorem Stored.isPending {field : Field} (stored : field.Stored) : field.isPending = false := by
  cases stored with
  | word datum => rfl
  | byte datum small => rfl

theorem checksum_eq (field : Field) : field.checksum = field.datum?.getD 0 := by
  cases field with
  | word value => rfl
  | byte value => rfl
  | jump condition source target text => rfl
  | reserve count => rfl

end Field

/-- Completing a field that can be stored yields a stored one. -/
theorem Settlement.completeField_stored {resolver : Resolver} {field resolved : Field}
    (storable : field.Storable) (completed : completeField resolver field = .ok resolved) :
    resolved.Stored := by
  rw [completeField_eq_resolve storable.1] at completed
  rcases Field.resolve_cases completed with ⟨value, datum, _, _, rfl⟩ |
    ⟨value, datum, _, _, small, rfl⟩ | ⟨_, _, _, _, _, datum, _, _, _, rfl⟩ | ⟨count, rfl, _⟩
  · exact .word datum
  · exact .byte datum small
  · exact .word datum
  · exact (storable.2 count rfl).elim

theorem Data.storable_of_byteItem {here : Word} {resolver : Resolver} {item : Text}
    {fields : List Field} (read : byteItem here resolver item = .ok fields) :
    ∀ field ∈ fields, field.Storable := by
  unfold byteItem at read
  split at read
  case h_1 text _ =>
    cases read
    intro field member
    obtain ⟨byte, _, rfl⟩ := List.mem_map.mp member
    refine ⟨?_, fun _ => Field.noConfusion⟩
    rintro datum ⟨⟩
    have below := byte.isLt
    rw [BitVec.toNat_setWidth]
    omega
  case h_2 =>
    obtain ⟨value, _, checked⟩ := bind_eq_ok_iff.mp read
    split at checked
    case isFalse => cases checked
    case isTrue fits =>
      cases checked
      intro field member
      rw [List.mem_singleton.mp member]
      refine ⟨?_, fun _ => Field.noConfusion⟩
      rintro datum ⟨⟩
      simpa [fitsByte, Value.known?] using fits

/-- The first pass makes fields that can be stored, except for reserved space, which is the only
field of its line. -/
theorem Data.fields_cases {directive : Directive} {items : Text} {here : Word}
    {resolver : Resolver} {fields : List Field}
    (read : Data.fields directive items here resolver = .ok fields) :
    (directive = .space ∧ ∃ count, fields = [.reserve count]) ∨
      (directive ≠ .space ∧ ∀ field ∈ fields, field.Storable) := by
  cases directive with
  | space =>
      obtain ⟨count, _, made⟩ := bind_eq_ok_iff.mp read
      cases made
      exact .inl ⟨rfl, count, rfl⟩
  | word =>
      refine .inr ⟨Directive.noConfusion, ?_⟩
      intro field member
      obtain ⟨item, _, itemRead⟩ := exists_of_mem_of_mapM read member
      obtain ⟨value, _, made⟩ := bind_eq_ok_iff.mp itemRead
      cases made
      exact ⟨fun _ => Field.noConfusion, fun _ => Field.noConfusion⟩
  | byte =>
      refine .inr ⟨Directive.noConfusion, ?_⟩
      obtain ⟨parts, partsRead, joined⟩ := bind_eq_ok_iff.mp read
      cases joined
      intro field member
      obtain ⟨part, inParts, inPart⟩ := List.mem_flatten.mp member
      obtain ⟨item, _, itemRead⟩ := exists_of_mem_of_mapM partsRead inParts
      exact storable_of_byteItem itemRead field inPart

theorem Image.storable_of_fields {image : Image} {address : Word} {resolver : Resolver}
    {fields : List Field} (encoded : image.fields address resolver = .ok fields) :
    ∀ field ∈ fields, field.Storable := by
  intro field member
  refine ⟨fun datum same => (ne_byte_of_fields encoded field member _ same).elim, ?_⟩
  rintro count rfl
  cases image with
  | words first extensions =>
      cases encoded
      simp at member
  | jump condition target text =>
      simp only [Image.fields] at encoded
      split at encoded
      · split at encoded
        · cases encoded
          simp at member
        · cases encoded
      · cases encoded
        simp at member

/-! ### Lines of code -/

namespace Line

/-- Whether a line asks for space without initial content. -/
def ReservesSpace (line : Line) : Prop :=
  ∃ label? items, Statement.classify line.source = .ok (.data label? .space items)

/-- The values of the words and bytes of a line. -/
def values (line : Line) : List Word :=
  match line.content with
  | .code fields => fields.filterMap Field.datum?
  | _ => []

end Line

/-- A line that was placed as code reserves space, or all its fields can be stored. -/
theorem Layout.storable_of_step {layout : Layout} {number : Nat} {text : Text}
    {fields : List Field} (code : (layout.step number text).2.content = .code fields) :
    ((layout.step number text).2.ReservesSpace ∧ ∃ count, fields = [.reserve count]) ∨
      (¬ (layout.step number text).2.ReservesSpace ∧ ∀ field ∈ fields, field.Storable) := by
  have clean : (layout.step number text).2.isFault = false := by
    rw [Line.isFault, code]
    rfl
  obtain ⟨statement, placed, classified, placement, _⟩ := step_placement clean
  rw [code] at placement
  cases placement with
  | @data label? directive items _ _ accepted produced =>
      rcases Data.fields_cases produced with ⟨rfl, count⟩ | ⟨different, storable⟩
      · exact .inl ⟨⟨label?, items, classified⟩, count⟩
      · refine .inr ⟨?_, storable⟩
        rintro ⟨otherLabel?, otherItems, reserves⟩
        rw [show Statement.classify (layout.step number text).2.source = _ from classified]
          at reserves
        cases reserves
        exact different rfl
  | instruction accepted produced =>
      obtain ⟨image, _, encoded⟩ := bind_eq_ok_iff.mp produced
      refine .inr ⟨?_, Image.storable_of_fields encoded⟩
      rintro ⟨otherLabel?, otherItems, reserves⟩
      rw [show Statement.classify (layout.step number text).2.source = _ from classified]
        at reserves
      cases reserves

/-- The second pass leaves no constant open: it becomes known, or a fault. -/
theorem Settlement.exists_known_of_complete {resolver : Resolver} {content : Content} {name : Text}
    {value : Value} (constant : complete resolver content = .constant name value) :
    ∃ word, value = .known word := by
  cases content with
  | constant own seen =>
      simp only [complete] at constant
      cases settled : seen.settle resolver with
      | error fault =>
          rw [settled] at constant
          cases constant
      | ok word =>
          rw [settled] at constant
          cases constant
          exact ⟨word, rfl⟩
  | code fields =>
      simp only [complete] at constant
      cases completed : fields.mapM (completeField resolver) with
      | error fault =>
          rw [completed] at constant
          cases constant
      | ok resolved =>
          rw [completed] at constant
          cases constant
  | blank => cases constant
  | text => cases constant
  | origin address => cases constant
  | fault cause => cases constant

/-! ### The object code as a whole -/

theorem Program.object?_of_faultCount {program : Program} (clean : program.faultCount = 0) :
    program.object? = some (ObjectFile.ofLines program.lines) := by
  have faultless : program.lines.any Line.isFault = false := by
    rw [List.any_eq_false]
    exact List.countP_eq_zero.mp clean
  rw [object?, faultless]
  rfl

theorem flatMap_bytes_storedRuns (runs : List Segment) :
    (storedRuns runs).flatMap Segment.bytes = runs.flatMap Segment.bytes := by
  induction runs with
  | nil => rfl
  | cons run rest ih =>
      unfold storedRuns at ih ⊢
      by_cases empty : run.bytes = []
      · rw [List.filter_cons_of_neg (by simp [empty]), List.flatMap_cons, empty, ih]
        rfl
      · rw [List.filter_cons_of_pos (by simp [empty]), List.flatMap_cons, List.flatMap_cons, ih]

/-- Cutting lines into runs keeps their bytes in order. -/
theorem flatMap_bytes_byteRuns (origin : Word) (lines : List Line) :
    (byteRuns origin lines).flatMap Segment.bytes = lines.flatMap Line.bytes := by
  induction lines generalizing origin with
  | nil => rfl
  | cons line rest ih =>
      by_cases kind : ∃ address, line.content = .origin address
      · obtain ⟨address, content⟩ := kind
        have nothing : line.bytes = [] := by rw [Line.bytes, content]
        rw [byteRuns, cutAtOrigins_cons_origin content, List.flatMap_cons, List.flatMap_cons, ih,
          nothing]
      · have content : ∀ address, line.content ≠ .origin address :=
          fun address same => kind ⟨address, same⟩
        rw [byteRuns, cutAtOrigins_cons content, List.flatMap_cons, List.flatMap_cons, ← ih origin,
          byteRuns, List.flatMap_cons, List.append_assoc]

theorem Field.foldr_checksum (fields : List Field) :
    fields.foldr (fun field total => field.checksum + total) 0 =
      BitVec.ofNat 16 ((fields.filterMap datum?).map BitVec.toNat).sum := by
  induction fields with
  | nil => rfl
  | cons field rest ih =>
      rw [List.foldr_cons, ih, checksum_eq, List.filterMap_cons]
      cases field.datum? with
      | none => simp
      | some datum => simp [BitVec.ofNat_add]

theorem ObjectFile.checksum_add (object : ObjectFile) (line : Line) :
    (object.add line).checksum =
      object.checksum + BitVec.ofNat 16 (line.values.map BitVec.toNat).sum := by
  unfold add Line.values
  cases line.content with
  | code fields => exact congrArg (object.checksum + ·) (Field.foldr_checksum fields)
  | _ => simp [org]

theorem ObjectFile.checksum_foldl_add (lines : List Line) (object : ObjectFile) :
    (lines.foldl add object).checksum = object.checksum +
      BitVec.ofNat 16 ((lines.flatMap Line.values).map BitVec.toNat).sum := by
  induction lines generalizing object with
  | nil => simp
  | cons line rest ih =>
      rw [List.foldl_cons, ih, checksum_add, List.flatMap_cons, List.map_append, List.sum_append,
        BitVec.ofNat_add, BitVec.add_assoc]

/-- The checksum is the sum of all values modulo 65536. -/
theorem ObjectFile.checksum_ofLines (lines : List Line) :
    (ofLines lines).checksum.toNat =
      ((lines.flatMap Line.values).map BitVec.toNat).sum % 65536 := by
  change (lines.foldl add (start _)).checksum.toNat = _
  rw [checksum_foldl_add]
  change (0#16 + BitVec.ofNat 16 _).toNat = _
  rw [BitVec.zero_add, BitVec.toNat_ofNat]

/-! ### Columns of the listing -/

theorem question_notMem_hex (word : Word) : '?' ∉ word.hex :=
  Digits.question_notMem_fixed 4 word.toNat

theorem question_notMem_flatMap_hex (bytes : List Byte) : '?' ∉ bytes.flatMap Byte.hex := by
  intro member
  obtain ⟨byte, _, inByte⟩ := List.mem_flatMap.mp member
  exact Digits.question_notMem_fixed 2 byte.toNat inByte

/-- The bytes are in a column of thirteen characters. -/
theorem Line.columns_eq (leading bytes source : Text) :
    columns leading bytes source =
      leading ++ ' ' :: (bytes ++ List.replicate (13 - bytes.length) ' ' ++ source) := by
  simp [columns, List.rightpad]

/-- The columns in front of the source text show a question mark only if their texts do. -/
theorem Line.exists_columns {leading bytes : Text} (source : Text) (known : '?' ∉ leading)
    (stored : '?' ∉ bytes) :
    ∃ column, columns leading bytes source = column ++ source ∧ '?' ∉ column := by
  refine ⟨leading ++ " ".toList ++ bytes.rightpad 13 ' ', rfl, ?_⟩
  simp [List.rightpad, known, stored]

/-! ### Lines of a program -/

section Program

variable {origin : Word} {source : List Text} {line : Line} {fields : List Field}

/-- A line of code reserves space, or all its fields are stored. -/
theorem reserve_or_stored_of_code (member : line ∈ (assemble origin source).lines)
    (code : line.content = .code fields) :
    (line.ReservesSpace ∧ ∃ count, fields = [.reserve count]) ∨
      (¬ line.ReservesSpace ∧ ∀ field ∈ fields, field.Stored) := by
  rw [assemble_lines] at member
  obtain ⟨placed, inLayout, rfl⟩ := List.mem_map.mp member
  obtain ⟨index, found⟩ := List.mem_iff_getElem?.mp inLayout
  rw [Layout.ofSource_getElem?] at found
  obtain ⟨text, _, rfl⟩ := Option.map_eq_some_iff.mp found
  obtain ⟨early, content, completed⟩ := Line.exists_of_finished_code code
  rcases Layout.storable_of_step content with ⟨reserves, count, rfl⟩ | ⟨plain, storable⟩
  · rw [Settlement.mapM_completeField_of_ready (by simp [Field.isPending])] at completed
    cases completed
    exact .inl ⟨reserves, count, rfl⟩
  · refine .inr ⟨plain, ?_⟩
    intro field inFields
    obtain ⟨open?, inEarly, made⟩ := exists_of_mem_of_mapM completed inFields
    exact Settlement.completeField_stored (storable open? inEarly) made

/-- A field of a program is known, has the bytes that its size says, and fits if it is a byte. -/
theorem known_of_code (member : line ∈ (assemble origin source).lines)
    (code : line.content = .code fields) :
    ∀ field ∈ fields, field.isPending = false ∧ field.bytes.length = field.size.toNat ∧
      ∀ value, field = .byte value → ∃ datum, value = .known datum ∧ datum.toNat < 256 := by
  intro field inFields
  rcases reserve_or_stored_of_code member code with ⟨_, count, rfl⟩ | ⟨_, stored⟩
  · rw [List.mem_singleton.mp inFields]
    exact ⟨rfl, Field.length_bytes rfl, fun _ => Field.noConfusion⟩
  · have ready := (stored field inFields).isPending
    refine ⟨ready, Field.length_bytes ready, ?_⟩
    rintro value rfl
    cases stored _ inFields with
    | byte datum small => exact ⟨datum, rfl, small⟩

/-- A constant of a program is known. -/
theorem known_of_constant (member : line ∈ (assemble origin source).lines) {name : Text}
    {value : Value} (constant : line.content = .constant name value) :
    ∃ word, value = .known word := by
  rw [assemble_lines] at member
  obtain ⟨placed, _, rfl⟩ := List.mem_map.mp member
  exact Settlement.exists_known_of_complete constant

/-- What a line of code shows and stores. Reserved space shows nothing and stores zeros; any other
line shows the digits of the bytes that it stores. -/
theorem body_of_code (member : line ∈ (assemble origin source).lines)
    (code : line.content = .code fields) :
    (line.ReservesSpace → line.body = Line.columns line.address.hex [] line.source ∧
        line.bytes = List.replicate line.content.size.toNat 0) ∧
      (¬ line.ReservesSpace → line.body =
        Line.columns line.address.hex (line.bytes.flatMap Byte.upperDigits) line.source) := by
  rcases reserve_or_stored_of_code member code with ⟨reserves, count, rfl⟩ | ⟨plain, stored⟩
  · refine ⟨fun _ => ⟨?_, ?_⟩, fun plain => (plain reserves).elim⟩
    · rw [Line.body, code]
      rfl
    · have size : Content.size (.code [.reserve count]) = count := BitVec.add_zero count
      rw [Line.bytes, code, size]
      exact List.append_nil _
  · refine ⟨fun reserves => (plain reserves).elim, fun _ => ?_⟩
    have shown : fields.flatMap Field.display =
        (fields.flatMap Field.bytes).flatMap Byte.upperDigits := by
      rw [List.flatMap_assoc, ← Byte.hex_eq_upperDigits]
      exact List.flatMap_congr fun field inFields => (stored field inFields).display
    rw [Line.body, Line.bytes, code]
    exact congrArg (Line.columns line.address.hex · line.source) shown

/-- No question mark stands in front of the source text of a line without a fault. -/
theorem exists_column (member : line ∈ (assemble origin source).lines)
    (clean : line.isFault = false) :
    ∃ column, line.body = column ++ (if line.content = .blank then [] else line.source) ∧
      '?' ∉ column := by
  cases content : line.content with
  | blank =>
      refine ⟨line.address.hex, ?_, question_notMem_hex _⟩
      rw [Line.body, content, if_pos rfl, List.append_nil]
  | text =>
      rw [if_neg Content.noConfusion, Line.body, content]
      exact Line.exists_columns _ (question_notMem_hex _) List.not_mem_nil
  | origin address =>
      rw [if_neg Content.noConfusion, Line.body, content]
      exact Line.exists_columns _ (question_notMem_hex _) List.not_mem_nil
  | constant name value =>
      obtain ⟨word, rfl⟩ := known_of_constant member content
      rw [if_neg Content.noConfusion, Line.body, content]
      exact Line.exists_columns _ (question_notMem_hex word) List.not_mem_nil
  | code fields =>
      rw [if_neg Content.noConfusion]
      obtain ⟨reserved, plain⟩ := body_of_code member content
      by_cases reserves : line.ReservesSpace
      · rw [(reserved reserves).1]
        exact Line.exists_columns _ (question_notMem_hex _) List.not_mem_nil
      · rw [plain reserves, ← Byte.hex_eq_upperDigits]
        exact Line.exists_columns _ (question_notMem_hex _) (question_notMem_flatMap_hex _)
  | fault cause =>
      rw [Line.isFault, content] at clean
      cases clean

end Program

/-- **The listing of a program without faults shows its object code.** There is object code, which
holds the bytes of the lines in order, and its checksum is the sum of the values of all words and
bytes. Every constant is known; every field is known, has as many bytes as its size says and, if it
is a byte, is below 256. No question mark stands in front of the source text of a line. A line of
code shows, behind its address and in a column of thirteen characters, the upper-case digits of the
bytes that it stores, except that reserved space shows none and stores as many zeros as its size
says. -/
theorem assemble_listing (origin : Word) (source : List Text)
    (clean : (assemble origin source).faultCount = 0) :
    let program := assemble origin source
    ∃ object, program.object? = some object ∧
      object.segments.flatMap Segment.bytes = program.lines.flatMap Line.bytes ∧
      object.checksum.toNat =
        ((program.lines.flatMap Line.values).map BitVec.toNat).sum % 65536 ∧
      ∀ line ∈ program.lines,
        (∀ name value, line.content = .constant name value → ∃ word, value = .known word) ∧
        (∃ column, line.body = column ++ (if line.content = .blank then [] else line.source) ∧
          '?' ∉ column) ∧
        ∀ fields, line.content = .code fields →
          (∀ field ∈ fields, field.isPending = false ∧ field.bytes.length = field.size.toNat ∧
            ∀ value, field = .byte value → ∃ datum, value = .known datum ∧ datum.toNat < 256) ∧
          (line.ReservesSpace →
            line.body = line.address.hex ++ ' ' :: (List.replicate 13 ' ' ++ line.source) ∧
            line.bytes = List.replicate line.content.size.toNat 0) ∧
          (¬ line.ReservesSpace →
            let digits := line.bytes.flatMap Byte.upperDigits
            line.body = line.address.hex ++
              ' ' :: (digits ++ List.replicate (13 - digits.length) ' ' ++ line.source)) := by
  intro program
  refine ⟨_, Program.object?_of_faultCount clean, ?_, ObjectFile.checksum_ofLines _, ?_⟩
  · rw [segments_ofLines (follows_assemble clean).1, flatMap_bytes_storedRuns,
      flatMap_bytes_byteRuns]
  · intro line member
    refine ⟨fun name value constant => known_of_constant member constant,
      exists_column member (isFault_of_faultCount clean line member), ?_⟩
    intro fields code
    obtain ⟨reserved, plain⟩ := body_of_code member code
    exact ⟨known_of_code member code,
      fun reserves => ⟨(reserved reserves).1.trans (Line.columns_eq ..), (reserved reserves).2⟩,
      fun stores => (plain stores).trans (Line.columns_eq ..)⟩

/-- A line of bytes, one of which waits for the last line, and reserved space after it. -/
theorem assemble_listing_bytes :
    let source := ["START JMP DONE".toList, "TEXT DB \"A?\",COUNT".toList, " DS 3".toList,
      "DONE MOV #TEXT,R5".toList, "COUNT EQU DONE-START".toList]
    let program := assemble 0x0200 source
    let text : Line := ⟨2, 0x0202, "TEXT DB \"A?\",COUNT".toList,
      .code [.byte (.known 0x41), .byte (.known 0x3F), .byte (.known 8)]⟩
    let space : Line := ⟨3, 0x0205, " DS 3".toList, .code [.reserve 3]⟩
    program.faultCount = 0 ∧ text ∈ program.lines ∧ space ∈ program.lines ∧
      text.body = "0202 413F08       ".toList ++ text.source ∧
      space.bytes = [0, 0, 0] ∧
      ∃ object, program.object? = some object ∧
        object.segments.flatMap Segment.bytes = program.lines.flatMap Line.bytes ∧
        object.checksum.toNat = (0x3C03 + 0x41 + 0x3F + 8 + 0x4035 + 0x0202) % 65536 := by
  intro source program text space
  have clean : program.faultCount = 0 := by decide +kernel
  have inText : text ∈ program.lines := by decide +kernel
  have inSpace : space ∈ program.lines := by decide +kernel
  obtain ⟨object, produced, bytes, checksum, shown⟩ := assemble_listing 0x0200 source clean
  obtain ⟨_, _, code⟩ := shown text inText
  obtain ⟨_, _, reserved⟩ := shown space inSpace
  have plain : ¬ text.ReservesSpace := by
    rintro ⟨label?, items, classified⟩
    have spelled : Statement.classify text.source =
      .ok (.data (some "TEXT".toList) .byte "\"A?\",COUNT".toList) := by decide +kernel
    rw [spelled] at classified
    cases classified
  have reserves : space.ReservesSpace := ⟨none, "3".toList, by decide +kernel⟩
  refine ⟨clean, inText, inSpace, ((code _ rfl).2.2 plain).trans ?_,
    ((reserved _ rfl).2.1 reserves).2, object, produced, bytes, checksum.trans ?_⟩
  · decide +kernel
  · decide +kernel

end Msp430
