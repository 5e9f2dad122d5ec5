import Msp430.ObjectFile
import Msp430.Proofs.Pieces
import Msp430.Proofs.TermGrammar

/-! # Reading object files back

A reader for the text of object files, and the theorem that it returns the
segments and the checksum of every object file (`ObjectFile.render_readable`). The
lines of the text are cut at line feeds and the parts of a line at spaces, neither
of which occurs in a number; so it is enough that every number is read back
(`Digits.denotes_decimal`, `ObjectFile.readWord?_hex`, `ObjectFile.readBytes?_flatMap`).
-/

namespace Msp430

/-! ### Numbers -/

namespace Digits

theorem toUpper_symbol : ∀ value < 16, (symbol value).toUpper = symbol value := by
  decide

/-- Digits are written in upper case. -/
theorem upper_fixed (width value : Nat) : Text.upper (fixed width value) = fixed width value := by
  induction width generalizing value with
  | zero => rfl
  | succ width ih =>
      have last := toUpper_symbol (value % 16) (Nat.mod_lt value (by omega))
      unfold Text.upper at ih ⊢
      rw [fixed, List.map_append, ih, List.map_singleton, last]

/-- The symbol of a digit stands for it. -/
theorem stands_symbol {base value : Nat} (bound : base ≤ 16) (small : value < base) :
    Stands base (symbol value) value :=
  ⟨small, toUpper_symbol value (by omega)⟩

theorem denotes_singleton {base value : Nat} {c : Char} (stands : Stands base c value) :
    Denotes base [c] value :=
  ⟨by simp, [value], .cons stands .nil, by simp⟩

/-- A digit behind a numeral is its new last place. -/
theorem Denotes.snoc {base number value : Nat} {text : Text} {c : Char}
    (denoted : Denotes base text number) (stands : Stands base c value) :
    Denotes base (text ++ [c]) (base * number + value) := by
  obtain ⟨-, values, places, rfl⟩ := denoted
  refine ⟨by simp, values ++ [value], List.rel_append places (.cons stands .nil), ?_⟩
  rw [List.reverse_append, List.reverse_singleton, List.singleton_append, Nat.ofDigits_cons]
  omega

/-- A number written in decimal digits denotes that number. -/
theorem denotes_decimal (number : Nat) : Denotes 10 (decimal number) number := by
  unfold decimal
  induction number using Nat.strong_induction_on with
  | _ number ih =>
      rw [render]
      by_cases small : number < 10
      · rw [if_pos (.inr small)]
        exact denotes_singleton (stands_symbol (by omega) small)
      · rw [if_neg (by omega)]
        have whole : 10 * (number / 10) + number % 10 = number := Nat.div_add_mod number 10
        have denoted := (ih (number / 10) (by omega)).snoc
          (stands_symbol (by omega) (Nat.mod_lt number (by omega : 0 < 10)))
        rwa [whole] at denoted

/-- A number written with a fixed count of hexadecimal digits denotes its last places. -/
theorem denotes_fixed (width number : Nat) :
    Denotes 16 (fixed (width + 1) number) (number % 16 ^ (width + 1)) := by
  induction width generalizing number with
  | zero =>
      rw [fixed, fixed, List.nil_append, Nat.zero_add, Nat.pow_one]
      exact denotes_singleton (stands_symbol (by omega) (Nat.mod_lt number (by omega)))
  | succ width ih =>
      have denoted := (ih (number / 16)).snoc
        (stands_symbol (by omega) (Nat.mod_lt number (by omega : 0 < 16)))
      have whole : 16 * (number / 16 % 16 ^ (width + 1)) + number % 16 =
          number % 16 ^ (width + 2) := by
        have grown : 16 ^ (width + 2) = 16 * 16 ^ (width + 1) := Nat.pow_succ'
        rw [grown, Nat.mod_mul, Nat.add_comm]
      rw [whole] at denoted
      rwa [fixed]

/-- Nothing but solid characters occurs in a numeral. -/
theorem notMem_of_denotes {base number : Nat} (bound : base ≤ 16) {text : Text}
    (denoted : Denotes base text number) {mark : Char} (other : Term.isSolid mark = false) :
    mark ∉ text := by
  intro member
  rw [Term.isSolid_of_denotes bound denoted mark member] at other
  cases other

end Digits

/-- A word is shown in upper case. -/
theorem Word.upper_hex (word : Word) : Text.upper word.hex = word.hex :=
  Digits.upper_fixed 4 word.toNat

namespace ObjectFile

/-! ### The reader -/

/-- Reads a word of four hexadecimal digits. -/
def readWord? (text : Text) : Option Word :=
  if text.length = 4 then (Digits.read? 16 text).map (BitVec.ofNat 16) else none

/-- Reads bytes of two hexadecimal digits each. -/
def readBytes? : Text → Option (List Byte)
  | [] => some []
  | [_] => none
  | high :: low :: rest => do
    let byte ← Digits.read? 16 [high, low]
    let bytes ← readBytes? rest
    return BitVec.ofNat 8 byte :: bytes

/-- Reads the line of a segment, which has to announce the right number of bytes. -/
def readSegment? (row : Text) : Option Segment :=
  match row.splitOn ' ' with
  | [mark, address, count, data] =>
    if mark = "FFFF0000".toList then do
      let address ← readWord? address
      let count ← Digits.read? 10 count
      let bytes ← readBytes? data
      if bytes.length = count then return ⟨address, bytes⟩ else none
    else none
  | _ => none

/-- Reads the line of the checksum. -/
def readChecksum? (row : Text) : Option Word :=
  match row.splitOn ' ' with
  | [mark, checksum] => if mark = "FFFFFFFF".toList then readWord? checksum else none
  | _ => none

/-- Reads the lines of segments and, last, the line of the checksum. -/
def readRows? : List Text → Option (List Segment × Word)
  | [] => none
  | [last] => (readChecksum? last).map fun checksum => ([], checksum)
  | row :: rest => do
    let segment ← readSegment? row
    let (segments, checksum) ← readRows? rest
    return (segment :: segments, checksum)

/-- Reads the text of an object file: the segments and the checksum. Every line has to be ended. -/
def read? (text : Text) : Option (List Segment × Word) :=
  match text.splitOn '\n' with
  | [] => none
  | first :: rows =>
    if first = "MSP430 OBJECT V1".toList ∧ rows.getLast? = some [] then readRows? rows.dropLast
    else none

/-! ### Reading back -/

/-- A word is shown by a numeral of it. -/
theorem denotes_hex (word : Word) : Digits.Denotes 16 word.hex word.toNat := by
  have denoted := Digits.denotes_fixed 3 word.toNat
  rwa [Nat.mod_eq_of_lt (by omega)] at denoted

/-- A byte is shown by a numeral of it. -/
theorem denotes_byte_hex (byte : Byte) : Digits.Denotes 16 byte.hex byte.toNat := by
  have denoted := Digits.denotes_fixed 1 byte.toNat
  rwa [Nat.mod_eq_of_lt (by omega)] at denoted

/-- A word that is shown is read back. -/
theorem readWord?_hex (word : Word) : readWord? word.hex = some word := by
  have width : word.hex.length = 4 := by simp [Word.hex, Digits.fixed]
  rw [readWord?, if_pos width, (Digits.read?_eq_some_iff (by omega)).mpr (denotes_hex word),
    Option.map_some, BitVec.ofNat_toNat, BitVec.setWidth_eq]

/-- Bytes that are shown one after another are read back. -/
theorem readBytes?_flatMap (bytes : List Byte) :
    readBytes? (bytes.flatMap Byte.hex) = some bytes := by
  induction bytes with
  | nil => rfl
  | cons byte rest ih =>
      obtain ⟨high, low, pair⟩ : ∃ high low, byte.hex = [high, low] := ⟨_, _, rfl⟩
      have found : Digits.read? 16 [high, low] = some byte.toNat := by
        rw [← pair, Digits.read?_eq_some_iff (by omega)]
        exact denotes_byte_hex byte
      rw [List.flatMap_cons, pair, List.cons_append, List.cons_append, List.nil_append, readBytes?,
        found, ih]
      simp

theorem notMem_flatMap_hex {mark : Char} (other : Term.isSolid mark = false) (bytes : List Byte) :
    mark ∉ bytes.flatMap Byte.hex := by
  intro member
  obtain ⟨byte, -, inside⟩ := List.mem_flatMap.mp member
  exact Digits.notMem_of_denotes (by omega) (denotes_byte_hex byte) other inside

/-- The line of a segment falls into four parts at its spaces. -/
theorem pieces_segment (segment : Segment) :
    segment.render.splitOn ' ' = ["FFFF0000".toList, segment.address.hex,
      Digits.decimal segment.bytes.length, segment.bytes.flatMap Byte.hex] := by
  have address := Digits.notMem_of_denotes (by omega) (denotes_hex segment.address)
    (by decide : Term.isSolid ' ' = false)
  have count := Digits.notMem_of_denotes (by omega)
    (Digits.denotes_decimal segment.bytes.length) (by decide : Term.isSolid ' ' = false)
  have data := notMem_flatMap_hex (by decide : Term.isSolid ' ' = false) segment.bytes
  have parts : segment.render = "FFFF0000".toList ++ ' ' :: (segment.address.hex ++ ' ' ::
      (Digits.decimal segment.bytes.length ++ ' ' :: segment.bytes.flatMap Byte.hex)) := by
    have mark : "FFFF0000 ".toList = "FFFF0000".toList ++ [' '] := by decide
    have space : " ".toList = [' '] := by decide
    unfold Segment.render
    simp only [mark, space, List.append_assoc, List.cons_append, List.nil_append]
  rw [parts, List.splitOn_append_cons_self_of_not_mem (by decide),
    List.splitOn_append_cons_self_of_not_mem address,
    List.splitOn_append_cons_self_of_not_mem count, List.splitOn_eq_singleton data]

/-- The line of a segment is read back. -/
theorem readSegment?_render (segment : Segment) :
    readSegment? segment.render = some segment := by
  have count : Digits.read? 10 (Digits.decimal segment.bytes.length) =
      some segment.bytes.length :=
    (Digits.read?_eq_some_iff (by omega)).mpr (Digits.denotes_decimal _)
  simp [readSegment?, pieces_segment, readWord?_hex, readBytes?_flatMap, count]

/-- The last line of an object file. -/
def lastRow (object : ObjectFile) : Text :=
  "FFFFFFFF ".toList ++ object.checksum.hex

/-- The line of the checksum is read back. -/
theorem readChecksum?_lastRow (object : ObjectFile) :
    readChecksum? object.lastRow = some object.checksum := by
  have checksum := Digits.notMem_of_denotes (by omega) (denotes_hex object.checksum)
    (by decide : Term.isSolid ' ' = false)
  have parts : object.lastRow = "FFFFFFFF".toList ++ ' ' :: object.checksum.hex := by
    have mark : "FFFFFFFF ".toList = "FFFFFFFF".toList ++ [' '] := by decide
    unfold lastRow
    simp only [mark, List.append_assoc, List.cons_append, List.nil_append]
  rw [readChecksum?, parts, List.splitOn_append_cons_self_of_not_mem (by decide),
    List.splitOn_eq_singleton checksum]
  exact readWord?_hex object.checksum

/-- The lines of the segments and of the checksum are read back. -/
theorem readRows?_append (segments : List Segment) (object : ObjectFile) :
    readRows? (segments.map Segment.render ++ [object.lastRow]) =
      some (segments, object.checksum) := by
  induction segments with
  | nil =>
      rw [List.map_nil, List.nil_append, readRows?, readChecksum?_lastRow]
      rfl
  | cons segment rest ih =>
      rw [List.map_cons, List.cons_append, readRows?, readSegment?_render, ih]
      · rfl
      · simp

/-- The line of a segment has no end inside. -/
theorem newline_notMem_segment (segment : Segment) : '\n' ∉ segment.render := by
  have unended : Term.isSolid '\n' = false := by decide
  have address := Digits.notMem_of_denotes (by omega) (denotes_hex segment.address) unended
  have count := Digits.notMem_of_denotes (by omega)
    (Digits.denotes_decimal segment.bytes.length) unended
  have data := notMem_flatMap_hex unended segment.bytes
  unfold Segment.render
  simp only [List.mem_append, not_or]
  exact ⟨⟨⟨⟨⟨by decide, address⟩, by decide⟩, count⟩, by decide⟩, data⟩

theorem newline_notMem_lastRow (object : ObjectFile) : '\n' ∉ object.lastRow := by
  have checksum := Digits.notMem_of_denotes (by omega) (denotes_hex object.checksum)
    (by decide : Term.isSolid '\n' = false)
  unfold lastRow
  rw [List.mem_append, not_or]
  exact ⟨by decide, checksum⟩

/-- The text of an object file falls into its lines. -/
theorem pieces_render (object : ObjectFile) :
    object.render.splitOn '\n' = "MSP430 OBJECT V1".toList ::
      (object.segments.map Segment.render ++ [object.lastRow] ++ [[]]) := by
  let rows := "MSP430 OBJECT V1".toList :: (object.segments.map Segment.render ++ [object.lastRow])
  have unended : ∀ row ∈ rows, '\n' ∉ row := by
    simp only [rows, List.forall_mem_cons, List.forall_mem_append, List.forall_mem_map]
    exact ⟨by decide, fun segment _ => newline_notMem_segment segment,
      newline_notMem_lastRow object, nofun⟩
  have whole : object.render = rows.flatMap (fun row => row ++ ['\n']) ++ [] := by
    unfold render
    rw [List.append_nil, List.flatMap_cons, List.flatMap_append, List.flatMap_map,
      List.flatMap_singleton, List.append_assoc]
    rfl
  rw [whole, Text.splitOn_flatMap unended]
  rfl

/-- The text of an object file is read back. -/
theorem read?_render (object : ObjectFile) :
    read? object.render = some (object.segments, object.checksum) := by
  rw [read?, pieces_render]
  dsimp only
  rw [if_pos ⟨rfl, List.getLast?_concat⟩, List.dropLast_concat, readRows?_append]

/-- **The text of an object file can be read back.** The reader returns the closed segments and the
checksum; so object files with the same text have the same segments, byte for byte, and the same
checksum. The line of a segment announces as many bytes as pairs of digits follow. -/
theorem render_readable (object : ObjectFile) :
    read? object.render = some (object.segments, object.checksum) ∧
      (∀ other : ObjectFile, other.render = object.render →
        other.segments = object.segments ∧ other.checksum = object.checksum) ∧
      ∀ segment ∈ object.segments, ∃ (count : Text) (pairs : List Text),
        segment.render = "FFFF0000 ".toList ++ segment.address.hex ++ " ".toList ++ count ++
          " ".toList ++ pairs.flatten ∧
        Digits.Denotes 10 count pairs.length ∧
        ∀ pair ∈ pairs, pair.length = 2 ∧ ∃ byte, Digits.Denotes 16 pair byte := by
  refine ⟨read?_render object, fun other same => ?_, fun segment _ => ?_⟩
  · have read := read?_render other
    rw [same, read?_render] at read
    obtain ⟨segments, checksum⟩ := Prod.mk.inj (Option.some.inj read)
    exact ⟨segments.symm, checksum.symm⟩
  · refine ⟨Digits.decimal segment.bytes.length, segment.bytes.map Byte.hex, ?_, ?_, ?_⟩
    · unfold Segment.render
      rw [List.flatMap]
    · rw [List.length_map]
      exact Digits.denotes_decimal _
    · rw [List.forall_mem_map]
      exact fun byte _ => ⟨rfl, byte.toNat, denotes_byte_hex byte⟩

end ObjectFile

end Msp430
