import Msp430.Listing

/-!
# Object files

The bytes of a program in segments of consecutive addresses, and a checksum. The
bytes are collected in an open segment, which an origin closes; segments without
bytes are dropped. The text of an object file holds the closed segments only.
-/

namespace Msp430

/-- Bytes at consecutive addresses. -/
structure Segment where
  /-- The address of the first byte. -/
  address : Word
  /-- The bytes in memory order. -/
  bytes : List Byte
deriving DecidableEq, Repr

namespace Segment

/-- The text of a segment: a mark, the address, the number of bytes and the bytes. -/
def render (segment : Segment) : Text :=
  "FFFF0000 ".toList ++ segment.address.hex ++ " ".toList ++
    Digits.decimal segment.bytes.length ++ " ".toList ++ segment.bytes.flatMap Byte.hex

end Segment

/-- Object code as far as it has been collected. -/
structure ObjectFile where
  /-- The closed segments, first one first. -/
  segments : List Segment
  /-- The segment that is being filled. -/
  current : Segment
  /-- The sum of all values so far. -/
  checksum : Word
deriving DecidableEq, Repr

namespace ObjectFile

/-- Object code without bytes, to be filled from an address. -/
def start (origin : Word) : ObjectFile :=
  ⟨[], ⟨origin, []⟩, 0⟩

/-- Closes the open segment and opens one at the given address. -/
def org (object : ObjectFile) (address : Word) : ObjectFile :=
  { object with
    segments :=
      if object.current.bytes.isEmpty then object.segments
      else object.segments ++ [object.current]
    current := ⟨address, []⟩ }

/-- Appends a field to the open segment. -/
def emit (object : ObjectFile) (field : Field) : ObjectFile :=
  { object with
    current := { object.current with bytes := object.current.bytes ++ field.bytes }
    checksum := object.checksum + field.checksum }

/-- Appends the fields of a line to the open segment. -/
def emitAll (object : ObjectFile) (fields : List Field) : ObjectFile :=
  { object with
    current :=
      { object.current with bytes := object.current.bytes ++ fields.flatMap Field.bytes }
    checksum :=
      object.checksum + fields.foldr (fun field total => field.checksum + total) 0 }

/-- Appending fields at once is appending them one after another. -/
theorem emitAll_eq_foldl (object : ObjectFile) (fields : List Field) :
    object.emitAll fields = fields.foldl emit object := by
  induction fields generalizing object with
  | nil => simp [emitAll]
  | cons field rest ih =>
    rw [List.foldl_cons, ← ih]
    simp [emitAll, emit, List.append_assoc, BitVec.add_assoc]

/-- Appends what a line contributes. -/
def add (object : ObjectFile) (line : Line) : ObjectFile :=
  match line.content with
  | .origin address => object.org address
  | .code fields => object.emitAll fields
  | _ => object

/-- The object code of a program, with every segment closed. -/
def ofLines (lines : List Line) : ObjectFile :=
  let origin := (lines.head?.map Line.address).getD 0
  (lines.foldl add (start origin)).org 0

/-- The text of an object file: a first line, the closed segments, and the checksum. -/
def render (object : ObjectFile) : Text :=
  Text.line "MSP430 OBJECT V1".toList ++
    object.segments.flatMap (fun segment => Text.line segment.render) ++
    Text.line ("FFFFFFFF ".toList ++ object.checksum.hex)

end ObjectFile

end Msp430
