import Msp430.Field

/-!
# Listing lines

What a source line turned into, and how it is shown in the listing: the line
number, the location counter, the bytes in memory order and the source text. A
line with a fault shows the message in place of everything but the number.
-/

namespace Msp430

/-- What a source line turned into. -/
inductive Content where
  /-- Nothing; the line was empty. -/
  | blank
  /-- Nothing; the line held a comment, the end mark or a bare label. -/
  | text
  /-- A constant. -/
  | constant (name : Text) (value : Value)
  /-- Object code. -/
  | code (fields : List Field)
  /-- A new value of the location counter. -/
  | origin (address : Word)
  /-- A fault. -/
  | fault (cause : Fault)
deriving DecidableEq, Repr

namespace Content

/-- The content that a line with the given outcome has. -/
def ofResult : Except Fault Content → Content
  | .ok content => content
  | .error cause => .fault cause

/-- The number of bytes that a line occupies, modulo 65536. -/
def size : Content → Word
  | code fields => fields.foldr (fun field total => field.size + total) 0
  | _ => 0

/-- Whether the line could not be assembled. -/
def isFault : Content → Bool
  | fault _ => true
  | _ => false

/-- Whether the line is a constant that waits for a name. -/
def isPendingConstant : Content → Bool
  | constant _ value => value.isPending
  | _ => false

end Content

/-- A line of the program. -/
structure Line where
  /-- The number of the line, from one. -/
  number : Nat
  /-- The location counter at the start of the line. -/
  address : Word
  /-- The source text. -/
  source : Text
  /-- What the line turned into. -/
  content : Content
deriving DecidableEq, Repr

namespace Line

/-- Whether the line could not be assembled. -/
def isFault (line : Line) : Bool :=
  line.content.isFault

/-- A record with a leading value, the bytes in a column of thirteen, and the source text. -/
def columns (leading bytes source : Text) : Text :=
  leading ++ " ".toList ++ bytes.rightpad 13 ' ' ++ source

/-- What the listing shows after the line number. -/
def body (line : Line) : Text :=
  match line.content with
  | .blank => line.address.hex
  | .fault cause => cause.message
  | .constant _ value => columns value.display [] line.source
  | .code fields => columns line.address.hex (fields.flatMap Field.display) line.source
  | .text | .origin _ => columns line.address.hex [] line.source

/-- The listing text of a line. -/
def display (line : Line) : Text :=
  (Digits.decimal line.number).leftpad 4 ' ' ++ "  ".toList ++ line.body

end Line

end Msp430
