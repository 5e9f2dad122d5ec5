import Msp430.Jump
import Msp430.Value

/-!
# Fields

The units of object code that a line produces: words, bytes, jumps whose target
is still open, and reserved space. The size of a field is fixed from the start;
resolving it fills in what was pending.
-/

namespace Msp430

/-- One unit of object code. -/
inductive Field where
  /-- A word: an instruction word, an extension word or a datum. -/
  | word (value : Value)
  /-- A byte of data. -/
  | byte (value : Value)
  /-- A jump at the address `source` whose target was not known, with the operand as written. -/
  | jump (condition : Condition) (source : Word) (target : Reference) (text : Text)
  /-- A number of bytes without initial content. -/
  | reserve (count : Word)
deriving DecidableEq, Repr

namespace Field

/-- The number of bytes a field occupies. -/
def size : Field → Word
  | word _ | jump _ _ _ _ => 2
  | byte _ => 1
  | reserve count => count

/-- Whether a field waits for a name. -/
def isPending : Field → Bool
  | word value | byte value => value.isPending
  | jump _ _ _ _ => true
  | reserve _ => false

/-- The field with its names replaced by their values. A byte has to be below 256 and a jump
target within reach. -/
def resolve (resolver : Resolver) : Field → Except Fault Field
  | word value => do
    let datum ← value.settle resolver
    return .word (.known datum)
  | byte value => do
    let datum ← value.settle resolver
    if datum.toNat < 256 then return .byte (.known datum) else throw (.valueRange datum.hex)
  | jump condition source target text => do
    let target ← (target.resolve resolver).mapError .undefinedName
    match Jump.encode? condition source target with
    | some datum => return .word (.known datum)
    | none => throw (.jumpRange text)
  | reserve count => return .reserve count

/-- The field after an attempt to resolve it. An attempt that fails leaves the field as it was,
except that a byte keeps a value that turned out not to fit. -/
def settled (resolver : Resolver) : Field → Field
  | word value => .word (value.settled resolver)
  | byte value => .byte (value.settled resolver)
  | jump condition source target text =>
    match resolve resolver (.jump condition source target text) with
    | .ok reached => reached
    | .error _ => .jump condition source target text
  | reserve count => .reserve count

/-- What a field adds to the checksum: its value, while the value is known. -/
def checksum : Field → Word
  | word value | byte value => value.known?.getD 0
  | jump _ _ _ _ | reserve _ => 0

/-- The bytes of a field in memory order; a pending field has none. -/
def bytes : Field → List Byte
  | word (.known datum) => datum.bytes
  | byte (.known datum) => [datum.low]
  | reserve count => List.replicate count.toNat 0
  | word (.pending _) | byte (.pending _) | jump _ _ _ _ => []

/-- The listing text of a field. Words are shown in memory order, pending fields as question
marks and reserved space not at all. -/
def display : Field → Text
  | word (.known datum) => datum.swap.hex
  | byte (.known datum) => (Digits.render 16 datum.toNat).leftpad 2 '0'
  | word (.pending _) | jump _ _ _ _ => "????".toList
  | byte (.pending _) => "??".toList
  | reserve _ => []

end Field

end Msp430
