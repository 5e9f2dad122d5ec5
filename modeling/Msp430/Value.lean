import Msp430.Fault
import Msp430.Symbol.Peripheral

/-!
# Values

A numeric field of the source is known at once or waits for names that are
defined later. A `Reference` keeps what is needed to finish the computation: the
sum of the terms that were known, and the outstanding names with their signs.

Settling a reference falls back on the peripheral names, so it is meant for the
time when every label of the program has been seen.
-/

namespace Msp430

/-- Whether a term is added or subtracted. -/
inductive Sign where
  | plus
  | minus
deriving DecidableEq, Repr

namespace Sign

/-- The contribution of a number under a sign. -/
def apply : Sign → Int → Int
  | plus, number => number
  | minus, number => -number

end Sign

/-- An outstanding name of an expression. -/
structure Mention where
  /-- The name as it was written. -/
  name : Text
  /-- The sign in front of it. -/
  sign : Sign
deriving DecidableEq, Repr

/-- A sum some of whose terms are names without a value yet. -/
structure Reference where
  /-- The sum of the terms that were known. -/
  offset : Int
  /-- The outstanding names in the order of their occurrence. -/
  mentions : List Mention
deriving DecidableEq, Repr

namespace Reference

/-- Adds the values of the names to a sum; fails with the first name that has none. -/
def addMentions (resolver : Resolver) : Int → List Mention → Except Text Int
  | sum, [] => .ok sum
  | sum, mention :: rest =>
    match resolver mention.name with
    | some value => addMentions resolver (sum + mention.sign.apply value.toNat) rest
    | none => .error mention.name

/-- The value of a reference modulo 65536, or the first name that has no value. -/
def resolve (resolver : Resolver) (reference : Reference) : Except Text Word :=
  (addMentions resolver.orPeripheral reference.offset reference.mentions).map Word.ofInt

end Reference

/-- A word, or the deferred computation of one. -/
inductive Value where
  | known (word : Word)
  | pending (reference : Reference)
deriving DecidableEq, Repr

namespace Value

/-- The word, if it is known. -/
def known? : Value → Option Word
  | known word => some word
  | pending _ => none

/-- Whether the value waits for a name. -/
def isPending : Value → Bool
  | known _ => false
  | pending _ => true

/-- The word that a value comes to; a name without a value is a fault. -/
def settle (resolver : Resolver) : Value → Except Fault Word
  | known word => .ok word
  | pending reference => (reference.resolve resolver).mapError .undefinedName

/-- The value after an attempt to settle it: unchanged if a name is still missing. -/
def settled (resolver : Resolver) (value : Value) : Value :=
  match value.settle resolver with
  | .ok word => .known word
  | .error _ => value

/-- The listing text of a value: four digits, or four question marks while it is pending. -/
def display : Value → Text
  | known word => word.hex
  | pending _ => "????".toList

end Value

end Msp430
