import Msp430.Word

/-!
# Jump words

A jump word holds the mark `001`, a three-bit condition and the distance to its
target: a signed ten-bit number of words, counted from the instruction that
follows the jump. Addresses wrap around, so a jump near the end of memory can
reach its beginning.
-/

namespace Msp430

/-- The condition field of a jump. -/
abbrev Condition := BitVec 3

namespace Jump

/-- The signed distance in bytes from the instruction after the jump to the target. -/
def distance (source target : Word) : Int :=
  (target - (source + 2)).toInt

/-- The word of a jump from one address to another, unless the target is at an odd distance or
out of reach. -/
def encode? (condition : Condition) (source target : Word) : Option Word :=
  let distance := distance source target
  if distance % 2 = 0 ∧ -1024 ≤ distance ∧ distance ≤ 1022 then
    some (0b001#3 ++ condition ++ BitVec.ofInt 10 (distance / 2))
  else none

end Jump

end Msp430
