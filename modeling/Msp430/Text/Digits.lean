import Msp430.Text.Basic

/-!
# Positional numerals

Numbers up to base sixteen as text. Reading accepts digits of either case and
any number of leading zeros; writing uses upper case and either as many digits
as the number needs (`render`) or a given number of them (`fixed`).
-/

namespace Msp430

namespace Digits

/-- The digit that stands for a value below sixteen. -/
def symbol (value : Nat) : Char :=
  if value < 10 then Char.ofNat (48 + value) else Char.ofNat (55 + value)

/-- The value of a digit in the given base, if the character is one. -/
def value? (base : Nat) (c : Char) : Option Nat :=
  let value? :=
    if '0' ≤ c ∧ c ≤ '9' then some (c.toNat - 48)
    else if 'A' ≤ c ∧ c ≤ 'F' then some (c.toNat - 55)
    else if 'a' ≤ c ∧ c ≤ 'f' then some (c.toNat - 87)
    else none
  value?.filter (· < base)

/-- The number that a non-empty sequence of digits denotes. -/
def read? (base : Nat) (text : Text) : Option Nat :=
  if text.isEmpty then none
  else text.foldlM (fun total c => (value? base c).map (base * total + ·)) 0

/-- The digits of a number, without leading zeros. -/
def render (base value : Nat) : Text :=
  if base ≤ 1 ∨ value < base then [symbol value]
  else render base (value / base) ++ [symbol (value % base)]
termination_by value
decreasing_by exact Nat.div_lt_self (by omega) (by omega)

/-- The last `width` hexadecimal digits of a number, leading zeros included. -/
def fixed : (width value : Nat) → Text
  | 0, _ => []
  | width + 1, value => fixed width (value / 16) ++ [symbol (value % 16)]

/-- The decimal digits of a number. -/
def decimal (value : Nat) : Text :=
  render 10 value

end Digits

end Msp430
