import Msp430.Word

/-!
# Resolvers and peripheral names

A resolver gives names their values. The peripheral registers and constants of
the chip have values of their own, which stand in wherever a resolver has none.
-/

namespace Msp430

/-- What is known about the values of names. -/
abbrev Resolver := Text → Option Word

namespace Peripheral

/-- The names that the chip defines, in upper case, with their values. -/
def table : List (Text × Word) :=
  [("P1IN".toList, 0x0020#16),
   ("P1OUT".toList, 0x0021#16),
   ("P1DIR".toList, 0x0022#16),
   ("P1REN".toList, 0x0027#16),
   ("P2IN".toList, 0x0028#16),
   ("P2OUT".toList, 0x0029#16),
   ("P2DIR".toList, 0x002A#16),
   ("WDTCTL".toList, 0x0120#16),
   ("WDTPW".toList, 0x5A00#16),
   ("WDTHOLD".toList, 0x0080#16)]

/-- The value that the chip gives to a name, in any letter case. -/
def value? : Resolver :=
  fun name => table.lookup (Text.upper name)

end Peripheral

namespace Resolver

/-- The resolver that falls back on the peripheral names. -/
def orPeripheral (resolver : Resolver) : Resolver :=
  fun name => resolver name <|> Peripheral.value? name

end Resolver

end Msp430
