import Msp430.Word

/-!
# Registers

Sixteen registers, written `R0` to `R15`. The first four have roles and aliases:
program counter, stack pointer, status register and constant generator.
-/

namespace Msp430

/-- A register number. -/
abbrev Register := BitVec 4

namespace Register

/-- The program counter. -/
def pc : Register := 0

/-- The stack pointer. -/
def sp : Register := 1

/-- The status register, through which absolute addresses are written. -/
def sr : Register := 2

/-- The constant generator. -/
def cg : Register := 3

/-- Reads `R` in either case and one or two digits with a value below sixteen. -/
def numbered? : Text → Option Register
  | [] => none
  | mark :: digits =>
    if (mark == 'R' || mark == 'r') && (digits.length == 1 || digits.length == 2) then
      ((Digits.read? 10 digits).filter (· < 16)).map (BitVec.ofNat 4)
    else none

/-- The capital that a character of an alias is matched as. The long s is a small letter of S. -/
def aliasCapital (c : Char) : Char :=
  if c == '\u017f' then 'S' else c.toUpper

/-- Reads an alias in any letter case. An alias is recognised by its capitals, long s included,
but only its ASCII spelling selects one of the first three registers; what remains is the last. -/
def alias? (word : Text) : Option Register :=
  if ["PC".toList, "SP".toList, "SR".toList, "CG".toList].contains (word.map aliasCapital) then
    some <|
      if Text.spells word "PC".toList then pc
      else if Text.spells word "SP".toList then sp
      else if Text.spells word "SR".toList then sr
      else cg
  else none

/-- Reads a register from a word that has nothing around it. -/
def ofWord? (word : Text) : Option Register :=
  numbered? word <|> alias? word

/-- Reads a register with blanks around it. -/
def read? (text : Text) : Option Register :=
  ofWord? (Text.trim text)

end Register

end Msp430
