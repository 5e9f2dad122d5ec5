import Msp430.Text.Digits

/-!
# Machine words

The machine has sixteen-bit words and stores the low byte of a word first.
Arithmetic on words wraps around.
-/

namespace Msp430

/-- A sixteen-bit word: an address, an instruction word or a datum. -/
abbrev Word := BitVec 16

/-- An eight-bit byte. -/
abbrev Byte := BitVec 8

namespace Byte

/-- The two hexadecimal digits of a byte. -/
def hex (byte : Byte) : Text :=
  Digits.fixed 2 byte.toNat

end Byte

namespace Word

/-- The byte that is stored first. -/
def low (word : Word) : Byte :=
  word.extractLsb' 0 8

/-- The byte that is stored second. -/
def high (word : Word) : Byte :=
  word.extractLsb' 8 8

/-- The bytes of a word in memory order. -/
def bytes (word : Word) : List Byte :=
  [low word, high word]

/-- The word with its two bytes exchanged. -/
def swap (word : Word) : Word :=
  low word ++ high word

/-- The four hexadecimal digits of a word. -/
def hex (word : Word) : Text :=
  Digits.fixed 4 word.toNat

/-- The word that a number leaves modulo 65536. -/
def ofInt (number : Int) : Word :=
  BitVec.ofInt 16 number

end Word

end Msp430
