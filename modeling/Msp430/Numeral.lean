import Msp430.Word

/-!
# Literals

The two kinds of literal of the source language: numbers in hexadecimal, binary
or decimal notation, and quoted characters. A number has to fit into a word.
-/

namespace Msp430

namespace Numeral

/-- The word that digits of the given base denote; one plus sign may come first. -/
def unsigned? (base : Nat) (text : Text) : Option Word :=
  let digits := match text with
    | '+' :: rest => rest
    | _ => text
  ((Digits.read? base digits).filter (· < 65536)).map (BitVec.ofNat 16)

/-- The digits behind a hexadecimal mark, if the text starts with one. -/
def afterHexMark? : Text → Option Text
  | '0' :: 'x' :: rest => some rest
  | '0' :: 'X' :: rest => some rest
  | _ => none

/-- Reads `0x` or `0X` and hexadecimal digits, `%` and binary digits, or decimal digits. -/
def read? (text : Text) : Option Word :=
  let text := Text.trim text
  match afterHexMark? text with
  | some digits => unsigned? 16 digits
  | none =>
    match text with
    | '%' :: digits => unsigned? 2 digits
    | c :: _ => if c.isDigit then unsigned? 10 text else none
    | [] => none

/-- Reads one ASCII character between two apostrophes; the character may be an apostrophe. -/
def character? : Text → Option Byte
  | ['\'', c, '\''] => if c.toNat < 128 then some (BitVec.ofNat 8 c.toNat) else none
  | _ => none

end Numeral

end Msp430
