/-!
# Text

Source lines, names and printed output are sequences of characters. This file
holds the operations on them that carry no knowledge of assembly: the blanks,
trimming, upper case and cutting off the first word.

Blanks follow the Unicode property `White_Space`; letter case follows ASCII.
-/

namespace Msp430

/-- Text as the sequence of its characters. -/
abbrev Text := List Char

namespace Text

/-- The characters with the Unicode property `White_Space`. -/
def isBlank (c : Char) : Bool :=
  let code := c.toNat
  (9 ≤ code && code ≤ 13) || code == 0x20 || code == 0x85 || code == 0xA0 || code == 0x1680 ||
    (0x2000 ≤ code && code ≤ 0x200A) || code == 0x2028 || code == 0x2029 || code == 0x202F ||
    code == 0x205F || code == 0x3000

/-- The text without its leading blanks. -/
def trimStart (text : Text) : Text :=
  text.dropWhile isBlank

/-- The text without its trailing blanks. -/
def trimEnd (text : Text) : Text :=
  (text.reverse.dropWhile isBlank).reverse

/-- The text without the blanks at either end. -/
def trim (text : Text) : Text :=
  trimEnd (trimStart text)

/-- The text with its ASCII letters in upper case. -/
def upper (text : Text) : Text :=
  text.map Char.toUpper

/-- Whether a word spells a keyword, given in upper case, in any mix of cases. -/
def spells (word keyword : Text) : Bool :=
  upper word == keyword

/-- The first word of a text, and what follows it with the blanks at its ends removed. -/
def splitWord (text : Text) : Text × Text :=
  let start := trimStart text
  (start.takeWhile (fun c => !isBlank c), trim (start.dropWhile (fun c => !isBlank c)))

/-- Puts a character in front of the first part of a list. -/
def extendFirst (c : Char) : List Text → List Text
  | [] => [[c]]
  | part :: parts => (c :: part) :: parts

/-- A line of output: the text and the character that ends it. -/
def line (text : Text) : Text :=
  text ++ ['\n']

end Text

end Msp430
