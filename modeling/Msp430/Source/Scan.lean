import Msp430.Text.Basic

/-!
# Scanning a line

Comments and list separators count only outside quotes. A quote is opened by an
apostrophe or a double quote and closed by the next occurrence of the same
character; there is no escape.
-/

namespace Msp430

namespace Scan

/-- Whether a character opens a quote. -/
def isQuoteMark (c : Char) : Bool :=
  c == '\'' || c == '"'

/-- The quote that is open after a character, given the one that was open before it. -/
def quoteAfter (open? : Option Char) (c : Char) : Option Char :=
  match open? with
  | none => if isQuoteMark c then some c else none
  | some mark => if c == mark then none else some mark

/-- The text up to the first semicolon outside quotes, starting inside the given quote. -/
def cutComment : Option Char → Text → Text
  | _, [] => []
  | open?, c :: rest =>
    if open?.isNone && c == ';' then [] else c :: cutComment (quoteAfter open? c) rest

/-- The text up to the first semicolon outside quotes. -/
def stripComment (text : Text) : Text :=
  cutComment none text

/-- The nesting depth after a character; parentheses inside quotes do not count. -/
def depthAfter (open? : Option Char) (depth : Int) (c : Char) : Int :=
  if open?.isSome then depth
  else if c == '(' then depth + 1
  else if c == ')' then depth - 1
  else depth

/-- Cuts a text at its commas outside quotes at depth zero, starting inside the given quote and
at the given depth. -/
def cutList : Option Char → Int → Text → List Text
  | _, _, [] => [[]]
  | open?, depth, c :: rest =>
    if open?.isNone && depth == 0 && c == ',' then [] :: cutList none 0 rest
    else Text.extendFirst c (cutList (quoteAfter open? c) (depthAfter open? depth c) rest)

/-- The parts of a list, without the blanks at their ends. -/
def splitList (text : Text) : List Text :=
  (cutList none 0 text).map Text.trim

end Scan

end Msp430
