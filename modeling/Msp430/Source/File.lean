import Msp430.Text.Basic

/-!
# Source files

A source file is a sequence of lines. A line feed ends a line, and so does a
carriage return with a line feed; the last line need not be ended.
-/

namespace Msp430

namespace SourceFile

/-- The text without one carriage return at its end. -/
def dropReturn (text : Text) : Text :=
  if text.getLast? = some '\r' then text.dropLast else text

/-- The lines of a text. Only ended lines lose a carriage return, and nothing after the last
line feed is no line. -/
def lines (text : Text) : List Text :=
  let pieces := text.splitOn '\n'
  pieces.dropLast.map dropReturn ++
    (pieces.getLast?.filter (fun rest => !rest.isEmpty)).toList

/-- The lines of a file, if it holds UTF-8. -/
def ofBytes? (bytes : ByteArray) : Option (List Text) :=
  (String.fromUTF8? bytes).map fun text => lines text.toList

end SourceFile

end Msp430
