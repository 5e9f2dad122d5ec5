import Msp430.ObjectFile
import Msp430.Symbol.Table

/-!
# Programs

The result of a run: the lines with what they turned into, and the symbols. The
listing is always complete. Object code exists only for a program without faults.
-/

namespace Msp430

/-- An assembled program. -/
structure Program where
  /-- The lines, one for each source line. -/
  lines : List Line
  /-- The labels and constants. -/
  symbols : SymbolTable
deriving DecidableEq, Repr

namespace Program

/-- The number of lines that could not be assembled. -/
def faultCount (program : Program) : Nat :=
  program.lines.countP Line.isFault

/-- The object code of a program without faults. -/
def object? (program : Program) : Option ObjectFile :=
  if program.lines.any Line.isFault then none else some (ObjectFile.ofLines program.lines)

/-- The listing: the lines, and the symbols after an empty line. -/
def listing (program : Program) : Text :=
  program.lines.flatMap (fun line => Text.line line.display) ++
    if program.symbols.isEmpty then [] else Text.line [] ++ program.symbols.render

/-- A program in one line of text. -/
def summary (program : Program) : Text :=
  "Program: ".toList ++ Digits.decimal program.lines.length ++ " lines, ".toList ++
    Digits.decimal program.symbols.size ++ " symbols, ".toList ++
    Digits.decimal program.faultCount ++ " errors".toList

end Program

end Msp430
