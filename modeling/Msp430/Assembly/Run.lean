import Msp430.Assembly.Layout
import Msp430.Assembly.Settlement

/-!
# Assembling

A run of the assembler: layout, then settlement. Nothing is carried from one run
to the next.
-/

namespace Msp430

/-- The location counter at the start of a run, unless another one is chosen. -/
def defaultOrigin : Word :=
  0x0200

/-- Assembles source lines from an origin. -/
def assemble (origin : Word) (source : List Text) : Program :=
  let (layout, lines) := Layout.ofSource origin source
  Settlement.finish layout.symbols lines

namespace Trace

/-- What is reported after the first pass. -/
def layout (layout : Layout) (lines : List Line) : Text :=
  Text.line ("pass 1: ".toList ++ Digits.decimal lines.length ++ " lines, ".toList ++
    Digits.decimal layout.symbols.size ++ " symbols, location counter at ".toList ++
    layout.counter.hex)

/-- What is reported about a symbol that was left without a value. -/
def unsettled (symbol : Symbol) : Text :=
  Text.line ("constant ".toList ++ symbol.name ++ " (line ".toList ++
    Digits.decimal symbol.line ++ ") could not be settled".toList)

/-- What is reported about object code. -/
def object (object : ObjectFile) : Text :=
  Text.line ("object: ".toList ++ Digits.decimal object.segments.length ++
    " segment(s), checksum ".toList ++ object.checksum.hex)

/-- What is reported after the second pass. -/
def program (program : Program) : Text :=
  program.symbols.unsettled.flatMap unsettled ++
    Text.line ("pass 2: ".toList ++ program.summary) ++
    (program.object?.map object).getD []

/-- The report of a run. -/
def ofSource (origin : Word) (source : List Text) : Text :=
  let (placed, lines) := Layout.ofSource origin source
  layout placed lines ++ program (Settlement.finish placed.symbols lines)

end Trace

end Msp430
