import Msp430.Data
import Msp430.Program

/-!
# Layout

The first pass over a source. Every line is placed at the location counter, its
label is defined there, and its code is produced as far as the symbols seen so far
allow. The size of a line never depends on a symbol that is still missing, so the
addresses are final.

A line with a fault occupies no space. What it did before the fault stays: a label
remains defined, and an origin whose label is refused has moved the counter.
-/

namespace Msp430

/-- The state of the first pass. -/
structure Layout where
  /-- The location counter. -/
  counter : Word
  /-- The symbols defined so far. -/
  symbols : SymbolTable
deriving DecidableEq, Repr

namespace Layout

/-- The state before the first line. -/
def start (origin : Word) : Layout :=
  ⟨origin, .empty⟩

/-- Adds a symbol. -/
def define (layout : Layout) (symbol : Symbol) (kind : SymbolKind) : Except Fault Layout := do
  let symbols ← layout.symbols.define symbol kind
  return { layout with symbols }

/-- Defines the label of a line, if it has one, at the location counter. -/
def label (layout : Layout) (label? : Option Text) (line : Nat) : Except Fault Layout :=
  match label? with
  | some name => layout.define ⟨name, some layout.counter, line⟩ .label
  | none => .ok layout

/-- Defines the label of a line and goes on with the rest of it. -/
def labelThen (layout : Layout) (label? : Option Text) (line : Nat)
    (rest : Layout → Except Fault Content) : Layout × Except Fault Content :=
  match layout.label label? line with
  | .ok labelled => (labelled, rest labelled)
  | .error fault => (layout, .error fault)

/-- Defines a constant, with its value if that is known already. -/
def constant (layout : Layout) (name value : Text) (line : Nat) :
    Except Fault (Layout × Content) := do
  let value ← Expr.evaluate value layout.counter layout.symbols.value?
  let layout ← layout.define ⟨name, value.known?, line⟩ .constant
  return (layout, .constant name value)

/-- Places a statement at the location counter. -/
def place (layout : Layout) (line : Nat) : Statement → Layout × Except Fault Content
  | .blank => (layout, .ok .blank)
  | .comment => (layout, .ok .text)
  | .label name => layout.labelThen (some name) line fun _ => .ok .text
  | .constant name value =>
    match layout.constant name value line with
    | .ok (layout, content) => (layout, .ok content)
    | .error fault => (layout, .error fault)
  | .origin label? address =>
    match Data.immediate address layout.counter layout.symbols.value? with
    | .ok origin =>
      { layout with counter := origin }.labelThen label? line fun _ => .ok (.origin origin)
    | .error fault => (layout, .error fault)
  | .data label? directive items =>
    layout.labelThen label? line fun layout => do
      let fields ← Data.fields directive items layout.counter layout.symbols.value?
      return .code fields
  | .instruction label? operator operands =>
    layout.labelThen label? line fun layout => do
      let fields ← encode operator operands layout.counter layout.symbols.value?
      return .code fields

/-- Places a source line and moves the location counter past it. -/
def step (layout : Layout) (number : Nat) (source : Text) : Layout × Line :=
  let (placed, result) :=
    match Statement.classify source with
    | .ok statement => layout.place number statement
    | .error fault => (layout, .error fault)
  let content := Content.ofResult result
  ({ placed with counter := placed.counter + content.size },
    ⟨number, placed.counter, source, content⟩)

/-- Places source lines, the first of which has the given number. -/
def steps (layout : Layout) (number : Nat) : List Text → Layout × List Line
  | [] => (layout, [])
  | source :: rest =>
    let (next, line) := layout.step number source
    let (final, lines) := next.steps (number + 1) rest
    (final, line :: lines)

/-- Places a whole source. -/
def ofSource (origin : Word) (source : List Text) : Layout × List Line :=
  (start origin).steps 1 source

end Layout

end Msp430
