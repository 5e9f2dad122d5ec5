import Msp430.Program

/-!
# Settlement

The second pass over a program. First the constants that wait for later symbols
are settled: the lines are swept from top to bottom, and swept again for as long as
a sweep settles something. After that every remaining name has its final value or
none, and each line is completed on its own; a name without a value makes its line
a fault.
-/

namespace Msp430

namespace Line

/-- The line with its content replaced. -/
def withContent (line : Line) (content : Content) : Line :=
  { line with content }

end Line

namespace Settlement

/-- Settles the pending constants from top to bottom, each one as soon as it is reached. -/
def sweep (table : SymbolTable) : List Line → SymbolTable × List Line
  | [] => (table, [])
  | line :: rest =>
    match line.content with
    | .constant name (.pending reference) =>
      match reference.resolve table.value? with
      | .ok word =>
        let (table, rest) := sweep (table.settle name word) rest
        (table, line.withContent (.constant name (.known word)) :: rest)
      | .error _ =>
        let (table, rest) := sweep table rest
        (table, line :: rest)
    | _ =>
      let (table, rest) := sweep table rest
      (table, line :: rest)

/-- The number of constants that wait for a name. -/
def pendingCount (lines : List Line) : Nat :=
  lines.countP (fun line => line.content.isPendingConstant)

/-- Sweeps until a sweep settles nothing more. -/
def settle (table : SymbolTable) (lines : List Line) : SymbolTable × List Line :=
  let next := sweep table lines
  if pendingCount next.2 < pendingCount lines then settle next.1 next.2 else next
termination_by pendingCount lines

/-- The field with its pending names filled in. -/
def completeField (resolver : Resolver) (field : Field) : Except Fault Field :=
  if field.isPending then field.resolve resolver else .ok field

/-- The content with its pending names filled in. -/
def complete (resolver : Resolver) : Content → Content
  | .constant name value => .ofResult do
    let word ← value.settle resolver
    return .constant name (.known word)
  | .code fields => .ofResult do
    let fields ← fields.mapM (completeField resolver)
    return .code fields
  | content => content

/-- The finished program, given the lines and symbols of the first pass. -/
def finish (table : SymbolTable) (lines : List Line) : Program :=
  let (table, lines) := settle table lines
  ⟨lines.map fun line => line.withContent (complete table.value? line.content), table⟩

end Settlement

end Msp430
