import Msp430.Fault
import Msp430.Symbol.Name
import Msp430.Symbol.Peripheral

/-!
# The symbol table

Labels and constants of a program in the order of their names. A name is defined
once; later definitions are refused and change nothing. A constant may be defined
before its value is known and is settled afterwards.

Names are looked up by their key, the upper-case spelling, so letter case does
not matter. The first spelling is the one that is shown.
-/

namespace Msp430

/-- A label or constant. -/
structure Symbol where
  /-- The name as it was first written. -/
  name : Text
  /-- The value, once it is settled. -/
  value? : Option Word
  /-- The number of the defining line. -/
  line : Nat
deriving DecidableEq, Repr

namespace Symbol

/-- The spelling under which a symbol is found. -/
def key (symbol : Symbol) : Text :=
  Text.upper symbol.name

/-- The value of a symbol in the symbol listing. -/
def display (symbol : Symbol) : Text :=
  match symbol.value? with
  | some word => word.hex
  | none => "????".toList

/-- Puts a symbol in front of the first one with a greater key. -/
def insertByKey (symbol : Symbol) : List Symbol → List Symbol
  | [] => [symbol]
  | head :: rest =>
    if symbol.key < head.key then symbol :: head :: rest
    else head :: insertByKey symbol rest

end Symbol

/-- The symbols of a program. -/
structure SymbolTable where
  /-- The symbols in the order of their keys. -/
  symbols : List Symbol
deriving DecidableEq, Repr

namespace SymbolTable

/-- The table without symbols. -/
def empty : SymbolTable :=
  ⟨[]⟩

/-- The number of symbols. -/
def size (table : SymbolTable) : Nat :=
  table.symbols.length

/-- Whether there are no symbols. -/
def isEmpty (table : SymbolTable) : Bool :=
  table.symbols.isEmpty

/-- The symbol with the given name, in any letter case. -/
def find? (table : SymbolTable) (name : Text) : Option Symbol :=
  table.symbols.find? (fun symbol => symbol.key == Text.upper name)

/-- The value of a name, if it is defined and settled. -/
def value? (table : SymbolTable) : Resolver :=
  fun name => (table.find? name).bind Symbol.value?

/-- Adds a symbol, unless its name is no identifier or is already defined. -/
def define (table : SymbolTable) (symbol : Symbol) (kind : SymbolKind) :
    Except Fault SymbolTable :=
  if !Text.isIdentifier symbol.name then .error (.labelCharacter symbol.name)
  else if (table.find? symbol.name).isSome then .error (.duplicateSymbol symbol.name kind)
  else .ok ⟨symbol.insertByKey table.symbols⟩

/-- Gives a symbol its value. A name that is not defined is left undefined. -/
def settle (table : SymbolTable) (name : Text) (word : Word) : SymbolTable :=
  ⟨table.symbols.map fun symbol =>
    if symbol.key == Text.upper name then { symbol with value? := some word } else symbol⟩

/-- The symbols without a value, in table order. -/
def unsettled (table : SymbolTable) : List Symbol :=
  table.symbols.filter (fun symbol => symbol.value?.isNone)

/-- The width of the name column: the longest name and four blanks. -/
def nameWidth (table : SymbolTable) : Nat :=
  (table.symbols.map (fun symbol => symbol.name.length)).foldr max 0 + 4

/-- The symbol listing: a line for each symbol, with all values in one column. -/
def render (table : SymbolTable) : Text :=
  table.symbols.flatMap fun symbol =>
    Text.line (symbol.name.rightpad table.nameWidth ' ' ++ "     ".toList ++ symbol.display)

end SymbolTable

end Msp430
