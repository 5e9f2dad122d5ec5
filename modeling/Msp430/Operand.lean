import Msp430.Expr
import Msp430.Register

/-!
# Operands

The seven addressing modes of the machine. An operand is generic in the values
it carries: `Operand Expr` is an operand as it was read, `Operand Value` one
whose expression has been evaluated. Which mode a text is written in, and which
bits the mode contributes, never depends on the values.
-/

namespace Msp430

/-- An operand with values of type `α`. -/
inductive Operand (α : Type) where
  /-- The register itself, written `Rn`. -/
  | register (base : Register)
  /-- The cell at an offset from a register, written `X(Rn)`. -/
  | indexed (offset : α) (base : Register)
  /-- The cell at an address reached through the program counter, written as a name. -/
  | symbolic (target : α)
  /-- The cell at an absolute address, written `&X`. -/
  | absolute (target : α)
  /-- The cell that a register points to, written `@Rn`. -/
  | indirect (base : Register)
  /-- The cell that a register points to, the register advancing, written `@Rn+`. -/
  | autoincrement (base : Register)
  /-- The value itself, written `#X`. -/
  | immediate (value : α)
deriving DecidableEq, Repr

namespace Operand

variable {α β : Type}

/-- The operand with its value replaced. -/
def map (f : α → β) : Operand α → Operand β
  | register base => register base
  | indexed offset base => indexed (f offset) base
  | symbolic target => symbolic (f target)
  | absolute target => absolute (f target)
  | indirect base => indirect base
  | autoincrement base => autoincrement base
  | immediate value => immediate (f value)

/-- The register field of the instruction word. -/
def registerField : Operand α → Register
  | register base | indexed _ base | indirect base | autoincrement base => base
  | symbolic _ | immediate _ => Register.pc
  | absolute _ => Register.sr

/-- The two mode bits of a source operand. -/
def sourceMode : Operand α → BitVec 2
  | register _ => 0
  | indexed _ _ | symbolic _ | absolute _ => 1
  | indirect _ => 2
  | autoincrement _ | immediate _ => 3

/-- The mode bit of a destination operand; three of the modes have none. -/
def destinationMode? : Operand α → Option (BitVec 1)
  | register _ => some 0
  | indexed _ _ | symbolic _ | absolute _ => some 1
  | indirect _ | autoincrement _ | immediate _ => none

/-- The extension word that follows the instruction word, if the mode has one. -/
def extension? : Operand α → Option α
  | indexed value _ | symbolic value | absolute value | immediate value => some value
  | register _ | indirect _ | autoincrement _ => none

/-- Cuts a text of the form `X(Y)`, where `X` is not empty and holds no parenthesis. -/
def cutIndex? (text : Text) : Option (Text × Text) :=
  let offset := text.takeWhile (· != '(')
  match text.dropWhile (· != '(') with
  | [] => none
  | _ :: rest =>
    if !offset.isEmpty && !offset.contains ')' && rest.getLast? == some ')' then
      some (offset, rest.dropLast)
    else none

/-- Reads what follows `@`: a register, and perhaps a plus sign. No blanks are allowed. -/
def readIndirect? (text : Text) : Option (Operand α) :=
  match Register.ofWord? text with
  | some base => some (indirect base)
  | none =>
    if text.getLast? = some '+' then (Register.ofWord? text.dropLast).map autoincrement
    else none

/-- Reads an operand with blanks around it. -/
def read? (text : Text) : Option (Operand Expr) :=
  let text := Text.trim text
  match Register.ofWord? text with
  | some base => some (register base)
  | none =>
    match cutIndex? text with
    | some (offset, base) => do
      let offset ← Expr.read? offset
      let base ← Register.read? base
      return indexed offset base
    | none =>
      match text with
      | '@' :: rest => readIndirect? rest
      | '&' :: rest => (Expr.read? rest).map absolute
      | '#' :: rest => (Expr.read? rest).map immediate
      | _ => if Text.isIdentifier text then (Expr.read? text).map symbolic else none

/-- Reads a source operand, for which every mode will do. -/
def readSource (text : Text) : Except Fault (Operand Expr) :=
  match read? text with
  | some operand => .ok operand
  | none => .error (.operandSyntax .source)

/-- Reads a destination operand, which has to be in a mode with a destination bit. -/
def readDestination (text : Text) : Except Fault (Operand Expr) :=
  match (read? text).filter (fun operand => operand.destinationMode?.isSome) with
  | some operand => .ok operand
  | none => .error (.operandSyntax .destination)

/-- The operand with its expression evaluated on a line at the given address. -/
def evaluate (here : Word) (resolver : Resolver) (operand : Operand Expr) : Operand Value :=
  operand.map (Expr.value here resolver)

end Operand

end Msp430
