import Msp430.Field
import Msp430.Mnemonic
import Msp430.Operand

/-!
# Instructions

Encoding an instruction goes in two steps. `Image.read` turns the operator and
the operands, as text, into an `Image`: the finished instruction word and the
expressions of its extension words, or a jump and the expression of its target.
`Image.fields` then evaluates the expressions. Addresses and names come in only
at the second step, so they never change the size of an instruction.
-/

namespace Msp430

/-- The operand texts of an instruction. -/
inductive Operands where
  | none
  | one (text : Text)
  | two (source destination : Text)
deriving DecidableEq, Repr

namespace Operands

/-- The operand of an instruction that takes exactly one. -/
def only (role : Part) : Operands → Except Fault Text
  | one text => .ok text
  | none => .error (.missing role)
  | two _ _ => .error (.operandSyntax .source)

end Operands

/-- An operator: the letters of a mnemonic and the size. -/
structure Operator where
  /-- The letters as written. -/
  letters : Text
  /-- Whether the operation works on bytes. -/
  isByte : Bool
deriving DecidableEq, Repr

namespace Operator

/-- Reads two to four letters and an optional suffix `.B` or `.W` in either case. -/
def read? (text : Text) : Option Operator :=
  let letters := text.takeWhile (· != '.')
  if letters.all Char.isAlpha && 2 ≤ letters.length && letters.length ≤ 4 then
    match text.dropWhile (· != '.') with
    | [] => some ⟨letters, false⟩
    | [_, size] =>
      if size == 'B' || size == 'b' then some ⟨letters, true⟩
      else if size == 'W' || size == 'w' then some ⟨letters, false⟩
      else none
    | _ => none
  else none

end Operator

/-- The source side of a two-operand instruction, or the operand of a one-operand instruction. -/
structure Source where
  /-- The register field. -/
  register : Register
  /-- The mode bits. -/
  mode : BitVec 2
  /-- The extension word, if there is one. -/
  extension? : Option Expr
deriving DecidableEq, Repr

namespace Source

/-- An operand in the source position. -/
def ofOperand (operand : Operand Expr) : Source :=
  ⟨operand.registerField, operand.sourceMode, operand.extension?⟩

/-- The source that an emulated instruction supplies. -/
def ofImplied (destination : Operand Expr) : Implied → Source
  | .constant register mode => ⟨register, mode, none⟩
  | .destination => ofOperand destination
  | .popStack => ⟨Register.sp, 3, none⟩

end Source

/-- An instruction before its expressions are evaluated. -/
inductive Image where
  /-- The instruction word and the extension words that follow it. -/
  | words (first : Word) (extensions : List Expr)
  /-- A jump, with its operand as written. -/
  | jump (condition : Condition) (target : Expr) (text : Text)
deriving DecidableEq, Repr

namespace Image

/-- The word of a two-operand instruction: opcode, source register, destination mode, size,
source mode and destination register. -/
def doubleWord (opcode : BitVec 4) (source : Register) (destinationMode size : BitVec 1)
    (sourceMode : BitVec 2) (destination : Register) : Word :=
  opcode ++ source ++ destinationMode ++ size ++ sourceMode ++ destination

/-- The word of a one-operand instruction: a mark, the opcode, size, mode and register. -/
def singleWord (opcode : BitVec 3) (size : BitVec 1) (mode : BitVec 2) (register : Register) :
    Word :=
  0b000100#6 ++ opcode ++ size ++ mode ++ register

/-- A two-operand instruction. -/
def double (opcode : BitVec 4) (size : BitVec 1) (source : Source)
    (destination : Operand Expr) : Image :=
  .words
    (doubleWord opcode source.register (destination.destinationMode?.getD 0) size source.mode
      destination.registerField)
    (source.extension?.toList ++ destination.extension?.toList)

/-- A one-operand instruction. -/
def single (opcode : BitVec 3) (size : BitVec 1) (source : Source) : Image :=
  .words (singleWord opcode size source.mode source.register) source.extension?.toList

/-- The instruction of a format with the given operands. -/
def ofFormat (size : BitVec 1) (operands : Operands) : Format → Except Fault Image
  | .double opcode =>
    match operands with
    | .two source destination => do
      let source ← Operand.readSource source
      let destination ← Operand.readDestination destination
      return double opcode size (.ofOperand source) destination
    | .one _ => .error (.missing .destination)
    | .none => .error (.missing .source)
  | .emulated opcode implied => do
    let text ← operands.only .destination
    let destination ← Operand.readDestination text
    return double opcode size (.ofImplied destination implied) destination
  | .branch => do
    let text ← operands.only .source
    let source ← Operand.readSource text
    return double 0x4 0 (.ofOperand source) (.register Register.pc)
  | .single opcode => do
    let text ← operands.only .source
    let source ← Operand.readSource text
    return single opcode size (.ofOperand source)
  | .jump condition => do
    let text ← operands.only .source
    match Expr.read? (Text.trim text) with
    | some target => return .jump condition target (Text.trim text)
    | none => throw (.operandSyntax .source)
  | .fixed word => return .words word []
  | .directive => throw .unrecognized

/-- Reads an instruction. -/
def read (operator : Text) (operands : Operands) : Except Fault Image :=
  match Operator.read? operator with
  | none => .error (.malformedOperator operator)
  | some ⟨letters, isByte⟩ =>
    match Mnemonic.find? letters with
    | none => .error (.unknownInstruction letters)
    | some mnemonic =>
      if isByte && !mnemonic.hasByteForm then .error (.byteOperation operator)
      else ofFormat (BitVec.ofBool isByte) operands mnemonic.format

/-- The fields of an instruction at an address. A jump whose target is known is encoded at once. -/
def fields (address : Word) (resolver : Resolver) : Image → Except Fault (List Field)
  | words first extensions =>
    .ok (.word (.known first) ::
      extensions.map fun extension => .word (extension.value address resolver))
  | jump condition target text =>
    match target.value address resolver with
    | .known target =>
      match Jump.encode? condition address target with
      | some word => .ok [.word (.known word)]
      | none => .error (.jumpRange text)
    | .pending target => .ok [.jump condition address target text]

end Image

/-- Encodes an instruction at an address as far as the resolver allows. -/
def encode (operator : Text) (operands : Operands) (address : Word) (resolver : Resolver) :
    Except Fault (List Field) := do
  let image ← Image.read operator operands
  image.fields address resolver

end Msp430
