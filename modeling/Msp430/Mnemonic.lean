import Msp430.Register

/-!
# Mnemonics

Every operator of the source language and how its machine code is put together.
The machine has three instruction formats; the emulated instructions are
two-operand instructions with a source operand of their own.
-/

namespace Msp430

/-- The source operand that an emulated instruction supplies. -/
inductive Implied where
  /-- A constant: the register and the mode bits that generate it. -/
  | constant (register : Register) (mode : BitVec 2)
  /-- The destination operand, read as a source. -/
  | destination
  /-- The top of the stack, which is removed. -/
  | popStack
deriving DecidableEq, Repr

namespace Implied

/-- The constant 0. -/
def zero : Implied := .constant Register.cg 0

/-- The constant 1. -/
def one : Implied := .constant Register.cg 1

/-- The constant 2. -/
def two : Implied := .constant Register.cg 2

/-- The constant with every bit set. -/
def allOnes : Implied := .constant Register.cg 3

end Implied

/-- How an operator turns its operands into machine code. -/
inductive Format where
  /-- A two-operand instruction with its opcode. -/
  | double (opcode : BitVec 4)
  /-- A one-operand instruction with its opcode. -/
  | single (opcode : BitVec 3)
  /-- A jump with its condition. -/
  | jump (condition : BitVec 3)
  /-- A two-operand instruction whose source is implied; the operand is the destination. -/
  | emulated (opcode : BitVec 4) (source : Implied)
  /-- A move of the operand into the program counter. -/
  | branch
  /-- A complete instruction word. -/
  | fixed (word : Word)
  /-- No instruction, but a directive to the assembler. -/
  | directive
deriving DecidableEq, Repr

/-- An operator of the source language. -/
structure Mnemonic where
  /-- The operator in upper case. -/
  name : Text
  /-- How it is encoded. -/
  format : Format
  /-- Whether it can work on bytes. -/
  hasByteForm : Bool
deriving DecidableEq, Repr

namespace Mnemonic

/-- The operators of the source language. -/
def table : List Mnemonic :=
  [⟨"DB".toList, .directive, false⟩,
   ⟨"DS".toList, .directive, false⟩,
   ⟨"DW".toList, .directive, false⟩,
   ⟨"ORG".toList, .directive, false⟩,
   ⟨"EQU".toList, .directive, false⟩,
   ⟨"END".toList, .directive, false⟩,
   ⟨"ADC".toList, .emulated 0x6 .zero, true⟩,
   ⟨"ADD".toList, .double 0x5, true⟩,
   ⟨"ADDC".toList, .double 0x6, true⟩,
   ⟨"AND".toList, .double 0xF, true⟩,
   ⟨"BIC".toList, .double 0xC, true⟩,
   ⟨"BIS".toList, .double 0xD, true⟩,
   ⟨"BIT".toList, .double 0xB, true⟩,
   ⟨"BR".toList, .branch, false⟩,
   ⟨"CALL".toList, .single 5, false⟩,
   ⟨"CLR".toList, .emulated 0x4 .zero, true⟩,
   ⟨"CLRC".toList, .fixed 0xC312, false⟩,
   ⟨"CLRN".toList, .fixed 0xC222, false⟩,
   ⟨"CLRZ".toList, .fixed 0xC322, false⟩,
   ⟨"CMP".toList, .double 0x9, true⟩,
   ⟨"DADC".toList, .emulated 0xA .zero, true⟩,
   ⟨"DADD".toList, .double 0xA, true⟩,
   ⟨"DEC".toList, .emulated 0x8 .one, true⟩,
   ⟨"DECD".toList, .emulated 0x8 .two, true⟩,
   ⟨"DINT".toList, .fixed 0xC232, false⟩,
   ⟨"EINT".toList, .fixed 0xD232, false⟩,
   ⟨"INC".toList, .emulated 0x5 .one, true⟩,
   ⟨"INCD".toList, .emulated 0x5 .two, true⟩,
   ⟨"INV".toList, .emulated 0xE .allOnes, true⟩,
   ⟨"JC".toList, .jump 3, false⟩,
   ⟨"JHS".toList, .jump 3, false⟩,
   ⟨"JEQ".toList, .jump 1, false⟩,
   ⟨"JZ".toList, .jump 1, false⟩,
   ⟨"JGE".toList, .jump 5, false⟩,
   ⟨"JL".toList, .jump 6, false⟩,
   ⟨"JMP".toList, .jump 7, false⟩,
   ⟨"JN".toList, .jump 4, false⟩,
   ⟨"JNC".toList, .jump 2, false⟩,
   ⟨"JLO".toList, .jump 2, false⟩,
   ⟨"JNE".toList, .jump 0, false⟩,
   ⟨"JNZ".toList, .jump 0, false⟩,
   ⟨"MOV".toList, .double 0x4, true⟩,
   ⟨"NOP".toList, .fixed 0x4303, false⟩,
   ⟨"POP".toList, .emulated 0x4 .popStack, true⟩,
   ⟨"PUSH".toList, .single 4, true⟩,
   ⟨"RET".toList, .fixed 0x4130, false⟩,
   ⟨"RETI".toList, .fixed 0x1300, false⟩,
   ⟨"RLA".toList, .emulated 0x5 .destination, true⟩,
   ⟨"RLC".toList, .emulated 0x6 .destination, true⟩,
   ⟨"RRA".toList, .single 2, true⟩,
   ⟨"RRC".toList, .single 0, true⟩,
   ⟨"SBC".toList, .emulated 0x7 .zero, true⟩,
   ⟨"SETC".toList, .fixed 0xD312, false⟩,
   ⟨"SETN".toList, .fixed 0xD222, false⟩,
   ⟨"SETZ".toList, .fixed 0xD322, false⟩,
   ⟨"SUB".toList, .double 0x8, true⟩,
   ⟨"SUBC".toList, .double 0x7, true⟩,
   ⟨"SWPB".toList, .single 1, false⟩,
   ⟨"SXT".toList, .single 3, false⟩,
   ⟨"TST".toList, .emulated 0x9 .zero, true⟩,
   ⟨"XOR".toList, .double 0xE, true⟩]

/-- The operator with the given letters, in any case and without a size suffix. -/
def find? (word : Text) : Option Mnemonic :=
  table.find? (fun mnemonic => mnemonic.name == Text.upper word)

/-- Whether a word is an operator, with or without a suffix behind a point. -/
def isReserved (word : Text) : Bool :=
  (find? (word.takeWhile (· != '.'))).isSome

end Mnemonic

end Msp430
