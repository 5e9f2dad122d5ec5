import Mathlib.Algebra.GroupWithZero.Nat
import Mathlib.Data.List.TakeWhile
import Msp430.Proofs.Evaluation

/-! # Instruction words as bit fields

The three instruction formats put their parts at fixed places of a word and are
told apart by its top bits. `InstructionBits.ofWord?` takes a word apart by
position alone, with no knowledge of how it was made. Reading the first word of an
encoded instruction this way gives back the opcode of the mnemonic, the size, and
the registers and modes of the operands (`encode_bits`), and the parts add up to
the word (`InstructionBits.sum_of_ofWord?`), so that none of them reaches into the
place of another.
-/

namespace Msp430

/-- The parts of an instruction word. -/
inductive InstructionBits where
  /-- An instruction with two operands. -/
  | double (opcode : BitVec 4) (source : Register) (destinationMode size : BitVec 1)
      (sourceMode : BitVec 2) (destination : Register)
  /-- An instruction with one operand. The base is the word with the other parts cleared. -/
  | single (base : Word) (size : BitVec 1) (mode : BitVec 2) (register : Register)
  /-- A jump over a number of words. -/
  | jump (condition : Condition) (distance : BitVec 10)
deriving DecidableEq, Repr

namespace InstructionBits

/-- Takes an instruction word apart. The format follows from the top bits: `0001` for one operand,
`001` for a jump, four and above for two operands. -/
def ofWord? (word : Word) : Option InstructionBits :=
  if word.extractLsb' 12 4 = 0b0001#4 then
    some (.single (word.extractLsb' 7 9 ++ 0#7) (word.extractLsb' 6 1) (word.extractLsb' 4 2)
      (word.extractLsb' 0 4))
  else if word.extractLsb' 13 3 = 0b001#3 then
    some (.jump (word.extractLsb' 10 3) (word.extractLsb' 0 10))
  else if 4 ≤ (word.extractLsb' 12 4).toNat then
    some (.double (word.extractLsb' 12 4) (word.extractLsb' 8 4) (word.extractLsb' 7 1)
      (word.extractLsb' 6 1) (word.extractLsb' 4 2) (word.extractLsb' 0 4))
  else none

/-- The sum of the parts, each one at its place. -/
def sum : InstructionBits → Nat
  | double opcode source destinationMode size sourceMode destination =>
    opcode.toNat * 4096 + source.toNat * 256 + destinationMode.toNat * 128 + size.toNat * 64 +
      sourceMode.toNat * 16 + destination.toNat
  | single base size mode register =>
    base.toNat + size.toNat * 64 + mode.toNat * 16 + register.toNat
  | jump condition distance => 0x2000 + condition.toNat * 1024 + distance.toNat

theorem toNat_append {high low : Nat} (first : BitVec high) (second : BitVec low) :
    (first ++ second).toNat = first.toNat * 2 ^ low + second.toNat := by
  rw [BitVec.toNat_append, ← Nat.shiftLeft_add_eq_or_of_lt second.isLt, Nat.shiftLeft_eq]

theorem toNat_slice (word : Word) (start width : Nat) :
    (word.extractLsb' start width).toNat = word.toNat / 2 ^ start % 2 ^ width := by
  rw [BitVec.extractLsb'_toNat, Nat.shiftRight_eq_div_pow]

/-- **The parts do not overlap.** They add up to the word that they were taken from. -/
theorem sum_of_ofWord? {word : Word} {bits : InstructionBits} (taken : ofWord? word = some bits) :
    bits.sum = word.toNat := by
  have bound := word.isLt
  unfold ofWord? at taken
  split at taken
  case isTrue =>
    cases taken
    simp only [sum, toNat_append, toNat_slice, BitVec.toNat_ofNat]
    omega
  case isFalse =>
    split at taken
    case isTrue mark =>
      cases taken
      have top := congrArg BitVec.toNat mark
      simp only [toNat_slice, BitVec.toNat_ofNat] at top
      simp only [sum, toNat_slice]
      omega
    case isFalse =>
      split at taken
      case isTrue =>
        cases taken
        simp only [sum, toNat_slice]
        omega
      case isFalse => cases taken

/-! ### The three formats -/

/-- The base word of an instruction with one operand. -/
def singleBase (opcode : BitVec 3) : Word :=
  BitVec.ofNat 16 (0x1000 + opcode.toNat * 0x80)

theorem ofWord?_doubleWord {opcode : BitVec 4} (top : 4 ≤ opcode.toNat) (source : Register)
    (destinationMode size : BitVec 1) (sourceMode : BitVec 2) (destination : Register) :
    ofWord? (Image.doubleWord opcode source destinationMode size sourceMode destination) =
      some (.double opcode source destinationMode size sourceMode destination) := by
  have value : (Image.doubleWord opcode source destinationMode size sourceMode destination).toNat =
      sum (.double opcode source destinationMode size sourceMode destination) := by
    simp only [Image.doubleWord, sum, toNat_append]
    omega
  simp only [sum] at value
  have opcodeBits : (Image.doubleWord opcode source destinationMode size sourceMode
      destination).extractLsb' 12 4 = opcode := by
    apply BitVec.eq_of_toNat_eq
    rw [toNat_slice, value]
    omega
  have notSingle : opcode ≠ 0b0001#4 := by
    rintro rfl
    exact absurd top (by decide)
  have notJump : (Image.doubleWord opcode source destinationMode size sourceMode
      destination).extractLsb' 13 3 ≠ 0b001#3 := by
    intro same
    have mark := congrArg BitVec.toNat same
    rw [toNat_slice, value, BitVec.toNat_ofNat] at mark
    omega
  rw [ofWord?, opcodeBits, if_neg notSingle, if_neg notJump, if_pos top]
  simp only [Option.some.injEq, double.injEq, true_and]
  refine ⟨?_, ?_, ?_, ?_, ?_⟩ <;> apply BitVec.eq_of_toNat_eq <;> rw [toNat_slice, value] <;> omega

theorem ofWord?_singleWord (opcode : BitVec 3) (size : BitVec 1) (mode : BitVec 2)
    (register : Register) :
    ofWord? (Image.singleWord opcode size mode register) =
      some (.single (singleBase opcode) size mode register) := by
  have small := opcode.isLt
  have value : (Image.singleWord opcode size mode register).toNat =
      0x1000 + opcode.toNat * 128 + size.toNat * 64 + mode.toNat * 16 + register.toNat := by
    simp only [Image.singleWord, toNat_append, BitVec.toNat_ofNat]
    omega
  have mark : (Image.singleWord opcode size mode register).extractLsb' 12 4 = 0b0001#4 := by
    apply BitVec.eq_of_toNat_eq
    rw [toNat_slice, value, BitVec.toNat_ofNat]
    omega
  rw [ofWord?, if_pos mark]
  simp only [Option.some.injEq, single.injEq]
  refine ⟨?_, ?_, ?_, ?_⟩ <;> apply BitVec.eq_of_toNat_eq
  · rw [toNat_append, toNat_slice, value, singleBase, BitVec.toNat_ofNat, BitVec.toNat_ofNat]
    omega
  all_goals
    rw [toNat_slice, value]
    omega

example : ofWord? 0x12B0 = some (.single (singleBase 5) 0 3 Register.pc) := by decide

theorem ofWord?_of_jump {condition : Condition} {source target word : Word}
    (encoded : Jump.encode? condition source target = some word) :
    ∃ distance, ofWord? word = some (.jump condition distance) := by
  simp only [Jump.encode?] at encoded
  split at encoded
  case isFalse => cases encoded
  case isTrue =>
    cases encoded
    generalize BitVec.ofInt 10 (Jump.distance source target / 2) = distance
    have value : (0b001#3 ++ condition ++ distance).toNat =
        0x2000 + condition.toNat * 1024 + distance.toNat := by
      simp only [toNat_append, BitVec.toNat_ofNat]
      omega
    have notSingle : (0b001#3 ++ condition ++ distance).extractLsb' 12 4 ≠ 0b0001#4 := by
      intro same
      have top := congrArg BitVec.toNat same
      rw [toNat_slice, value, BitVec.toNat_ofNat] at top
      omega
    have mark : (0b001#3 ++ condition ++ distance).extractLsb' 13 3 = 0b001#3 := by
      apply BitVec.eq_of_toNat_eq
      rw [toNat_slice, value, BitVec.toNat_ofNat]
      omega
    refine ⟨distance, ?_⟩
    rw [ofWord?, if_neg notSingle, if_pos mark]
    simp only [Option.some.injEq, jump.injEq]
    constructor <;> apply BitVec.eq_of_toNat_eq <;> rw [toNat_slice, value] <;> omega

end InstructionBits

/-! ### What an instruction asks for -/

/-- The bits and the extension words that a format asks for with the given operands. The size is
that of the operator. A jump has a distance of its own, which this does not determine. -/
inductive Format.Prescribes (size : BitVec 1) :
    Format → Operands → InstructionBits → List Expr → Prop where
  | double {opcode : BitVec 4} {source destination : Text} {src dst : Operand Expr}
      {mode : BitVec 1} (sourceRead : Operand.read? source = some src)
      (destinationRead : Operand.read? destination = some dst)
      (allowed : dst.destinationMode? = some mode) :
      Prescribes size (.double opcode) (.two source destination)
        (.double opcode src.registerField mode size src.sourceMode dst.registerField)
        (src.extension?.toList ++ dst.extension?.toList)
  | emulated {opcode : BitVec 4} {implied : Implied} {text : Text} {dst : Operand Expr}
      {mode : BitVec 1} (destinationRead : Operand.read? text = some dst)
      (allowed : dst.destinationMode? = some mode) :
      Prescribes size (.emulated opcode implied) (.one text)
        (.double opcode (Source.ofImplied dst implied).register mode size
          (Source.ofImplied dst implied).mode dst.registerField)
        ((Source.ofImplied dst implied).extension?.toList ++ dst.extension?.toList)
  | branch {text : Text} {src : Operand Expr} (sourceRead : Operand.read? text = some src) :
      Prescribes size .branch (.one text)
        (.double 0x4 src.registerField 0 size src.sourceMode Register.pc) src.extension?.toList
  | single {opcode : BitVec 3} {text : Text} {src : Operand Expr}
      (sourceRead : Operand.read? text = some src) :
      Prescribes size (.single opcode) (.one text)
        (.single (InstructionBits.singleBase opcode) size src.sourceMode src.registerField)
        src.extension?.toList

theorem Operand.read?_of_readSource {text : Text} {operand : Operand Expr}
    (read : readSource text = .ok operand) : read? text = some operand := by
  unfold readSource at read
  split at read
  case h_1 found =>
    cases read
    exact found
  case h_2 => cases read

theorem Operand.read?_of_readDestination {text : Text} {operand : Operand Expr}
    (read : readDestination text = .ok operand) :
    read? text = some operand ∧ ∃ mode, operand.destinationMode? = some mode := by
  unfold readDestination at read
  split at read
  case h_1 found =>
    cases read
    rw [Option.filter_eq_some_iff] at found
    exact ⟨found.1, Option.isSome_iff_exists.mp found.2⟩
  case h_2 => cases read

theorem Operands.eq_one_of_only {operands : Operands} {role : Part} {text : Text}
    (only : operands.only role = .ok text) : operands = .one text := by
  cases operands with
  | none => cases only
  | one other => cases only; rfl
  | two source destination => cases only

/-- The opcode of an instruction with two operands, one of which may be implied. -/
def Format.opcode? : Format → Option (BitVec 4)
  | .double opcode | .emulated opcode _ => some opcode
  | .branch => some 0x4
  | .single _ | .jump _ | .fixed _ | .directive => none

namespace Mnemonic

theorem opcode_of_find? {word : Text} {mnemonic : Mnemonic}
    (found : find? word = some mnemonic) :
    ∀ opcode ∈ mnemonic.format.opcode?, 4 ≤ opcode.toNat := by
  have all : ∀ mnemonic ∈ table, ∀ opcode ∈ mnemonic.format.opcode?, 4 ≤ opcode.toNat := by decide
  exact all mnemonic (List.mem_of_find?_eq_some found)

/-- The branch, whose size bit is always clear, has no byte form. -/
theorem hasByteForm_of_find? {word : Text} {mnemonic : Mnemonic}
    (found : find? word = some mnemonic) (branch : mnemonic.format = .branch) :
    mnemonic.hasByteForm = false := by
  have all : ∀ mnemonic ∈ table, mnemonic.format = .branch → mnemonic.hasByteForm = false := by
    decide
  exact all mnemonic (List.mem_of_find?_eq_some found) branch

end Mnemonic

namespace Image

variable {size : BitVec 1} {operands : Operands} {format : Format} {image : Image}

/-- Instructions with operands have the bits and the extension words that their format asks for. -/
theorem prescribes_of_ofFormat (read : ofFormat size operands format = .ok image)
    (top : ∀ opcode ∈ format.opcode?, 4 ≤ opcode.toNat)
    (clear : format = .branch → size = 0) :
    (∃ word, format = .fixed word ∧ image = .words word []) ∨
      (∃ condition target text, format = .jump condition ∧ image = .jump condition target text) ∨
      ∃ first bits extensions, image = .words first extensions ∧
        format.Prescribes size operands bits extensions ∧
        InstructionBits.ofWord? first = some bits := by
  cases format with
  | fixed word =>
      cases read
      exact .inl ⟨word, rfl, rfl⟩
  | directive => cases read
  | jump condition =>
      obtain ⟨text, _, rest⟩ := bind_eq_ok_iff.mp read
      split at rest
      case h_1 target _ =>
        cases rest
        exact .inr (.inl ⟨condition, target, _, rfl, rfl⟩)
      case h_2 => cases rest
  | double opcode =>
      cases operands with
      | none => cases read
      | one text => cases read
      | two source destination =>
          obtain ⟨src, sourceRead, rest⟩ := bind_eq_ok_iff.mp read
          obtain ⟨dst, destinationRead, made⟩ := bind_eq_ok_iff.mp rest
          cases made
          obtain ⟨found, mode, allowed⟩ := Operand.read?_of_readDestination destinationRead
          refine .inr (.inr ⟨_, _, _, rfl,
            .double (Operand.read?_of_readSource sourceRead) found allowed, ?_⟩)
          rw [allowed]
          exact InstructionBits.ofWord?_doubleWord (top opcode rfl) _ _ _ _ _
  | emulated opcode implied =>
      obtain ⟨text, only, rest⟩ := bind_eq_ok_iff.mp read
      obtain ⟨dst, destinationRead, made⟩ := bind_eq_ok_iff.mp rest
      cases made
      cases Operands.eq_one_of_only only
      obtain ⟨found, mode, allowed⟩ := Operand.read?_of_readDestination destinationRead
      refine .inr (.inr ⟨_, _, _, rfl, .emulated found allowed, ?_⟩)
      rw [allowed]
      exact InstructionBits.ofWord?_doubleWord (top opcode rfl) _ _ _ _ _
  | branch =>
      obtain ⟨text, only, rest⟩ := bind_eq_ok_iff.mp read
      obtain ⟨src, sourceRead, made⟩ := bind_eq_ok_iff.mp rest
      cases made
      cases Operands.eq_one_of_only only
      cases clear rfl
      refine .inr (.inr ⟨_, _, _, rfl, ?_,
        InstructionBits.ofWord?_doubleWord (top 0x4 rfl) _ _ _ _ _⟩)
      rw [show (Operand.register Register.pc : Operand Expr).extension?.toList = [] from rfl,
        List.append_nil]
      exact .branch (Operand.read?_of_readSource sourceRead)
  | single opcode =>
      obtain ⟨text, only, rest⟩ := bind_eq_ok_iff.mp read
      obtain ⟨src, sourceRead, made⟩ := bind_eq_ok_iff.mp rest
      cases made
      cases Operands.eq_one_of_only only
      exact .inr (.inr ⟨_, _, _, rfl, .single (Operand.read?_of_readSource sourceRead),
        InstructionBits.ofWord?_singleWord opcode size _ _⟩)

end Image

/-- A jump is one field, which resolves to a word with the mark of a jump. -/
theorem Image.bits_of_jump {condition : Condition} {target : Expr} {text : Text} {address : Word}
    {resolver : Resolver} {fields : List Field}
    (produced : Image.fields address resolver (.jump condition target text) = .ok fields) :
    ∃ field, fields = [field] ∧ ∀ later resolved, field.resolve later = .ok resolved →
      ∃ word distance, resolved = .word (.known word) ∧
        InstructionBits.ofWord? word = some (.jump condition distance) := by
  simp only [Image.fields] at produced
  split at produced
  case h_1 reached _ =>
    split at produced
    case h_1 word encoded =>
      cases produced
      obtain ⟨distance, taken⟩ := InstructionBits.ofWord?_of_jump encoded
      refine ⟨_, rfl, ?_⟩
      intro later resolved done
      cases done
      exact ⟨word, distance, rfl, taken⟩
    case h_2 => cases produced
  case h_2 reference _ =>
    cases produced
    refine ⟨_, rfl, ?_⟩
    intro later resolved done
    rcases Field.resolve_cases done with ⟨_, _, ⟨⟩, _⟩ | ⟨_, _, ⟨⟩, _⟩ |
      ⟨_, _, _, _, reached, word, ⟨⟩, _, encoded, rfl⟩ | ⟨_, ⟨⟩, _⟩
    obtain ⟨distance, taken⟩ := InstructionBits.ofWord?_of_jump encoded
    exact ⟨word, distance, rfl, taken⟩

/-! ### Sizes -/

/-- Whether an operator is written with the suffix for bytes. -/
def HasByteSuffix (operator : Text) : Prop :=
  ∃ letters, operator = letters ++ ".B".toList ∨ operator = letters ++ ".b".toList

namespace Operator

theorem getLast?_of_hasByteSuffix {text : Text} (suffix : HasByteSuffix text) :
    text.getLast? = some 'B' ∨ text.getLast? = some 'b' := by
  obtain ⟨letters, rfl | rfl⟩ := suffix
  · exact .inl (by simp)
  · exact .inr (by simp)

/-- The letters of an operator are those in front of the point, and its size is that of its
suffix. -/
theorem read?_spec {text letters : Text} {isByte : Bool}
    (read : read? text = some ⟨letters, isByte⟩) :
    letters = text.takeWhile (· != '.') ∧ (isByte = true ↔ HasByteSuffix text) := by
  have whole := (List.takeWhile_append_dropWhile (p := (· != '.')) (l := text)).symm
  simp only [read?] at read
  split at read
  case isFalse => cases read
  case isTrue =>
    split at read
    case h_1 nothing =>
      cases read
      refine ⟨rfl, by simp, ?_⟩
      rintro ⟨letters, suffix⟩
      -- The text has no point at all.
      have noPoint := List.dropWhile_eq_nil_iff.mp nothing '.' (by
        rcases suffix with rfl | rfl <;> simp)
      simp at noPoint
    case h_2 point size rest =>
      have isPoint : point = '.' := by
        have kept := List.head_dropWhile_not (p := (· != '.')) (l := text) (by simp [rest])
        simpa [rest] using kept
      rw [rest, isPoint] at whole
      have last : text.getLast? = some size := by
        rw [whole]
        simp
      split at read
      case isTrue upper =>
        cases read
        refine ⟨rfl, fun _ => ⟨text.takeWhile (· != '.'), ?_⟩, fun _ => rfl⟩
        rcases Bool.or_eq_true_iff.mp upper with isB | isB
        · exact .inl (by rw [beq_iff_eq] at isB; rw [isB] at whole; exact whole)
        · exact .inr (by rw [beq_iff_eq] at isB; rw [isB] at whole; exact whole)
      case isFalse other =>
        split at read
        case isFalse => cases read
        case isTrue =>
          cases read
          refine ⟨rfl, by simp, ?_⟩
          intro suffix
          have final := getLast?_of_hasByteSuffix suffix
          rw [last, Option.some.injEq, Option.some.injEq] at final
          simp [final] at other
    case h_3 => cases read

end Operator

/-! ### Encoded instructions -/

/-- **Instruction words decode to what was written.** An operator that is encoded has a mnemonic
and a size, which is that of a byte exactly with the suffix for bytes. Apart from the instructions
that are one fixed word, there are two cases. An instruction with operands has a first word whose
bits are the opcode of its mnemonic, its size, and the registers and modes of its operands; the
extension words of the source and of the destination follow. A jump is one field, and whatever
word it is resolved to has the mark of a jump and the condition of its mnemonic. In all cases the
bits add up to the word. -/
theorem encode_bits {operator : Text} {operands : Operands} {address : Word} {resolver : Resolver}
    {fields : List Field} (encoded : encode operator operands address resolver = .ok fields) :
    ∃ mnemonic size, Mnemonic.find? (operator.takeWhile (· != '.')) = some mnemonic ∧
      (size = 1 ↔ HasByteSuffix operator) ∧
      ((∃ word, mnemonic.format = .fixed word ∧ fields = [.word (.known word)]) ∨
        (∃ first bits extensions, mnemonic.format.Prescribes size operands bits extensions ∧
          fields = .word (.known first) ::
            extensions.map (fun extension => .word (extension.value address resolver)) ∧
          InstructionBits.ofWord? first = some bits ∧ bits.sum = first.toNat) ∨
        ∃ condition field, mnemonic.format = .jump condition ∧ fields = [field] ∧
          ∀ later resolved, field.resolve later = .ok resolved →
            ∃ word distance, resolved = .word (.known word) ∧
              InstructionBits.ofWord? word = some (.jump condition distance) ∧
              (InstructionBits.jump condition distance).sum = word.toNat) := by
  obtain ⟨image, read, produced⟩ := bind_eq_ok_iff.mp encoded
  unfold Image.read at read
  split at read
  case h_1 => cases read
  case h_2 letters isByte operatorRead =>
    obtain ⟨rfl, suffix⟩ := Operator.read?_spec operatorRead
    split at read
    case h_1 => cases read
    case h_2 mnemonic found =>
      split at read
      case isTrue => cases read
      case isFalse sized =>
        have top := Mnemonic.opcode_of_find? found
        have clear : mnemonic.format = .branch → BitVec.ofBool isByte = 0 := by
          intro branch
          have noByte := Mnemonic.hasByteForm_of_find? found branch
          cases isByte with
          | false => rfl
          | true => simp [noByte] at sized
        refine ⟨mnemonic, BitVec.ofBool isByte, found, ?_, ?_⟩
        · rw [← suffix]
          cases isByte <;> decide
        · rcases Image.prescribes_of_ofFormat read top clear with ⟨word, fixed, rfl⟩ |
            ⟨condition, target, text, jump, rfl⟩ | ⟨first, bits, extensions, rfl, asked, taken⟩
          · cases produced
            exact .inl ⟨word, fixed, rfl⟩
          · obtain ⟨field, single, resolves⟩ := Image.bits_of_jump produced
            refine .inr (.inr ⟨condition, field, jump, single, ?_⟩)
            intro later resolved done
            obtain ⟨word, distance, shape, taken⟩ := resolves later resolved done
            exact ⟨word, distance, shape, taken, InstructionBits.sum_of_ofWord? taken⟩
          · cases produced
            exact .inr (.inl ⟨first, bits, extensions, asked, rfl, taken,
              InstructionBits.sum_of_ofWord? taken⟩)

/-- A byte instruction with a forward reference in its source and an index in its destination. -/
theorem encode_bits_indexed :
    ∃ first, encode "add.b".toList (.two "#LATER+1".toList "4(R6)".toList) 0x0200 (fun _ => none) =
        .ok [.word (.known first), .word (.pending ⟨1, [⟨"LATER".toList, .plus⟩]⟩),
          .word (.known 4)] ∧
      InstructionBits.ofWord? first = some (.double 0x5 Register.pc 1 1 3 6) := by
  have encoded : encode "add.b".toList (.two "#LATER+1".toList "4(R6)".toList) 0x0200
      (fun _ => none) = .ok [.word (.known 0x50F6),
        .word (.pending ⟨1, [⟨"LATER".toList, .plus⟩]⟩), .word (.known 4)] := by decide +kernel
  have mnemonic : Mnemonic.find? ("add.b".toList.takeWhile (· != '.')) =
      some ⟨"ADD".toList, .double 0x5, true⟩ := by decide +kernel
  have source : Operand.read? "#LATER+1".toList =
      some (.immediate [⟨.plus, .name "LATER".toList⟩, ⟨.plus, .literal 1⟩]) := by decide +kernel
  have destination : Operand.read? "4(R6)".toList =
      some (.indexed [⟨.plus, .literal 4⟩] 6) := by decide +kernel
  obtain ⟨_, size, found, suffix, kinds⟩ := encode_bits encoded
  have byte : size = 1 := suffix.mpr ⟨"add".toList, .inr rfl⟩
  rw [mnemonic] at found
  cases found
  rcases kinds with ⟨_, ⟨⟩, _⟩ | ⟨first, bits, extensions, asked, shape, taken, _⟩ | ⟨_, _, ⟨⟩, _⟩
  cases asked with
  | double sourceRead destinationRead allowed =>
      rw [source] at sourceRead
      rw [destination] at destinationRead
      cases sourceRead
      cases destinationRead
      cases allowed
      cases shape
      exact ⟨0x50F6, encoded, byte ▸ taken⟩

end Msp430
