import Msp430.Proofs.InstructionBits
import Msp430.Proofs.RecasedInstructions

/-! # Emulated instructions

Fourteen mnemonics stand for two-operand instructions of the machine and supply one of
the operands themselves: the destination once more, the top of the stack, a constant, or
the program counter as the destination of a branch. Most of these operands can also be
written out, and `Emulation.table` says how.

A supplied operand bypasses the reading of operands. Still nothing is lost by it: an
emulated instruction is encoded exactly if its core instruction is, and to the same
fields (`encode_emulated`). Only the constant 1 cannot be written, since an operand with
its register and mode bits brings an index along; `INC` and `DEC` have the fields of a
core instruction with other mode bits.
-/

namespace Msp430

/-! ### Spelled operators -/

/-- Whether an operator spells a mnemonic with a size, in any letter case. -/
def Operator.Spells (operator name : Text) (isByte : Bool) : Prop :=
  ∃ suffix ∈ (if isByte then [".B".toList] else [[], ".W".toList]),
    Text.upper operator = name ++ suffix

/-- Whether a text is two to four letters. -/
def IsLetters (name : Text) : Prop :=
  name.all Char.isAlpha = true ∧ 2 ≤ name.length ∧ name.length ≤ 4

instance (name : Text) : Decidable (IsLetters name) :=
  inferInstanceAs (Decidable (_ ∧ _))

theorem Mnemonic.isLetters_of_find? {word : Text} {mnemonic : Mnemonic}
    (found : find? word = some mnemonic) : IsLetters mnemonic.name := by
  have all : ∀ mnemonic ∈ table, IsLetters mnemonic.name := by decide
  exact all mnemonic (List.mem_of_find?_eq_some found)

namespace Operator

theorem read?_append {letters suffix : Text} {isByte : Bool} (isLetters : IsLetters letters)
    (sized : suffix ∈ if isByte then [".B".toList] else [[], ".W".toList]) :
    read? (letters ++ suffix) = some ⟨letters, isByte⟩ := by
  obtain ⟨alpha, least, most⟩ := isLetters
  have plain : ∀ c ∈ letters, (c != '.') = true := by
    intro c member
    rw [bne_iff_ne]
    rintro rfl
    exact absurd (List.all_eq_true.mp alpha '.' member) (by decide)
  rw [read?, List.takeWhile_append_of_pos plain, List.dropWhile_append_of_pos plain]
  cases isByte with
  | true =>
      rw [if_pos rfl, List.mem_singleton] at sized
      subst sized
      simp [alpha, least, most]
  | false =>
      rw [if_neg (by decide), List.mem_pair] at sized
      rcases sized with rfl | rfl
      · simp [alpha, least, most]
      · simp [alpha, least, most]

/-- A spelled operator is read as the letters of its mnemonic and its size. -/
theorem Spells.read? {operator name : Text} {isByte : Bool}
    (spelled : Spells operator name isByte) (isLetters : IsLetters name) :
    ∃ letters, read? operator = some ⟨letters, isByte⟩ ∧ Text.upper letters = name := by
  obtain ⟨suffix, sized, capitals⟩ := spelled
  have recased := read?_upper operator
  rw [capitals, read?_append isLetters sized] at recased
  obtain ⟨⟨letters, size⟩, found, same⟩ := Option.map_eq_some_iff.mp recased.symm
  obtain ⟨capital, rfl⟩ := Operator.mk.inj same
  exact ⟨letters, found, capital⟩

end Operator

/-- The instruction of a spelled operator is that of the format of its mnemonic. -/
theorem Image.read_of_spells {operator name : Text} {format : Format} {hasByteForm isByte : Bool}
    (found : Mnemonic.find? name = some ⟨name, format, hasByteForm⟩)
    (spelled : Operator.Spells operator name isByte) (sized : isByte = true → hasByteForm = true)
    (operands : Operands) :
    Image.read operator operands = ofFormat (BitVec.ofBool isByte) operands format := by
  obtain ⟨letters, read, capitals⟩ := spelled.read? (Mnemonic.isLetters_of_find? found)
  have lettersFound : Mnemonic.find? letters = some ⟨name, format, hasByteForm⟩ := by
    rw [← Mnemonic.find?_upper, capitals, found]
  have allowed : ¬ (isByte && !hasByteForm) = true := by
    cases isByte with
    | false => simp
    | true => simp [sized rfl]
  simp only [Image.read, read, lettersFound, if_neg allowed]

/-! ### Supplied and written sources -/

/-- The source that an emulated instruction supplies, unless it is the destination. -/
def Implied.fixed? : Implied → Option Source
  | .constant register mode => some ⟨register, mode, none⟩
  | .destination => none
  | .popStack => some ⟨Register.sp, 3, none⟩

theorem Source.ofImplied_eq (destination : Operand Expr) (implied : Implied) :
    ofImplied destination implied = implied.fixed?.getD (ofOperand destination) := by
  cases implied <;> rfl

/-- Whether a source operand is the one that an emulated instruction supplies. It is left out if
it is the destination. -/
def Implied.IsWritten (implied : Implied) (source? : Option Text) : Prop :=
  source?.map (fun text => (Operand.read? text).map Source.ofOperand) = implied.fixed?.map some

instance (implied : Implied) (source? : Option Text) : Decidable (implied.IsWritten source?) :=
  inferInstanceAs (Decidable (_ = _))

/-- Whatever a text is read as may be a source. -/
theorem Operand.readSource_of_read? {text : Text} {operand : Operand Expr}
    (found : read? text = some operand) : readSource text = .ok operand := by
  simp only [readSource, found]

/-- With any destination, the written source is read as the supplied one. -/
theorem Implied.IsWritten.exists_source {implied : Implied} {source? : Option Text}
    (written : implied.IsWritten source?) {destination : Text} {dst : Operand Expr}
    (destinationRead : Operand.readDestination destination = .ok dst) :
    ∃ src, Operand.readSource (source?.getD destination) = .ok src ∧
      Source.ofOperand src = Source.ofImplied dst implied := by
  rw [Source.ofImplied_eq]
  cases source? with
  | none =>
      have supplied : implied.fixed? = none := by simpa [IsWritten] using written.symm
      rw [supplied]
      exact ⟨dst, Operand.readSource_of_read? (Operand.read?_of_readDestination destinationRead).1,
        rfl⟩
  | some text =>
      obtain ⟨fixed, supplied, read⟩ := Option.map_eq_some_iff.mp written.symm
      obtain ⟨src, found, made⟩ := Option.map_eq_some_iff.mp read.symm
      rw [supplied]
      exact ⟨src, Operand.readSource_of_read? found, made⟩

namespace Image

variable {size : BitVec 1} {opcode : BitVec 4} {image : Image}

theorem ofFormat_emulated_eq_ok_iff {implied : Implied} {destination : Text} :
    ofFormat size (.one destination) (.emulated opcode implied) = .ok image ↔
      ∃ dst, Operand.readDestination destination = .ok dst ∧
        image = double opcode size (.ofImplied dst implied) dst := by
  constructor
  · intro read
    obtain ⟨text, only, rest⟩ := bind_eq_ok_iff.mp read
    cases only
    obtain ⟨dst, destinationRead, made⟩ := bind_eq_ok_iff.mp rest
    exact ⟨dst, destinationRead, (Except.ok.inj made).symm⟩
  · rintro ⟨dst, destinationRead, rfl⟩
    simp only [ofFormat, Operands.only, destinationRead, bind, Except.bind, pure, Except.pure]

theorem ofFormat_double_eq_ok_iff {source destination : Text} :
    ofFormat size (.two source destination) (.double opcode) = .ok image ↔
      ∃ src dst, Operand.readSource source = .ok src ∧
        Operand.readDestination destination = .ok dst ∧
        image = double opcode size (.ofOperand src) dst := by
  constructor
  · intro read
    obtain ⟨src, sourceRead, rest⟩ := bind_eq_ok_iff.mp read
    obtain ⟨dst, destinationRead, made⟩ := bind_eq_ok_iff.mp rest
    exact ⟨src, dst, sourceRead, destinationRead, (Except.ok.inj made).symm⟩
  · rintro ⟨src, dst, sourceRead, destinationRead, rfl⟩
    simp only [ofFormat, sourceRead, destinationRead, bind, Except.bind, pure, Except.pure]

/-- **A supplied source may be written.** An emulated instruction is the core instruction with the
written source, or with the destination in its place. -/
theorem ofFormat_emulated_iff {implied : Implied} {source? : Option Text}
    (written : implied.IsWritten source?) (destination : Text) :
    ofFormat size (.one destination) (.emulated opcode implied) = .ok image ↔
      ofFormat size (.two (source?.getD destination) destination) (.double opcode) =
        .ok image := by
  rw [ofFormat_emulated_eq_ok_iff, ofFormat_double_eq_ok_iff]
  constructor
  · rintro ⟨dst, destinationRead, rfl⟩
    obtain ⟨src, sourceRead, supplied⟩ := written.exists_source destinationRead
    exact ⟨src, dst, sourceRead, destinationRead, by rw [supplied]⟩
  · rintro ⟨src, dst, sourceRead, destinationRead, rfl⟩
    obtain ⟨other, otherRead, supplied⟩ := written.exists_source destinationRead
    rw [sourceRead] at otherRead
    cases otherRead
    exact ⟨dst, destinationRead, by rw [supplied]⟩

/-! ### The constant 1 -/

theorem sourceMode_doubleWord (opcode : BitVec 4) (source : Register)
    (destinationMode size : BitVec 1) (sourceMode : BitVec 2) (destination : Register) :
    (doubleWord opcode source destinationMode size sourceMode destination).extractLsb' 4 2 =
      sourceMode := by
  apply BitVec.eq_of_toNat_eq
  rw [InstructionBits.toNat_slice, doubleWord]
  simp only [InstructionBits.toNat_append]
  omega

/-- Setting the lower mode bit of a source changes nothing else. -/
theorem doubleWord_one (opcode : BitVec 4) (source : Register) (destinationMode size : BitVec 1)
    (destination : Register) :
    doubleWord opcode source destinationMode size 1 destination =
      doubleWord opcode source destinationMode size 0 destination ||| 0x0010 := by
  have mask : (0x0010 : Word) = 0#10 ++ 1#2 ++ 0#4 := by decide
  have joined : ∀ front : BitVec 10, front ++ 1#2 ++ destination =
      (front ++ 0#2 ++ destination) ||| (0#10 ++ 1#2 ++ 0#4) := by
    intro front
    rw [BitVec.or_append, BitVec.or_append, BitVec.or_zero, BitVec.zero_or, BitVec.or_zero]
  rw [mask]
  exact joined (opcode ++ source ++ destinationMode ++ size)

/-- An instruction on the constant 1 is the instruction on the constant generator itself with the
mode bits changed. -/
theorem ofFormat_one_iff {destination : Text} :
    ofFormat size (.one destination) (.emulated opcode .one) = .ok image ↔
      ∃ first extensions,
        ofFormat size (.two "CG".toList destination) (.double opcode) =
          .ok (.words first extensions) ∧
        first.extractLsb' 4 2 = 0 ∧ image = .words (first ||| 0x0010) extensions := by
  have constant : Operand.readSource "CG".toList = .ok (.register Register.cg) := by
    decide +kernel
  have changed : ∀ dst : Operand Expr, double opcode size (.ofImplied dst .one) dst =
      .words (doubleWord opcode Register.cg (dst.destinationMode?.getD 0) size 0
        dst.registerField ||| 0x0010) dst.extension?.toList := by
    intro dst
    rw [← doubleWord_one]
    rfl
  rw [ofFormat_emulated_eq_ok_iff]
  simp only [ofFormat_double_eq_ok_iff, constant]
  constructor
  · rintro ⟨dst, destinationRead, rfl⟩
    exact ⟨_, _, ⟨_, dst, rfl, destinationRead, rfl⟩, sourceMode_doubleWord _ _ _ _ _ _,
      changed dst⟩
  · rintro ⟨first, extensions, ⟨src, dst, ⟨⟩, destinationRead, ⟨⟩⟩, _, rfl⟩
    exact ⟨dst, destinationRead, (changed dst).symm⟩

/-! ### The branch -/

/-- A branch is a move into the program counter. -/
theorem ofFormat_branch (source : Text) :
    ofFormat 0 (.one source) .branch = ofFormat 0 (.two source "PC".toList) (.double 0x4) := by
  have counter : Operand.readDestination "PC".toList = .ok (.register Register.pc) := by
    decide +kernel
  simp only [ofFormat, Operands.only, counter, bind, Except.bind]

end Image

/-! ### Emulations -/

/-- A two-operand instruction that a mnemonic stands for. -/
structure Emulation where
  /-- The mnemonic. -/
  name : Text
  /-- The mnemonic of the two-operand instruction. -/
  core : Text
  /-- Its source operand, or none if that is the destination. -/
  source? : Option Text
deriving DecidableEq, Repr

namespace Emulation

/-- The source operand of the two-operand instruction with the given destination. -/
def source (emulation : Emulation) (destination : Text) : Text :=
  emulation.source?.getD destination

/-- The mnemonics that stand for two-operand instructions with a source that can be written. -/
def table : List Emulation :=
  [⟨"RLA".toList, "ADD".toList, none⟩,
   ⟨"RLC".toList, "ADDC".toList, none⟩,
   ⟨"POP".toList, "MOV".toList, some "@SP+".toList⟩,
   ⟨"CLR".toList, "MOV".toList, some "CG".toList⟩,
   ⟨"TST".toList, "CMP".toList, some "CG".toList⟩,
   ⟨"ADC".toList, "ADDC".toList, some "CG".toList⟩,
   ⟨"SBC".toList, "SUBC".toList, some "CG".toList⟩,
   ⟨"DADC".toList, "DADD".toList, some "CG".toList⟩,
   ⟨"INCD".toList, "ADD".toList, some "@CG".toList⟩,
   ⟨"DECD".toList, "SUB".toList, some "@CG".toList⟩,
   ⟨"INV".toList, "XOR".toList, some "@CG+".toList⟩]

/-- The two mnemonics of an emulation have the same opcode, and the source that the one supplies
is what the other reads. -/
theorem exists_formats : ∀ emulation ∈ table, ∃ opcode implied,
    Mnemonic.find? emulation.name = some ⟨emulation.name, .emulated opcode implied, true⟩ ∧
      Mnemonic.find? emulation.core = some ⟨emulation.core, .double opcode, true⟩ ∧
      implied.IsWritten emulation.source? := by
  simp only [table, List.forall_mem_cons, List.not_mem_nil, false_implies, implies_true, and_true]
  refine ⟨⟨0x5, .destination, ?_⟩, ⟨0x6, .destination, ?_⟩, ⟨0x4, .popStack, ?_⟩,
    ⟨0x4, .zero, ?_⟩, ⟨0x9, .zero, ?_⟩, ⟨0x6, .zero, ?_⟩, ⟨0x7, .zero, ?_⟩, ⟨0xA, .zero, ?_⟩,
    ⟨0x5, .two, ?_⟩, ⟨0x8, .two, ?_⟩, ⟨0xE, .allOnes, ?_⟩⟩ <;> decide +kernel

/-- The mnemonics that stand for two-operand instructions on the constant 1, each with the
mnemonic of that instruction. -/
def unitTable : List (Text × Text) :=
  [("INC".toList, "ADD".toList), ("DEC".toList, "SUB".toList)]

theorem exists_unit_formats : ∀ unit ∈ unitTable, ∃ opcode,
    Mnemonic.find? unit.1 = some ⟨unit.1, .emulated opcode .one, true⟩ ∧
      Mnemonic.find? unit.2 = some ⟨unit.2, .double opcode, true⟩ := by
  simp only [unitTable, List.forall_mem_cons, List.not_mem_nil, false_implies, implies_true,
    and_true]
  refine ⟨⟨0x5, ?_⟩, ⟨0x8, ?_⟩⟩ <;> decide

end Emulation

/-- **Emulated instructions are core instructions.** In both sizes, each emulation is encoded
exactly if its core instruction is, and to the same fields. An increment or decrement by one has
the fields of an addition or subtraction of the constant generator, except that the mode bits of
the source are 01 in place of 00. A branch has the outcome of a move into the program counter,
faults included. -/
theorem encode_emulated (operand : Text) (address : Word) (resolver : Resolver) :
    (∀ emulation ∈ Emulation.table, ∀ isByte operator coreOperator,
      Operator.Spells operator emulation.name isByte →
      Operator.Spells coreOperator emulation.core isByte →
      ∀ fields, encode operator (.one operand) address resolver = .ok fields ↔
        encode coreOperator (.two (emulation.source operand) operand) address resolver =
          .ok fields) ∧
    (∀ name core, (name, core) ∈ Emulation.unitTable → ∀ isByte operator coreOperator,
      Operator.Spells operator name isByte → Operator.Spells coreOperator core isByte →
      ∀ fields, encode operator (.one operand) address resolver = .ok fields ↔
        ∃ first rest, encode coreOperator (.two "CG".toList operand) address resolver =
            .ok (.word (.known first) :: rest) ∧
          first.extractLsb' 4 2 = 0 ∧ fields = .word (.known (first ||| 0x0010)) :: rest) ∧
    ∀ operator coreOperator, Operator.Spells operator "BR".toList false →
      Operator.Spells coreOperator "MOV".toList false →
      encode operator (.one operand) address resolver =
        encode coreOperator (.two operand "PC".toList) address resolver := by
  refine ⟨?_, ?_, ?_⟩
  · intro emulation listed isByte operator coreOperator spelled coreSpelled fields
    obtain ⟨opcode, implied, emulated, double, written⟩ :=
      Emulation.exists_formats emulation listed
    unfold encode
    rw [Image.read_of_spells emulated spelled fun _ => rfl,
      Image.read_of_spells double coreSpelled fun _ => rfl, bind_eq_ok_iff, bind_eq_ok_iff]
    refine exists_congr fun image => and_congr_left fun _ => ?_
    exact Image.ofFormat_emulated_iff written operand
  · intro name core listed isByte operator coreOperator spelled coreSpelled fields
    obtain ⟨opcode, emulated, double⟩ := Emulation.exists_unit_formats _ listed
    unfold encode
    rw [Image.read_of_spells emulated spelled fun _ => rfl,
      Image.read_of_spells double coreSpelled fun _ => rfl]
    simp only [bind_eq_ok_iff, Image.ofFormat_one_iff]
    constructor
    · rintro ⟨_, ⟨first, extensions, read, clear, rfl⟩, ⟨⟩⟩
      exact ⟨first, _, ⟨_, read, rfl⟩, clear, rfl⟩
    · rintro ⟨first, rest, ⟨image, read, produced⟩, clear, rfl⟩
      obtain ⟨src, dst, _, _, rfl⟩ := Image.ofFormat_double_eq_ok_iff.mp read
      cases produced
      exact ⟨_, ⟨_, _, read, clear, rfl⟩, rfl⟩
  · intro operator coreOperator spelled coreSpelled
    have branch : Mnemonic.find? "BR".toList = some ⟨"BR".toList, .branch, false⟩ := by decide
    have move : Mnemonic.find? "MOV".toList = some ⟨"MOV".toList, .double 0x4, true⟩ := by
      decide
    unfold encode
    rw [Image.read_of_spells branch spelled nofun,
      Image.read_of_spells move coreSpelled fun _ => rfl]
    exact congrArg (· >>= Image.fields address resolver) (Image.ofFormat_branch operand)

/-- A rotation in bytes, an increment and a branch, all of them on a name without a value. -/
theorem encode_emulated_unresolved :
    let encodes (operator : String) (operands : Operands) :=
      encode operator.toList operands 0x0200 fun _ => none
    let later : Text := "LATER".toList
    let extension : Field := .word (.pending ⟨0, [⟨later, .plus⟩]⟩)
    (Operator.Spells "rLc.b".toList "RLC".toList true ∧
      Operator.Spells "Addc.B".toList "ADDC".toList true ∧
      encodes "Addc.B" (.two later later) = .ok [.word (.known 0x60D0), extension, extension] ∧
      encodes "rLc.b" (.one later) = .ok [.word (.known 0x60D0), extension, extension]) ∧
    (Operator.Spells "inc".toList "INC".toList false ∧
      Operator.Spells "ADD.w".toList "ADD".toList false ∧
      encodes "ADD.w" (.two "CG".toList later) = .ok [.word (.known 0x5380), extension] ∧
      encodes "inc" (.one later) = .ok [.word (.known 0x5390), extension]) ∧
    Operator.Spells "Br".toList "BR".toList false ∧
      Operator.Spells "mov".toList "MOV".toList false ∧
      encodes "Br" (.one later) = encodes "mov" (.two later "PC".toList) := by
  intro encodes later extension
  obtain ⟨cores, units, branch⟩ := encode_emulated later 0x0200 fun _ => none
  have rotation : Operator.Spells "rLc.b".toList "RLC".toList true :=
    ⟨".B".toList, by decide, by decide⟩
  have addition : Operator.Spells "Addc.B".toList "ADDC".toList true :=
    ⟨".B".toList, by decide, by decide⟩
  have increment : Operator.Spells "inc".toList "INC".toList false := ⟨[], by decide, by decide⟩
  have sum : Operator.Spells "ADD.w".toList "ADD".toList false :=
    ⟨".W".toList, by decide, by decide⟩
  have jump : Operator.Spells "Br".toList "BR".toList false := ⟨[], by decide, by decide⟩
  have move : Operator.Spells "mov".toList "MOV".toList false := ⟨[], by decide, by decide⟩
  have added : encodes "Addc.B" (.two later later) =
      .ok [.word (.known 0x60D0), extension, extension] := by decide +kernel
  have summed : encodes "ADD.w" (.two "CG".toList later) =
      .ok [.word (.known 0x5380), extension] := by decide +kernel
  refine ⟨⟨rotation, addition, added, ?_⟩, ⟨increment, sum, summed, ?_⟩, jump, move,
    branch _ _ jump move⟩
  · exact (cores ⟨"RLC".toList, "ADDC".toList, none⟩ (by decide) true _ _ rotation addition _).mpr
      added
  · exact (units "INC".toList "ADD".toList (by decide) false _ _ increment sum _).mpr
      ⟨0x5380, [extension], summed, by decide, by decide⟩

end Msp430
