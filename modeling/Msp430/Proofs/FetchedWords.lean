import Msp430.Proofs.InstructionShape

/-! # The words that the machine reads

The machine decides from an instruction word how many words it reads behind it. Mode
01 reads an index, except that the constant generator has none; mode 11 reads a value
if the register is the program counter; the destination has a mode bit of its own.
`InstructionBits.fetched` counts these words from the bits alone.

The assembler emits as many words as the machine reads, save for two operands that the
machine takes for something else (`Operand.IsMisread`): `@PC+` is how a value is
encoded, so a word is read that was not emitted, and with `X(CG)` the mode bits stand
for the constant 1, so the emitted index is not read. As neither can be told from the
instruction word, these are also the only sources with which two instructions can
share their first word and differ in length (`encode_fetched`).
-/

namespace Msp430

/-! ### What the machine reads -/

namespace InstructionBits

/-- The number of words that the machine reads for a source in a register and mode. -/
def sourceFetch (register : Register) (mode : BitVec 2) : Nat :=
  if mode = 1 ∧ register ≠ Register.cg ∨ mode = 3 ∧ register = Register.pc then 1 else 0

@[simp]
theorem sourceFetch_zero (register : Register) : sourceFetch register 0#2 = 0 := by
  simp [sourceFetch]

@[simp]
theorem sourceFetch_one (register : Register) :
    sourceFetch register 1#2 = if register = Register.cg then 0 else 1 := by
  simp [sourceFetch]

@[simp]
theorem sourceFetch_two (register : Register) : sourceFetch register 2#2 = 0 := by
  simp [sourceFetch]

@[simp]
theorem sourceFetch_three (register : Register) :
    sourceFetch register 3#2 = if register = Register.pc then 1 else 0 := by
  simp [sourceFetch]

/-- The number of words that the machine reads behind an instruction word. -/
def fetched : InstructionBits → Nat
  | double _ source destinationMode _ sourceMode _ =>
    sourceFetch source sourceMode + if destinationMode = 1 then 1 else 0
  | single _ _ mode register => sourceFetch register mode
  | jump _ _ => 0

end InstructionBits

namespace Operand

variable {α : Type}

/-- Whether the machine takes a source operand for something else than what is written. -/
def IsMisread : Operand α → Prop
  | autoincrement base => base = Register.pc
  | indexed _ base => base = Register.cg
  | register _ | symbolic _ | absolute _ | indirect _ | immediate _ => False

/-- A source has the words that the machine reads for it exactly if it is not misread. -/
theorem length_extension_eq_sourceFetch_iff (operand : Operand α) :
    operand.extension?.toList.length =
        InstructionBits.sourceFetch operand.registerField operand.sourceMode ↔
      ¬ operand.IsMisread := by
  cases operand with
  | register base => simp [extension?, sourceMode, IsMisread]
  | indexed offset base => simp [extension?, sourceMode, registerField, IsMisread]
  | symbolic target =>
      have notConstant : Register.pc ≠ Register.cg := by decide
      simp [extension?, sourceMode, registerField, IsMisread, notConstant]
  | absolute target =>
      have notConstant : Register.sr ≠ Register.cg := by decide
      simp [extension?, sourceMode, registerField, IsMisread, notConstant]
  | indirect base => simp [extension?, sourceMode, IsMisread]
  | autoincrement base => simp [extension?, sourceMode, registerField, IsMisread]
  | immediate value => simp [extension?, sourceMode, registerField, IsMisread]

/-- A destination has an extension word exactly if its mode bit is set. -/
theorem length_extension_of_destinationMode? {operand : Operand α} {mode : BitVec 1}
    (allowed : operand.destinationMode? = some mode) :
    operand.extension?.toList.length = if mode = 1 then 1 else 0 := by
  cases operand with
  | register base => cases allowed; rfl
  | indexed offset base => cases allowed; rfl
  | symbolic target => cases allowed; rfl
  | absolute target => cases allowed; rfl
  | indirect base => cases allowed
  | autoincrement base => cases allowed
  | immediate value => cases allowed

end Operand

/-! ### What an instruction emits -/

namespace Format

/-- The source operand of an instruction, where it is written. An emulated instruction writes its
source only if that is also its destination. -/
def source? (operands : Operands) : Format → Option (Operand Expr)
  | .double _ =>
    match operands with
    | .two source _ => Operand.read? source
    | .none | .one _ => none
  | .single _ | .branch | .emulated _ .destination =>
    match operands with
    | .one text => Operand.read? text
    | .none | .two _ _ => none
  | .emulated _ (.constant _ _) | .emulated _ .popStack | .jump _ | .fixed _ | .directive => none

/-- Whether the machine reads no word for what a format brings with it. -/
def isSelfContained : Format → Bool
  | .fixed word => (InstructionBits.ofWord? word).map InstructionBits.fetched == some 0
  | .emulated _ (.constant register mode) => InstructionBits.sourceFetch register mode == 0
  | _ => true

/-- An instruction has the extension words that the machine reads exactly if its source is not
misread. -/
theorem Prescribes.length_eq_fetched_iff {format : Format} {size : BitVec 1} {operands : Operands}
    {bits : InstructionBits} {extensions : List Expr}
    (asked : format.Prescribes size operands bits extensions)
    (contained : format.isSelfContained = true) :
    extensions.length = bits.fetched ↔
      ∀ operand, format.source? operands = some operand → ¬ operand.IsMisread := by
  cases asked with
  | double sourceRead destinationRead allowed =>
      rw [List.length_append, Operand.length_extension_of_destinationMode? allowed,
        InstructionBits.fetched, Nat.add_right_cancel_iff,
        Operand.length_extension_eq_sourceFetch_iff, source?, sourceRead]
      simp
  | @emulated opcode implied text dst mode destinationRead allowed =>
      rw [List.length_append, Operand.length_extension_of_destinationMode? allowed,
        InstructionBits.fetched, Nat.add_right_cancel_iff]
      cases implied with
      | constant register mode =>
          have nothing : InstructionBits.sourceFetch register mode = 0 := by
            simpa [isSelfContained] using contained
          simp [Source.ofImplied, source?, nothing]
      | destination =>
          have same := Operand.length_extension_eq_sourceFetch_iff dst
          simpa [Source.ofImplied, Source.ofOperand, source?, destinationRead] using same
      | popStack =>
          have notCounter : Register.sp ≠ Register.pc := by decide
          simp [Source.ofImplied, source?, notCounter]
  | branch sourceRead =>
      rw [InstructionBits.fetched, if_neg (by decide), Nat.add_zero,
        Operand.length_extension_eq_sourceFetch_iff, source?, sourceRead]
      simp
  | single sourceRead =>
      rw [InstructionBits.fetched, Operand.length_extension_eq_sourceFetch_iff, source?,
        sourceRead]
      simp

end Format

theorem Mnemonic.isSelfContained_of_find? {word : Text} {mnemonic : Mnemonic}
    (found : find? word = some mnemonic) : mnemonic.format.isSelfContained = true := by
  have all : ∀ mnemonic ∈ table, mnemonic.format.isSelfContained = true := by decide
  exact all mnemonic (List.mem_of_find?_eq_some found)

/-! ### Encoded instructions -/

/-- Whether the source of an instruction, if one is written, is not misread. -/
def ReadsAsWritten (operator : Text) (operands : Operands) : Prop :=
  ∀ mnemonic operand, Mnemonic.find? (operator.takeWhile (· != '.')) = some mnemonic →
    mnemonic.format.source? operands = some operand → ¬ operand.IsMisread

/-- Whether a field is a word, at once or when its names have values. -/
def Field.Becomes (field : Field) (word : Word) : Prop :=
  ∃ resolver, field.resolve resolver = .ok (.word (.known word))

theorem Field.becomes_known_iff {datum word : Word} :
    (Field.word (.known datum)).Becomes word ↔ word = datum := by
  constructor
  · rintro ⟨resolver, done⟩
    cases done
    rfl
  · rintro rfl
    exact ⟨fun _ => none, rfl⟩

theorem readsAsWritten_iff {operator : Text} {operands : Operands} {mnemonic : Mnemonic}
    (found : Mnemonic.find? (operator.takeWhile (· != '.')) = some mnemonic) :
    ReadsAsWritten operator operands ↔
      ∀ operand, mnemonic.format.source? operands = some operand → ¬ operand.IsMisread := by
  constructor
  · intro reads operand written
    exact reads mnemonic operand found written
  · intro reads other operand foundOther written
    rw [found] at foundOther
    cases foundOther
    exact reads operand written

/-- The words behind an instruction word are those that the machine reads exactly if no source is
misread. -/
theorem exists_bits_of_encode {operator : Text} {operands : Operands} {address : Word}
    {resolver : Resolver} {fields : List Field}
    (encoded : encode operator operands address resolver = .ok fields) :
    ∃ first extensions, fields = first :: extensions ∧
      (¬ IsJump operator → ∃ word, first = .word (.known word)) ∧
      ∀ word, first.Becomes word → ∃ bits, InstructionBits.ofWord? word = some bits ∧
        (extensions.length = bits.fetched ↔ ReadsAsWritten operator operands) := by
  obtain ⟨image, read, produced⟩ := bind_eq_ok_iff.mp encoded
  obtain ⟨mnemonic, size, found, kinds⟩ := Image.read_cases read
  have contained := Mnemonic.isSelfContained_of_find? found
  rw [readsAsWritten_iff found]
  rcases kinds with ⟨word, fixed, rfl⟩ | ⟨condition, target, text, jump, rfl⟩ |
    ⟨first, bits, extensions, rfl, asked, taken⟩
  · cases produced
    refine ⟨_, [], rfl, fun _ => ⟨word, rfl⟩, ?_⟩
    intro same becomes
    cases Field.becomes_known_iff.mp becomes
    rw [fixed] at contained
    obtain ⟨bits, taken, nothing⟩ := Option.map_eq_some_iff.mp (beq_iff_eq.mp contained)
    refine ⟨bits, taken, ?_⟩
    simp [fixed, Format.source?, nothing]
  · obtain ⟨field, rfl, resolves⟩ := Image.bits_of_jump produced
    refine ⟨field, [], rfl, fun other => (other ⟨mnemonic, condition, found, jump⟩).elim, ?_⟩
    rintro word ⟨later, resolved⟩
    obtain ⟨same, distance, ⟨⟩, taken⟩ := resolves later _ resolved
    refine ⟨_, taken, ?_⟩
    simp [jump, Format.source?, InstructionBits.fetched]
  · cases produced
    refine ⟨_, _, rfl, fun _ => ⟨first, rfl⟩, ?_⟩
    intro same becomes
    cases Field.becomes_known_iff.mp becomes
    refine ⟨bits, taken, ?_⟩
    rw [List.length_map]
    exact asked.length_eq_fetched_iff contained

/-- **The machine reads what the assembler emits.** An encoded instruction is a first field, a
known word unless it is a jump, and its extensions. Whatever word the first field is or becomes,
the machine reads as many words behind it as there are extensions, exactly if the source of the
instruction is not misread. So any two instructions whose sources are not misread have the same
length if they have the same first word. -/
theorem encode_fetched {operator : Text} {operands : Operands} {address : Word}
    {resolver : Resolver} {fields : List Field}
    (encoded : encode operator operands address resolver = .ok fields) :
    ∃ first extensions, fields = first :: extensions ∧
      (¬ IsJump operator → ∃ word, first = .word (.known word)) ∧
      (∀ word, first.Becomes word → ∃ bits, InstructionBits.ofWord? word = some bits ∧
        (extensions.length = bits.fetched ↔ ReadsAsWritten operator operands)) ∧
      (ReadsAsWritten operator operands →
        ∀ otherOperator otherOperands otherAddress otherResolver otherFirst otherExtensions word,
          encode otherOperator otherOperands otherAddress otherResolver =
            .ok (otherFirst :: otherExtensions) →
          ReadsAsWritten otherOperator otherOperands →
          first.Becomes word → Field.Becomes otherFirst word →
          otherExtensions.length = extensions.length) := by
  obtain ⟨first, extensions, rfl, known, counted⟩ := exists_bits_of_encode encoded
  refine ⟨first, extensions, rfl, known, counted, ?_⟩
  intro reads _ _ _ _ otherFirst otherExtensions word otherEncoded otherReads becomes otherBecomes
  obtain ⟨bits, taken, count⟩ := counted word becomes
  obtain ⟨_, _, ⟨⟩, _, otherCounted⟩ := exists_bits_of_encode otherEncoded
  -- Both counts are read off the same bits.
  obtain ⟨otherBits, otherTaken, otherCount⟩ := otherCounted word otherBecomes
  rw [taken] at otherTaken
  cases otherTaken
  rw [otherCount.mpr otherReads, count.mpr reads]

/-- The constant generator may have an index in a destination. -/
theorem encode_fetched_destination :
    encode "mov".toList (.two "LATER".toList "4(CG)".toList) 0x0200 (fun _ => none) =
        .ok [.word (.known 0x4093), .word (.pending ⟨0, [⟨"LATER".toList, .plus⟩]⟩),
          .word (.known 4)] ∧
      ∃ bits, InstructionBits.ofWord? 0x4093 = some bits ∧ bits.fetched = 2 := by
  have encoded : encode "mov".toList (.two "LATER".toList "4(CG)".toList) 0x0200 (fun _ => none) =
      .ok [.word (.known 0x4093), .word (.pending ⟨0, [⟨"LATER".toList, .plus⟩]⟩),
        .word (.known 4)] := by decide +kernel
  have mnemonic : Mnemonic.find? ("mov".toList.takeWhile (· != '.')) =
      some ⟨"MOV".toList, .double 0x4, true⟩ := by decide +kernel
  have source : Operand.read? "LATER".toList =
      some (.symbolic [⟨.plus, .name "LATER".toList⟩]) := by decide +kernel
  have reads : ReadsAsWritten "mov".toList (.two "LATER".toList "4(CG)".toList) := by
    rw [readsAsWritten_iff mnemonic, Format.source?, source]
    rintro _ ⟨⟩ ⟨⟩
  refine ⟨encoded, ?_⟩
  obtain ⟨first, extensions, ⟨⟩, _, counted, _⟩ := encode_fetched encoded
  obtain ⟨bits, taken, count⟩ := counted 0x4093 (Field.becomes_known_iff.mpr rfl)
  exact ⟨bits, taken, (count.mpr reads).symm⟩

/-- An index of the constant generator in a source is emitted and not read, although the source is
not `@PC+`. The instruction has the first word of `INC R5`, which is shorter. -/
theorem encode_unread_index :
    encode "ADD".toList (.two "2(CG)".toList "R5".toList) 0x0200 (fun _ => none) =
        .ok [.word (.known 0x5315), .word (.known 2)] ∧
      Operand.read? "2(CG)".toList = some (.indexed [⟨.plus, .literal 2⟩] Register.cg) ∧
      (InstructionBits.ofWord? 0x5315).map InstructionBits.fetched = some 0 ∧
      encode "INC".toList (.one "R5".toList) 0x0200 (fun _ => none) =
        .ok [.word (.known 0x5315)] := by
  decide +kernel

end Msp430
