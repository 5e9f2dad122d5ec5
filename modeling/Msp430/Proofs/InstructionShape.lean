import Msp430.Proofs.Addressing
import Msp430.Proofs.InstructionBits
import Msp430.Proofs.RelocatedFields

/-! # The shape of an instruction

The first pass fixes the addresses of all lines while some names have no value yet.
That is sound because addresses and values come into an instruction only where it
cannot change its size: the text alone decides whether there is a fault, how many
words there are and which one is first, and a jump is one word wherever it leads
(`encode_shape`). Only one fault depends on values, a jump out of range, which
`Fault.IsJumpRange` singles out.
-/

namespace Msp430

/-- Whether an operator has the mnemonic of a jump. -/
def IsJump (operator : Text) : Prop :=
  ∃ mnemonic condition, Mnemonic.find? (operator.takeWhile (· != '.')) = some mnemonic ∧
    mnemonic.format = .jump condition

/-- Whether a fault is that of a jump out of range. -/
def Fault.IsJumpRange (fault : Fault) : Prop :=
  ∃ text, fault = .jumpRange text

/-- Whether two instructions are words throughout, equally many, and the first ones are known and
the same. -/
def SameShape (fields others : List Field) : Prop :=
  ∃ (first : Word) (values otherValues : List Value),
    fields = .word (.known first) :: values.map .word ∧
    others = .word (.known first) :: otherValues.map .word ∧ values.length = otherValues.length

/-! ### Reading an instruction -/

namespace Image

variable {operator : Text} {operands : Operands} {image : Image}

/-- What reading an instruction can come to: a fixed word, a jump, or the word and the extensions
that the format of the mnemonic asks for. -/
theorem read_cases (read : Image.read operator operands = .ok image) :
    ∃ mnemonic size, Mnemonic.find? (operator.takeWhile (· != '.')) = some mnemonic ∧
      ((∃ word, mnemonic.format = .fixed word ∧ image = .words word []) ∨
        (∃ condition target text, mnemonic.format = .jump condition ∧
          image = .jump condition target text) ∨
        ∃ first bits extensions, image = .words first extensions ∧
          mnemonic.format.Prescribes size operands bits extensions ∧
          InstructionBits.ofWord? first = some bits) := by
  unfold Image.read at read
  split at read
  case h_1 => cases read
  case h_2 letters isByte operatorRead =>
    obtain ⟨rfl, _⟩ := Operator.read?_spec operatorRead
    split at read
    case h_1 => cases read
    case h_2 mnemonic found =>
      split at read
      case isTrue => cases read
      case isFalse sized =>
        have clear : mnemonic.format = .branch → BitVec.ofBool isByte = 0 := by
          intro branch
          rw [Mnemonic.hasByteForm_of_find? found branch] at sized
          cases isByte with
          | false => rfl
          | true => exact (sized rfl).elim
        exact ⟨mnemonic, BitVec.ofBool isByte, found,
          prescribes_of_ofFormat read (Mnemonic.opcode_of_find? found) clear⟩

/-- An operator that is no jump makes words. -/
theorem words_of_read (read : Image.read operator operands = .ok image)
    (other : ¬ IsJump operator) : ∃ first extensions, image = .words first extensions := by
  obtain ⟨mnemonic, size, found, kinds⟩ := read_cases read
  rcases kinds with ⟨word, _, made⟩ | ⟨condition, target, text, jump, _⟩ |
    ⟨first, bits, extensions, made, _⟩
  · exact ⟨word, [], made⟩
  · exact (other ⟨mnemonic, condition, found, jump⟩).elim
  · exact ⟨first, extensions, made⟩

/-- The operator of a jump makes a jump. -/
theorem jump_of_read (read : Image.read operator operands = .ok image)
    (jumps : IsJump operator) : ∃ condition target text, image = .jump condition target text := by
  obtain ⟨mnemonic, condition, found, jump⟩ := jumps
  obtain ⟨same, size, foundSame, kinds⟩ := read_cases read
  rw [found] at foundSame
  cases foundSame
  rcases kinds with ⟨word, fixed, _⟩ | ⟨condition, target, text, _, made⟩ |
    ⟨first, bits, extensions, _, asked, _⟩
  · rw [jump] at fixed
    cases fixed
  · exact ⟨condition, target, text, made⟩
  · rw [jump] at asked
    cases asked

/-! ### Filling in the values -/

theorem sameShape_fields (first : Word) (extensions : List Expr) (address other : Word)
    (resolver otherResolver : Resolver) :
    Outcome.Alike SameShape (fields address resolver (.words first extensions))
      (fields other otherResolver (.words first extensions)) := by
  refine .ok ⟨first, extensions.map (Expr.value address resolver),
    extensions.map (Expr.value other otherResolver), ?_, ?_, ?_⟩
  · rw [List.map_map]
    rfl
  · rw [List.map_map]
    rfl
  · rw [List.length_map, List.length_map]

/-- Filling in the values can fail only by a jump out of range. -/
theorem isJumpRange_of_fields {address : Word} {resolver : Resolver} {fault : Fault}
    (failed : image.fields address resolver = .error fault) : fault.IsJumpRange := by
  cases image with
  | words first extensions => cases failed
  | jump condition target text =>
      simp only [fields] at failed
      split at failed
      case h_1 reached _ =>
        split at failed
        case h_1 => cases failed
        case h_2 =>
          cases failed
          exact ⟨text, rfl⟩
      case h_2 => cases failed

/-- A jump is one field of two bytes, whether its target is known or not. -/
theorem single_of_jump {condition : Condition} {target : Expr} {text : Text} {address : Word}
    {resolver : Resolver} {produced : List Field}
    (done : fields address resolver (.jump condition target text) = .ok produced) :
    ∃ field, produced = [field] ∧ field.size = 2 := by
  simp only [fields] at done
  split at done
  case h_1 reached _ =>
    split at done
    case h_1 word _ =>
      cases done
      exact ⟨.word (.known word), rfl, rfl⟩
    case h_2 => cases done
  case h_2 reference _ =>
    cases done
    exact ⟨.jump condition address reference text, rfl, rfl⟩

end Image

/-- Apart from jumps out of range, the faults of an instruction are those of its text. -/
theorem encode_eq_error_iff {operator : Text} {operands : Operands} {address : Word}
    {resolver : Resolver} {fault : Fault} (textual : ¬ fault.IsJumpRange) :
    encode operator operands address resolver = .error fault ↔
      Image.read operator operands = .error fault := by
  unfold encode
  cases Image.read operator operands with
  | error cause => simp [bind, Except.bind]
  | ok image =>
      constructor
      · intro failed
        exact (textual (Image.isJumpRange_of_fields failed)).elim
      · intro failed
        cases failed

/-! ### Resolving a field in place -/

namespace Field

/-- An attempt that succeeds leaves the resolved field. -/
theorem settled_of_resolve {resolver : Resolver} {field resolved : Field}
    (done : field.resolve resolver = .ok resolved) : field.settled resolver = resolved := by
  rcases resolve_cases done with ⟨value, datum, rfl, settles, rfl⟩ |
    ⟨value, datum, rfl, settles, _, rfl⟩ | ⟨condition, source, target, text, _, _, rfl, _⟩ |
    ⟨count, rfl, rfl⟩
  · rw [settled, Value.settled, settles]
  · rw [settled, Value.settled, settles]
  · rw [settled, done]
  · rfl

/-- An attempt to resolve a field does not change its size, even if it fails. -/
theorem size_settled (resolver : Resolver) (field : Field) :
    (field.settled resolver).size = field.size := by
  cases field with
  | word value => rfl
  | byte value => rfl
  | jump condition source target text =>
      rw [settled]
      split
      case h_1 reached done => exact size_of_resolve done
      case h_2 => rfl
  | reserve count => rfl

end Field

/-- **The shape of an instruction is in its text.** At any two addresses and with any two
resolvers, an operator that is no jump has the same fault twice, or words of the same number with
the same first one. A jump that is encoded is one field of two bytes, and its faults other than
that of a jump out of range are the same twice. An attempt to resolve a field, whether it succeeds
or fails, leaves the size of the field. So the lines of an assembled program are at the addresses
where the first pass placed them and have the sizes that it counted. -/
theorem encode_shape (operator : Text) (operands : Operands) (address other : Word)
    (resolver otherResolver : Resolver) :
    (¬ IsJump operator →
      Outcome.Alike SameShape (encode operator operands address resolver)
        (encode operator operands other otherResolver)) ∧
    (IsJump operator →
      (∀ fields, encode operator operands address resolver = .ok fields →
        ∃ field, fields = [field] ∧ field.size = 2) ∧
      ∀ fault : Fault, ¬ fault.IsJumpRange →
        (encode operator operands address resolver = .error fault ↔
          encode operator operands other otherResolver = .error fault)) ∧
    (∀ field : Field, (field.settled resolver).size = field.size ∧
      ∀ resolved, field.resolve resolver = .ok resolved → field.settled resolver = resolved) ∧
    ∀ origin source (index : Nat) placed,
      (Layout.ofSource origin source).2[index]? = some placed →
      ∃ line, (assemble origin source).lines[index]? = some line ∧
        line.address = placed.address ∧
        (line.isFault = false → line.content.size = placed.content.size) := by
  refine ⟨?_, ?_, ?_, ?_⟩
  · intro noJump
    unfold encode
    cases read : Image.read operator operands with
    | error fault => exact .error fault
    | ok image =>
        obtain ⟨first, extensions, rfl⟩ := Image.words_of_read read noJump
        exact Image.sameShape_fields first extensions address other resolver otherResolver
  · intro jumps
    constructor
    · intro fields encoded
      obtain ⟨image, read, produced⟩ := bind_eq_ok_iff.mp encoded
      obtain ⟨condition, target, text, rfl⟩ := Image.jump_of_read read jumps
      exact Image.single_of_jump produced
    · intro fault textual
      rw [encode_eq_error_iff textual, encode_eq_error_iff textual]
  · intro field
    exact ⟨Field.size_settled resolver field, fun resolved => Field.settled_of_resolve⟩
  · intro origin source index placed found
    refine ⟨placed.finished (assemble origin source).symbols, ?_, rfl, ?_⟩
    · rw [assemble_lines, List.getElem?_map, found]
      rfl
    · intro clean
      exact (Line.finished_layout clean).2.1

end Msp430
