import Msp430.Proofs.InstructionBits
import Msp430.Proofs.RelocatedFields

/-! # The targets of jumps

A jump word holds its distance as a signed ten-bit number of words, counted from the
instruction behind it, and addresses wrap around. `Jump.Reaches` says where a jump
over a number of words leads, with no knowledge of how a word is made. The words that
encode a jump are exactly those that decode to one with the right condition and a
distance that leads to the target (`Jump.encode?_eq_some_iff`). All else follows: what
can be reached, that a word has one target, and that only the distance counts
(`Jump.encode?_reachable`).
-/

namespace Msp430

namespace Jump

/-- Whether a jump over a number of words leads from one address to another. -/
def Reaches (source target : Word) (offset : Int) : Prop :=
  (target.toNat : Int) = (source.toNat + 2 + 2 * offset) % 65536

/-- The number of words that a jump word skips: its low ten bits, read with their sign. -/
def offset (word : Word) : Int :=
  (word.extractLsb' 0 10).toInt

theorem offset_bounds (word : Word) : -512 ≤ offset word ∧ offset word ≤ 511 := by
  have above := BitVec.le_toInt (word.extractLsb' 0 10)
  have below := BitVec.toInt_lt (x := word.extractLsb' 0 10)
  unfold offset
  omega

/-- Within the range of a jump, a target is reached over half its distance and over nothing
else. -/
theorem reaches_iff {source target : Word} {offset : Int} (least : -512 ≤ offset)
    (greatest : offset ≤ 511) :
    Reaches source target offset ↔ distance source target = 2 * offset := by
  have sourceBound := source.isLt
  have targetBound := target.isLt
  have two : (2 : Word).toNat = 2 := rfl
  -- Twice the offset is a signed word, so the distance modulo 65536 determines it.
  unfold Reaches distance
  rw [BitVec.toInt_eq_toNat_cond, BitVec.toNat_sub, BitVec.toNat_add, two]
  omega

theorem Reaches.target_eq {source target other : Word} {offset : Int}
    (reached : Reaches source target offset) (alsoReached : Reaches source other offset) :
    other = target := by
  apply BitVec.eq_of_toNat_eq
  unfold Reaches at reached alsoReached
  omega

/-- A jump has a word exactly if its target is reached over some number of words in range. -/
theorem encode?_isSome_iff {condition : Condition} {source target : Word} :
    (encode? condition source target).isSome ↔
      ∃ offset, -512 ≤ offset ∧ offset ≤ 511 ∧ Reaches source target offset := by
  have whole : (encode? condition source target).isSome ↔
      distance source target % 2 = 0 ∧ -1024 ≤ distance source target ∧
        distance source target ≤ 1022 := by
    simp only [encode?]
    split
    case isTrue inRange => simpa using inRange
    case isFalse outside => simpa using outside
  rw [whole]
  constructor
  · rintro ⟨even, least, greatest⟩
    refine ⟨distance source target / 2, by omega, by omega, ?_⟩
    rw [reaches_iff (by omega) (by omega)]
    omega
  · rintro ⟨offset, least, greatest, reached⟩
    rw [reaches_iff least greatest] at reached
    omega

/-- The three parts of a jump word stand side by side. -/
theorem eq_append_iff {word : Word} {mark condition : BitVec 3} {field : BitVec 10} :
    word = mark ++ condition ++ field ↔
      word.extractLsb' 13 3 = mark ∧ word.extractLsb' 10 3 = condition ∧
        word.extractLsb' 0 10 = field := by
  have bound := word.isLt
  rw [BitVec.toNat_eq, BitVec.toNat_eq, BitVec.toNat_eq, BitVec.toNat_eq]
  simp only [InstructionBits.toNat_append, InstructionBits.toNat_slice]
  omega

/-- **A jump word decodes to its target.** The words of a jump are those with the mark, the
condition, and an offset that leads to the target. -/
theorem encode?_eq_some_iff {condition : Condition} {source target word : Word} :
    encode? condition source target = some word ↔
      word.extractLsb' 13 3 = 0b001#3 ∧ word.extractLsb' 10 3 = condition ∧
        Reaches source target (offset word) := by
  obtain ⟨least, greatest⟩ := offset_bounds word
  rw [reaches_iff least greatest]
  constructor
  · intro encoded
    simp only [encode?] at encoded
    split at encoded
    case isFalse => cases encoded
    case isTrue inRange =>
      obtain ⟨mark, kept, field⟩ := eq_append_iff.mp (Option.some.inj encoded).symm
      refine ⟨mark, kept, ?_⟩
      have signed : offset word = distance source target / 2 := by
        rw [offset, field, BitVec.toInt_ofInt_eq_self] <;> omega
      omega
  · rintro ⟨mark, kept, reached⟩
    have inRange : distance source target % 2 = 0 ∧ -1024 ≤ distance source target ∧
        distance source target ≤ 1022 := by omega
    have halved : distance source target / 2 = offset word := by omega
    have field : word.extractLsb' 0 10 = BitVec.ofInt 10 (distance source target / 2) := by
      rw [halved, offset, BitVec.ofInt_toInt]
    simp only [encode?, if_pos inRange]
    rw [← eq_append_iff.mpr ⟨mark, kept, field⟩]

/-- **Jumps reach what they can and nothing else.** A jump has a word exactly if its target is
reached over between -512 and 511 words. Whichever such number it is, the word holds it behind the
mark and the condition, so that the target is recovered from the word; no other target has that
word, and moving the jump together with its target changes nothing. -/
theorem encode?_reachable (condition : Condition) (source target : Word) :
    ((∃ word, encode? condition source target = some word) ↔
      ∃ offset, -512 ≤ offset ∧ offset ≤ 511 ∧ Reaches source target offset) ∧
    (∀ word, encode? condition source target = some word →
      word.extractLsb' 13 3 = 0b001#3 ∧ word.extractLsb' 10 3 = condition ∧
      (∀ offset, -512 ≤ offset → offset ≤ 511 → Reaches source target offset →
        Jump.offset word = offset) ∧
      Reaches source target (Jump.offset word) ∧
      ∀ other, encode? condition source other = some word → other = target) ∧
    ∀ shift, encode? condition (source + shift) (target + shift) =
      encode? condition source target := by
  refine ⟨?_, ?_, encode?_moved condition source target⟩
  · rw [← Option.isSome_iff_exists]
    exact encode?_isSome_iff
  · intro word encoded
    obtain ⟨mark, kept, reached⟩ := encode?_eq_some_iff.mp encoded
    refine ⟨mark, kept, ?_, reached, ?_⟩
    · intro offset least greatest alsoReached
      obtain ⟨wordLeast, wordGreatest⟩ := offset_bounds word
      rw [reaches_iff least greatest] at alsoReached
      rw [reaches_iff wordLeast wordGreatest] at reached
      omega
    · intro other otherEncoded
      exact reached.target_eq (encode?_eq_some_iff.mp otherEncoded).2.2

example : encode? 7 0xFFFE 0x0400 = none ∧ encode? 7 0xFFFE 0x03FE = some 0x3DFF ∧
    offset 0x3DFF = 511 := by decide

end Jump

end Msp430
