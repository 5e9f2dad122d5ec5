import Msp430.Register
import Msp430.Proofs.LetterCase

/-! # The names of the registers

A register is named by `R` with its number or by an alias, in any mix of cases
(`Register.Named`). Reading accepts these names, blanks around them, and gives each its
register. It accepts two words more: an alias is recognised by its capitals, of which
`S` is also that of the long s, while its register is chosen by its ASCII capitals, and
what is none of the first three is taken for the fourth. So `SP` and `SR` with a long s
are read as the constant generator, which they do not name (`Register.read?_named`).
-/

namespace Msp430

namespace Register

/-- The aliases, in upper case, with their registers. -/
def aliases : List (Text × Register) :=
  [("PC".toList, pc), ("SP".toList, sp), ("SR".toList, sr), ("CG".toList, cg)]

/-- The names of the registers: `R` in either case with one or two decimal digits of a value up to
fifteen, and the aliases in any mix of cases. -/
inductive Named : Text → Register → Prop where
  | numbered {mark : Char} {digits : Text} {number : Nat} (letter : mark = 'R' ∨ mark = 'r')
      (few : digits.length ≤ 2) (denoted : Digits.Denotes 10 digits number) (small : number ≤ 15) :
      Named (mark :: digits) (BitVec.ofNat 4 number)
  | aliased {word : Text} {base : Register} (listed : (Text.upper word, base) ∈ aliases) :
      Named word base

/-- The aliases with an `S`, in any mix of cases, if the long s stands in its place. -/
def LongAlias (word : Text) : Prop :=
  Text.upper word ∈ ["\u017fP".toList, "\u017fR".toList]

instance (word : Text) : Decidable (LongAlias word) :=
  inferInstanceAs (Decidable (_ ∈ _))

/-! ### Numbers -/

theorem numbered?_eq_some_iff {word : Text} {base : Register} :
    numbered? word = some base ↔
      ∃ mark digits number, word = mark :: digits ∧ (mark = 'R' ∨ mark = 'r') ∧
        digits.length ≤ 2 ∧ Digits.Denotes 10 digits number ∧ number ≤ 15 ∧
        base = BitVec.ofNat 4 number := by
  cases word with
  | nil => simp [numbered?]
  | cons mark digits =>
      rw [numbered?]
      constructor
      · intro named
        split at named
        case isFalse => cases named
        case isTrue shape =>
          simp only [Bool.and_eq_true, Bool.or_eq_true, beq_iff_eq] at shape
          obtain ⟨number, read, rfl⟩ := Option.map_eq_some_iff.mp named
          obtain ⟨found, small⟩ := Option.filter_eq_some_iff.mp read
          have denoted := (Digits.read?_eq_some_iff (by omega)).mp found
          have below := of_decide_eq_true small
          exact ⟨mark, digits, number, rfl, shape.1, by omega, denoted, by omega, rfl⟩
      · rintro ⟨_, _, number, ⟨⟩, letter, few, denoted, small, rfl⟩
        have nonempty : digits.length ≠ 0 := by
          rw [Ne, List.length_eq_zero_iff]
          exact denoted.1
        have shape : ((mark == 'R' || mark == 'r') &&
            (digits.length == 1 || digits.length == 2)) = true := by
          simp only [Bool.and_eq_true, Bool.or_eq_true, beq_iff_eq]
          exact ⟨letter, by omega⟩
        have below : number < 16 := by omega
        rw [if_pos shape, (Digits.read?_eq_some_iff (by omega)).mpr denoted]
        simp [below]

/-! ### Aliases -/

/-- What a character of an alias is matched as depends on its ASCII capital. -/
theorem aliasCapital_eq_iff {capital : Char} (short : capital ≠ '\u017f') (c : Char) :
    aliasCapital c = capital ↔ c.toUpper = capital ∨ capital = 'S' ∧ c.toUpper = '\u017f' := by
  have long : c.toUpper = '\u017f' ↔ c = '\u017f' := toUpper_eq_iff (by decide) c
  rw [long, aliasCapital]
  by_cases same : c = '\u017f'
  · simp [same, short, eq_comm]
  · simp [same]

/-- The words that are recognised as aliases: the aliases, and those with a long s. -/
theorem map_aliasCapital_mem_iff (word : Text) :
    word.map aliasCapital ∈ ["PC".toList, "SP".toList, "SR".toList, "CG".toList] ↔
      Text.upper word ∈ ["PC".toList, "SP".toList, "SR".toList, "CG".toList] ∨ LongAlias word := by
  match word with
  | [] => simp [LongAlias, Text.upper]
  | [first] => simp [LongAlias, Text.upper]
  | [first, second] =>
      simp only [String.reduceToList, ↓Char.isValue, List.map_cons, List.map_nil, List.mem_cons,
        List.cons.injEq, ne_eq, Char.reduceEq, not_false_eq_true, aliasCapital_eq_iff, false_and,
        or_false, and_true, true_and, List.not_mem_nil, Text.upper, LongAlias]
      grind
  | first :: second :: third :: rest => simp [LongAlias, Text.upper]

theorem alias?_eq_some_iff {word : Text} {base : Register} :
    alias? word = some base ↔
      (Text.upper word, base) ∈ aliases ∨ LongAlias word ∧ base = cg := by
  rw [alias?]
  simp only [List.contains_iff_mem, map_aliasCapital_mem_iff, Text.spells]
  split
  case isTrue recognised =>
    rcases recognised with known | long
    · simp only [List.mem_cons, List.not_mem_nil, or_false] at known
      rcases known with same | same | same | same <;> simp [same, aliases, LongAlias, eq_comm]
    · simp only [LongAlias, List.mem_cons, List.not_mem_nil, or_false] at long
      rcases long with same | same <;> simp [same, aliases, LongAlias, eq_comm]
  case isFalse unrecognised =>
    constructor
    · intro named
      cases named
    · rintro (listed | ⟨long, _⟩)
      · have known : Text.upper word ∈ aliases.map Prod.fst := List.mem_map_of_mem listed
        exact absurd (.inl known) unrecognised
      · exact absurd (.inr long) unrecognised

/-! ### Names -/

/-- No alias starts with an `R`, so a word that is recognised as an alias has no number. -/
theorem numbered?_eq_none_of_alias? {word : Text} {base : Register}
    (named : alias? word = some base) : numbered? word = none := by
  rw [Option.eq_none_iff_forall_ne_some]
  intro other numbered
  obtain ⟨mark, digits, number, rfl, letter, _⟩ := numbered?_eq_some_iff.mp numbered
  have first : mark.toUpper = 'R' := by rcases letter with rfl | rfl <;> decide
  rw [alias?_eq_some_iff] at named
  simp [aliases, LongAlias, Text.upper_cons, first] at named

theorem ofWord?_eq_some_iff {word : Text} {base : Register} :
    ofWord? word = some base ↔ Named word base ∨ LongAlias word ∧ base = cg := by
  have either : ofWord? word = some base ↔
      numbered? word = some base ∨ alias? word = some base := by
    rw [ofWord?]
    cases numbered : numbered? word with
    | none => simp
    | some other =>
        have unlisted : alias? word ≠ some base := by
          intro named
          rw [numbered?_eq_none_of_alias? named] at numbered
          cases numbered
        simp [unlisted]
  rw [either, numbered?_eq_some_iff, alias?_eq_some_iff, ← or_assoc]
  refine or_congr_left ?_
  constructor
  · rintro (⟨mark, digits, number, rfl, letter, few, denoted, small, rfl⟩ | listed)
    · exact .numbered letter few denoted small
    · exact .aliased listed
  · rintro (⟨letter, few, denoted, small⟩ | listed)
    · exact .inl ⟨_, _, _, rfl, letter, few, denoted, small, rfl⟩
    · exact .inr listed

/-- A word with a long s names no register. -/
theorem not_named_of_longAlias {word : Text} (long : LongAlias word) (base : Register) :
    ¬ Named word base := by
  intro named
  cases named with
  | numbered letter few denoted small =>
      have number := numbered?_eq_some_iff.mpr ⟨_, _, _, rfl, letter, few, denoted, small, rfl⟩
      rw [numbered?_eq_none_of_alias? (alias?_eq_some_iff.mpr (.inr ⟨long, rfl⟩))] at number
      cases number
  | aliased listed =>
      simp only [LongAlias, List.mem_cons, List.not_mem_nil, or_false] at long
      rcases long with same | same <;> simp [same, aliases] at listed

/-- **Which words are read as registers.** The names of the registers, with blanks around them, are
read as the registers that they name. Besides these, an alias with a long s is read as the constant
generator, and nothing else is read. So reading and naming agree on all texts but those. -/
theorem read?_named (text : Text) :
    let word := Text.trim text
    (∀ base, read? text = some base ↔ Named word base ∨ LongAlias word ∧ base = cg) ∧
      ((∀ base, read? text = some base ↔ Named word base) ↔ ¬ LongAlias word) := by
  intro word
  have reads : ∀ base, read? text = some base ↔ Named word base ∨ LongAlias word ∧ base = cg :=
    fun base => ofWord?_eq_some_iff
  refine ⟨reads, ?_⟩
  constructor
  · intro agree long
    exact not_named_of_longAlias long cg ((agree cg).mp ((reads cg).mpr (.inr ⟨long, rfl⟩)))
  · intro short base
    simp [reads base, short]

example : read? "sP ".toList = some sp ∧ read? "ſP ".toList = some cg := by decide +kernel

end Register

end Msp430
