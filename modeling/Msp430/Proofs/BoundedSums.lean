import Msp430.Proofs.DeferredReferences
import Msp430.Proofs.PeripheralNames

/-! # Sums in thirty-two bits

The terms of an expression are words, and their sum is formed with a signed total of
thirty-two bits: the known terms are added where the expression stands, the names that
were left over when it is settled (`Expr.boundedValue?`, `Value.boundedSettle?`). Such
an addition has no result when the sum leaves the range of a total, and otherwise the
exact sum (`Total.add?_eq_some_iff`). Every term moves a total by less than 65536, so
that 32768 terms cannot leave the range, however they are divided between the two
loops (`Expr.natAbs_offset_le`). Up to this length the totals are the exact sums, and
the word at the end is that of the sum of all terms (`Expr.evaluate?_bounded`).
-/

namespace Msp430

/-- The resolver that asks a second one where the first one has no value. -/
def Resolver.orElse (first second : Resolver) : Resolver :=
  fun name => first name <|> second name

theorem Resolver.orElse_extends (first second : Resolver) :
    (first.orElse second).Extends first := by
  intro name word found
  simp [orElse, found]

/-! ### Totals -/

/-- A signed number of thirty-two bits. -/
abbrev Total := BitVec 32

namespace Total

/-- The numbers that a total can be. -/
def Holds (number : Int) : Prop :=
  -2147483648 ≤ number ∧ number ≤ 2147483647

/-- What a word under a sign adds to a total. -/
def summand (sign : Sign) (word : Word) : Total :=
  match sign with
  | .plus => word.setWidth 32
  | .minus => -word.setWidth 32

/-- Adds a word under a sign. There is no result if the sum is no signed number of thirty-two
bits. -/
def add? (total : Total) (sign : Sign) (word : Word) : Option Total :=
  if total.saddOverflow (summand sign word) then none else some (total + summand sign word)

theorem holds_toInt (total : Total) : Holds total.toInt := by
  have above := BitVec.le_toInt total
  have below := BitVec.toInt_lt (x := total)
  unfold Holds
  omega

theorem holds_of_natAbs_le {number : Int} (small : number.natAbs ≤ 2147483647) :
    Holds number := by
  unfold Holds
  omega

/-- A total is what it is set to, if that is in its range. -/
theorem toInt_ofInt {number : Int} (holds : Holds number) :
    (BitVec.ofInt 32 number).toInt = number := by
  obtain ⟨least, greatest⟩ := holds
  rw [BitVec.toInt_ofInt_eq_self] <;> omega

theorem toInt_summand (sign : Sign) (word : Word) :
    (summand sign word).toInt = sign.apply word.toNat := by
  have bound := word.isLt
  cases sign with
  | plus =>
      rw [summand, BitVec.toInt_eq_toNat_cond, BitVec.toNat_setWidth, Sign.apply]
      omega
  | minus =>
      rw [summand, BitVec.toInt_eq_toNat_cond, BitVec.toNat_neg, BitVec.toNat_setWidth, Sign.apply]
      omega

/-- An addition that has a result gives the exact sum, and it has one if a total can be the sum. -/
theorem add?_eq_some_iff {total sum : Total} {sign : Sign} {word : Word} :
    total.add? sign word = some sum ↔ sum.toInt = total.toInt + sign.apply word.toNat := by
  rw [← toInt_summand, add?]
  by_cases outside : total.saddOverflow (summand sign word) = true
  · rw [if_pos outside]
    obtain ⟨least, greatest⟩ := sum.holds_toInt
    simp only [BitVec.saddOverflow, Bool.or_eq_true, decide_eq_true_eq] at outside
    constructor
    · intro added
      cases added
    · intro same
      omega
  · rw [if_neg outside, Option.some_inj, ← BitVec.toInt_add_of_not_saddOverflow outside,
      BitVec.toInt_inj, eq_comm]

theorem exists_add? (total : Total) (sign : Sign) (word : Word)
    (holds : Holds (total.toInt + sign.apply word.toNat)) :
    ∃ sum, total.add? sign word = some sum ∧
      sum.toInt = total.toInt + sign.apply word.toNat :=
  ⟨_, add?_eq_some_iff.mpr (toInt_ofInt holds), toInt_ofInt holds⟩

end Total

/-- A term moves a sum by less than 65536. -/
theorem Sign.natAbs_apply_le (sign : Sign) (word : Word) :
    (sign.apply word.toNat).natAbs ≤ 65535 := by
  have bound := word.isLt
  cases sign with
  | plus =>
      rw [apply]
      omega
  | minus =>
      rw [apply]
      omega

/-! ### The names that were left over -/

namespace Reference

/-- Adds the values of the names to a total, first name first. Fails with the first name that has
no value; there is no result at all if an addition has none. -/
def boundedSum? (resolver : Resolver) : Total → List Mention → Option (Except Text Total)
  | total, [] => some (.ok total)
  | total, mention :: rest =>
    match resolver mention.name with
    | some word => (total.add? mention.sign word).bind (boundedSum? resolver · rest)
    | none => some (.error mention.name)

theorem natAbs_addMentions_le {resolver : Resolver} {start sum : Int} {mentions : List Mention}
    (added : addMentions resolver start mentions = .ok sum) :
    sum.natAbs ≤ start.natAbs + 65535 * mentions.length := by
  induction mentions generalizing start with
  | nil =>
      cases added
      simp
  | cons mention rest ih =>
      rw [addMentions] at added
      cases found : resolver mention.name with
      | none =>
          rw [found] at added
          cases added
      | some word =>
          rw [found] at added
          have step := mention.sign.natAbs_apply_le word
          have rest := ih added
          rw [List.length_cons]
          omega

/-- As long as there is room for all names, their values are added exactly. The room that is left
shrinks by one term at each step. -/
theorem boundedSum?_eq {total : Total} {mentions : List Mention}
    (room : total.toInt.natAbs + 65535 * mentions.length ≤ 2147483647) (resolver : Resolver) :
    ∃ outcome, boundedSum? resolver total mentions = some outcome ∧
      outcome.map BitVec.toInt = addMentions resolver total.toInt mentions := by
  induction mentions generalizing total with
  | nil => exact ⟨_, rfl, rfl⟩
  | cons mention rest ih =>
      rw [List.length_cons] at room
      rw [boundedSum?, addMentions]
      cases found : resolver mention.name with
      | none => exact ⟨_, rfl, rfl⟩
      | some word =>
          have step := mention.sign.natAbs_apply_le word
          obtain ⟨sum, added, same⟩ := total.exists_add? mention.sign word
            (Total.holds_of_natAbs_le (by omega))
          dsimp only
          rw [added, Option.bind_some, ← same]
          exact ih (by omega)

end Reference

/-- Settles a value with a total of thirty-two bits. -/
def Value.boundedSettle? (resolver : Resolver) : Value → Option (Except Fault Word)
  | known word => some (.ok word)
  | pending reference =>
    (Reference.boundedSum? resolver.orPeripheral (BitVec.ofInt 32 reference.offset)
      reference.mentions).map fun outcome =>
        (outcome.map fun total => Word.ofInt total.toInt).mapError .undefinedName

/-! ### The terms of an expression -/

namespace Expr

/-- Adds the terms that have a value to a total, first term first. There is no result if an
addition has none. -/
def boundedSum? (here : Word) (resolver : Resolver) : Total → Expr → Option Total
  | total, [] => some total
  | total, signed :: rest =>
    match signed.term.word? here resolver with
    | some word => (total.add? signed.sign word).bind (boundedSum? here resolver · rest)
    | none => boundedSum? here resolver total rest

/-- Evaluates an expression with a total of thirty-two bits. -/
def boundedValue? (here : Word) (resolver : Resolver) (expr : Expr) : Option Value :=
  (boundedSum? here resolver 0 expr).map fun total =>
    match expr.unresolved resolver with
    | [] => .known (Word.ofInt total.toInt)
    | mentions => .pending ⟨total.toInt, mentions⟩

theorem length_unresolved_cons_of_word?_eq_none {here : Word} {resolver : Resolver}
    {signed : SignedTerm} (missing : signed.term.word? here resolver = none) (rest : Expr) :
    (unresolved resolver (signed :: rest)).length = (unresolved resolver rest).length + 1 := by
  obtain ⟨sign, term⟩ := signed
  cases term with
  | here => cases missing
  | literal word => cases missing
  | name text => rw [unresolved_cons_of_none missing, List.length_cons]

/-- Each term is either in the sum or left over, so that the room of an expression divides between
its sum and the names that are left over. -/
theorem natAbs_offset_le (here : Word) (resolver : Resolver) (expr : Expr) :
    (expr.offset here resolver).natAbs + 65535 * (expr.unresolved resolver).length ≤
      65535 * expr.length := by
  induction expr with
  | nil => exact Nat.le_refl _
  | cons signed rest ih =>
      rw [offset_cons, SignedTerm.contribution, List.length_cons]
      -- A term has its share of the room in the sum or in the list of names, never in both.
      cases found : signed.term.word? here resolver with
      | some word =>
          have step := signed.sign.natAbs_apply_le word
          rw [unresolved_cons_of_word? found]
          dsimp only
          omega
      | none =>
          rw [length_unresolved_cons_of_word?_eq_none found]
          dsimp only
          omega

/-- A sum that has a result is exact. -/
theorem toInt_of_boundedSum? {here : Word} {resolver : Resolver} {total sum : Total} {expr : Expr}
    (added : boundedSum? here resolver total expr = some sum) :
    sum.toInt = total.toInt + expr.offset here resolver := by
  induction expr generalizing total with
  | nil =>
      cases added
      exact (Int.add_zero _).symm
  | cons signed rest ih =>
      rw [boundedSum?] at added
      rw [offset_cons, SignedTerm.contribution]
      cases found : signed.term.word? here resolver with
      | none =>
          rw [found] at added
          rw [ih added, Int.zero_add]
      | some word =>
          rw [found] at added
          obtain ⟨next, step, others⟩ := Option.bind_eq_some_iff.mp added
          rw [ih others, Total.add?_eq_some_iff.mp step, Int.add_assoc]

/-- As long as there is room for all terms, there is a sum. -/
theorem exists_boundedSum? {total : Total} {expr : Expr}
    (room : total.toInt.natAbs + 65535 * expr.length ≤ 2147483647) (here : Word)
    (resolver : Resolver) :
    ∃ sum, boundedSum? here resolver total expr = some sum := by
  induction expr generalizing total with
  | nil => exact ⟨total, rfl⟩
  | cons signed rest ih =>
      rw [List.length_cons] at room
      rw [boundedSum?]
      cases found : signed.term.word? here resolver with
      | none => exact ih (by omega)
      | some word =>
          have step := signed.sign.natAbs_apply_le word
          obtain ⟨sum, added, same⟩ := total.exists_add? signed.sign word
            (Total.holds_of_natAbs_le (by omega))
          dsimp only
          rw [added, Option.bind_some]
          exact ih (by omega)

/-- Evaluating an expression and settling it comes to what the expression comes to with the names
of the first resolver and, where it has none, those of the second one. -/
theorem settle_value_orElse (earlier later : Resolver) (here : Word) (expr : Expr) :
    (expr.value here earlier).settle later =
      expr.outcome here (earlier.orElse later.orPeripheral) := by
  refine settle_value_of_agree (earlier.orElse_extends later.orPeripheral) ?_ here
  intro mention member
  rw [Resolver.orElse, (exists_mention_iff.mp ⟨mention, member, rfl⟩).2]
  rfl

/-- Evaluation with a bounded total is evaluation. -/
theorem boundedValue?_eq {expr : Expr} (short : expr.length ≤ 32768) (here : Word)
    (resolver : Resolver) : expr.boundedValue? here resolver = some (expr.value here resolver) := by
  have room : (0 : Total).toInt.natAbs + 65535 * expr.length ≤ 2147483647 := by
    rw [show (0 : Total).toInt = 0 from rfl]
    omega
  obtain ⟨total, added⟩ := exists_boundedSum? room here resolver
  have same : total.toInt = expr.offset here resolver :=
    (toInt_of_boundedSum? added).trans (Int.zero_add _)
  rw [boundedValue?, added, Option.map_some, same]
  unfold value
  cases expr.unresolved resolver with
  | nil => rfl
  | cons mention rest => rfl

/-- Settling with a bounded total is settling. -/
theorem boundedSettle?_value {expr : Expr} (short : expr.length ≤ 32768) (here : Word)
    (earlier later : Resolver) :
    (expr.value here earlier).boundedSettle? later =
      some ((expr.value here earlier).settle later) := by
  have room := expr.natAbs_offset_le here earlier
  have start : (BitVec.ofInt 32 (expr.offset here earlier)).toInt = expr.offset here earlier :=
    Total.toInt_ofInt (Total.holds_of_natAbs_le (by omega))
  by_cases known : ∀ name ∈ expr.names, (earlier name).isSome
  · rw [value_of_forall_isSome known]
    rfl
  · have missing : ∃ name ∈ expr.names, earlier name = none := by simpa using known
    rw [value_of_exists_eq_none missing, Value.boundedSettle?, Value.settle, Reference.resolve]
    dsimp only
    have left : (BitVec.ofInt 32 (expr.offset here earlier)).toInt.natAbs +
        65535 * (expr.unresolved earlier).length ≤ 2147483647 := by omega
    obtain ⟨outcome, summed, same⟩ := Reference.boundedSum?_eq left later.orPeripheral
    rw [summed, ← start, ← same]
    cases outcome with
    | error name => rfl
    | ok total => rfl

/-- **Thirty-two bits are enough for 32768 terms.** Let a text spell an expression of at most 32768
terms. Wherever it stands, and whichever names are known there and later, every running sum of the
terms, and every running sum of the names that are left over, is a signed number of thirty-two
bits. Evaluating and settling with totals of this size comes to what exact sums come to: to the
sum of all terms modulo 65536, or to a name that is known neither there nor later. -/
theorem evaluate?_bounded {text : Text} {expr : Expr} (spelled : Spelled text expr)
    (short : expr.length ≤ 32768) (here? : Option Word) (earlier later : Resolver) :
    let here := here?.getD 0
    let either := earlier.orElse later.orPeripheral
    (∀ seen, seen <+: expr → Total.Holds (offset here earlier seen)) ∧
    (∀ seen sum, seen <+: expr.unresolved earlier →
      Reference.addMentions later.orPeripheral (expr.offset here earlier) seen = .ok sum →
        Total.Holds sum) ∧
    ((here? = none → ∀ signed ∈ expr, signed.term ≠ .here) →
      ∃ value, evaluate? text here? earlier = some value ∧
        expr.boundedValue? here earlier = some value ∧
        value.boundedSettle? later = some (value.settle later) ∧
        ((∀ name ∈ expr.names, (either name).isSome) →
          ∃ word, value.settle later = .ok word ∧
            (word.toNat : Int) = (expr.map (SignedTerm.contribution here either)).sum % 65536) ∧
        ((∃ name ∈ expr.names, either name = none) →
          ∃ name ∈ expr.names, either name = none ∧
            value.settle later = .error (.undefinedName name))) := by
  intro here either
  refine ⟨?_, ?_, ?_⟩
  · intro seen front
    have bound := natAbs_offset_le here earlier seen
    have shorter := front.length_le
    exact Total.holds_of_natAbs_le (by omega)
  · intro seen sum front added
    have bound := expr.natAbs_offset_le here earlier
    have shorter := front.length_le
    have step := Reference.natAbs_addMentions_le added
    exact Total.holds_of_natAbs_le (by omega)
  · intro placed
    have evaluated : evaluate? text here? earlier = some (expr.value here earlier) :=
      evaluate?_eq_some_iff_value.mpr ⟨expr, spelled, placed, rfl⟩
    refine ⟨expr.value here earlier, evaluated, boundedValue?_eq short here earlier,
      boundedSettle?_value short here earlier later, ?_, ?_⟩
    · intro known
      refine ⟨Word.ofInt (expr.offset here either), ?_, ?_⟩
      · rw [settle_value_orElse, outcome_eq_ok_iff]
        exact ⟨known, rfl⟩
      · rw [toNat_ofInt, offset_eq_sum]
    · rintro ⟨name, member, missing⟩
      rw [settle_value_orElse]
      rcases expr.outcome_cases here either with ⟨_, all⟩ |
        ⟨before, other, after, split, _, lost, stuck⟩
      · have found := all name member
        rw [missing] at found
        cases found
      · exact ⟨other, by simp [split], lost, stuck⟩

theorem offset_replicate (here : Word) (resolver : Resolver) (signed : SignedTerm) (count : Nat) :
    offset here resolver (List.replicate count signed) =
      count * signed.contribution here resolver := by
  induction count with
  | zero => simp [offset]
  | succ count ih =>
      rw [List.replicate_succ, offset_cons, ih, Int.natCast_succ, Int.add_mul, Int.one_mul,
        Int.add_comm]

/-- A name that is subtracted any number of times. -/
theorem spelled_replicate (count : Nat) :
    Spelled (List.replicate (count + 1) ['-', 'X']).flatten
      (List.replicate (count + 1) ⟨.minus, .name ['X']⟩) := by
  have padded : (Term.name ['X']).Padded ['X'] :=
    ⟨[], ['X'], [], rfl, Text.Blanks.nil, Text.Blanks.nil, .name (by decide)⟩
  have joined : ∀ more : Nat, Joined .minus ('X' :: (List.replicate more ['-', 'X']).flatten)
      (List.replicate (more + 1) ⟨.minus, .name ['X']⟩) := by
    intro more
    induction more with
    | zero => exact .last padded
    | succ more ih => exact .next padded ih
  have bare : Text.Bare (List.replicate (count + 1) ['-', 'X']).flatten := by
    refine ⟨by rintro _ ⟨⟩; decide, ?_⟩
    rw [List.replicate_succ', List.flatten_append, List.getLast?_append_of_ne_nil _ (by simp)]
    rintro _ ⟨⟩
    decide
  exact .inr ⟨.minus, _, bare.trim_eq, joined count⟩

/-- A name that is subtracted 32768 times and has the greatest value takes the total as far as it
goes: there is no room for one more. -/
theorem evaluate?_bounded_longest :
    let expr (count : Nat) : Expr := List.replicate count ⟨.minus, .name ['X']⟩
    let text : Text := (List.replicate 32768 ['-', 'X']).flatten
    let earlier : Resolver := fun _ => none
    let later : Resolver := fun _ => some 0xFFFF
    (Spelled text (expr 32768) ∧ (expr 32768).length ≤ 32768) ∧
      (∃ value, evaluate? text none earlier = some value ∧
        value.boundedSettle? later = some (.ok 0x8000)) ∧
      ∀ count, 32768 < count → (expr count).boundedValue? 0 later = none := by
  intro expr text earlier later
  have spelled : Spelled text (expr 32768) := spelled_replicate 32767
  have short : (expr 32768).length ≤ 32768 := by rw [List.length_replicate]
  have total : ∀ {resolver : Resolver}, resolver ['X'] = some 0xFFFF → ∀ count,
      offset 0 resolver (expr count) = count * -65535 := by
    intro resolver greatest count
    rw [offset_replicate, SignedTerm.contribution, Term.word?, greatest]
    rfl
  refine ⟨⟨spelled, short⟩, ?_, ?_⟩
  · have unplaced : ∀ signed ∈ expr 32768, signed.term ≠ .here := by
      intro signed member same
      rw [List.eq_of_mem_replicate member] at same
      cases same
    obtain ⟨value, evaluated, _, settles, sums, _⟩ :=
      (evaluate?_bounded spelled short none earlier later).2.2 fun _ => unplaced
    obtain ⟨word, settled, residue⟩ := sums fun _ _ => rfl
    rw [← offset_eq_sum, Option.getD_none, total rfl] at residue
    have reached : word = 0x8000 := by
      apply BitVec.eq_of_toNat_eq
      change word.toNat = 32768
      omega
    exact ⟨value, evaluated, by rw [settles, settled, reached]⟩
  · intro count long
    rw [boundedValue?, Option.map_eq_none_iff, Option.eq_none_iff_forall_ne_some]
    intro sum added
    -- The sum would have to be a total, and is too small for one.
    obtain ⟨least, _⟩ := sum.holds_toInt
    rw [toInt_of_boundedSum? added, total rfl, show (0 : Total).toInt = 0 from rfl] at least
    omega

end Expr

end Msp430
