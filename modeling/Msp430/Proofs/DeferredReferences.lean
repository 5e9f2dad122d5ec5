import Msp430.Proofs.ExpressionGrammar

/-! # Deferred references

A name may be resolved where it stands or later. Encoding an instruction with some
of its names and resolving its fields with all of them comes to the words, or to the
first fault, of encoding it with all names at once; evaluating an expression and
settling its value is alike (`encode_deferred`). A value that cannot be settled stays
as it is, and the fault shows the leftmost name of the expression that has no value
(`Expr.outcome_cases`).
-/

namespace Msp430

namespace Expr

/-- The leftmost name without a value is the first one that is left unresolved. -/
theorem unresolved_cases (resolver : Resolver) (expr : Expr) :
    (expr.unresolved resolver = [] ∧ ∀ name ∈ expr.names, (resolver name).isSome) ∨
      ∃ before name after sign rest, expr.names = before ++ name :: after ∧
        (∀ other ∈ before, (resolver other).isSome) ∧ resolver name = none ∧
        expr.unresolved resolver = ⟨name, sign⟩ :: rest := by
  induction expr with
  | nil => exact .inl ⟨rfl, fun _ member => by cases member⟩
  | cons signed rest ih =>
      obtain ⟨sign, term⟩ := signed
      cases term with
      | here => exact ih
      | literal word => exact ih
      | name text =>
          have namesCons : names (⟨sign, .name text⟩ :: rest) = text :: names rest := rfl
          cases found : resolver text with
          | none =>
              refine .inr ⟨[], text, names rest, sign, unresolved resolver rest, namesCons, ?_,
                found, unresolved_cons_of_none found rest⟩
              intro other member
              cases member
          | some word =>
              have known : (Term.name text).word? 0 resolver = some word := found
              have first : (resolver text).isSome := by rw [found]; rfl
              rw [unresolved_cons_of_word? known, namesCons]
              rcases ih with ⟨nothing, all⟩ |
                ⟨before, name, after, mark, others, split, inFront, missing, left⟩
              · exact .inl ⟨nothing, List.forall_mem_cons.mpr ⟨first, all⟩⟩
              · exact .inr ⟨text :: before, name, after, mark, others, by rw [split]; rfl,
                  List.forall_mem_cons.mpr ⟨first, inFront⟩, missing, left⟩

/-- An expression comes to a word if all its names have values. Otherwise the fault shows the
leftmost name that has none. -/
theorem outcome_cases (here : Word) (resolver : Resolver) (expr : Expr) :
    ((∃ word, expr.outcome here resolver = .ok word) ∧
        ∀ name ∈ expr.names, (resolver name).isSome) ∨
      ∃ before name after, expr.names = before ++ name :: after ∧
        (∀ other ∈ before, (resolver other).isSome) ∧ resolver name = none ∧
        expr.outcome here resolver = .error (.undefinedName name) := by
  unfold outcome
  rcases unresolved_cases resolver expr with ⟨nothing, all⟩ |
    ⟨before, name, after, sign, rest, split, inFront, missing, left⟩
  · exact .inl ⟨⟨_, by rw [nothing]⟩, all⟩
  · exact .inr ⟨before, name, after, split, inFront, missing, by rw [left]⟩

end Expr

/-- An instruction that comes to something comes to words. -/
theorem Image.exists_word_of_outcome {image : Image} {address : Word} {resolver : Resolver}
    {fields : List Field} (done : image.outcome address resolver = .ok fields) :
    ∀ field ∈ fields, ∃ word, field = .word (.known word) := by
  cases image with
  | words first extensions =>
      obtain ⟨rest, extended, made⟩ := bind_eq_ok_iff.mp done
      cases made
      intro field member
      rcases List.mem_cons.mp member with rfl | inRest
      · exact ⟨first, rfl⟩
      · obtain ⟨extension, _, produced⟩ := exists_of_mem_of_mapM extended inRest
        cases reached : Expr.outcome address resolver extension with
        | error fault =>
            rw [reached] at produced
            cases produced
        | ok datum =>
            rw [reached] at produced
            cases produced
            exact ⟨datum, rfl⟩
  | jump condition target text =>
      obtain ⟨reached, _, encoded⟩ := bind_eq_ok_iff.mp done
      split at encoded
      case h_1 datum _ =>
        cases encoded
        intro field member
        exact ⟨datum, List.mem_singleton.mp member⟩
      case h_2 => cases encoded

/-- **Deferring a reference never changes the instruction.** Let the names known early have the
same values later. Encoding an instruction with the early names and resolving its fields in order
with the later ones comes to the same words, or to the same first fault, as encoding it with the
later ones. Likewise for the value of an expression that is settled later: it becomes the same
word, or stays as it is with a fault that shows the leftmost name without a value. -/
theorem encode_deferred {earlier later : Resolver} (grown : later.Extends earlier) :
    (∀ operator operands address,
      (encode operator operands address earlier >>= List.mapM (Field.resolve later)) =
          (encode operator operands address later >>= List.mapM (Field.resolve later)) ∧
        ∀ fields,
          (encode operator operands address earlier >>= List.mapM (Field.resolve later)) =
            .ok fields →
          ∀ field ∈ fields, ∃ word, field = .word (.known word)) ∧
    ∀ text here?,
      (Expr.evaluate? text here? earlier).map (Value.settle later) =
          (Expr.evaluate? text here? later).map (Value.settle later) ∧
        ∀ value, Expr.evaluate? text here? earlier = some value →
          ∃ expr, Expr.Spelled text expr ∧
            (((∀ name ∈ expr.names, (later.orPeripheral name).isSome) ∧
                ∃ word, value.settle later = .ok word ∧ value.settled later = .known word) ∨
              ∃ before name after, expr.names = before ++ name :: after ∧
                (∀ other ∈ before, (later.orPeripheral other).isSome) ∧
                later.orPeripheral name = none ∧
                value.settle later = .error (.undefinedName name) ∧
                value.settled later = value) := by
  constructor
  · intro operator operands address
    refine ⟨encode_resolve grown operator operands address, ?_⟩
    intro fields done
    rw [encode, bind_assoc] at done
    obtain ⟨image, _, resolved⟩ := bind_eq_ok_iff.mp done
    rw [Image.resolve_fields grown] at resolved
    exact Image.exists_word_of_outcome resolved
  · intro text here?
    constructor
    · unfold Expr.evaluate?
      cases Expr.read? text with
      | none => rfl
      | some expr =>
          have same : ∀ here, (expr.value here earlier).settle later =
              (expr.value here later).settle later := fun here =>
            (Expr.settle_value grown here expr).trans
              (Expr.settle_value (.refl later) here expr).symm
          cases here? with
          | some here => exact congrArg some (same here)
          | none => cases used : expr.usesHere <;> simp [used, same]
    · intro value evaluated
      obtain ⟨expr, spelled, _, rfl⟩ := Expr.evaluate?_eq_some_iff_value.mp evaluated
      refine ⟨expr, spelled, ?_⟩
      rw [Value.settled, Expr.settle_value grown]
      rcases expr.outcome_cases (here?.getD 0) later.orPeripheral with ⟨⟨word, reached⟩, all⟩ |
        ⟨before, name, after, split, inFront, missing, stuck⟩
      · rw [reached]
        exact .inl ⟨all, word, rfl, rfl⟩
      · rw [stuck]
        exact .inr ⟨before, name, after, split, inFront, missing, rfl, rfl⟩

/-- A jump and an extension word that wait for names, one of which the chip defines, and a value
that cannot be settled: of its three names only the second one has no value. -/
theorem encode_deferred_names :
    let earlier : Resolver := fun name => if name = "NEAR".toList then some 0x0210 else none
    let later : Resolver := fun name =>
      if name = "NEAR".toList then some 0x0210
      else if name = "FAR".toList then some 0x0300 else none
    let value : Value := .pending ⟨0x0210, [⟨"LOST".toList, .plus⟩, ⟨"FAR".toList, .minus⟩]⟩
    (encode "JMP".toList (.one "FAR-NEAR+$".toList) 0x0200 earlier >>=
        List.mapM (Field.resolve later)) = .ok [.word (.known 0x3C77)] ∧
      (encode "MOV".toList (.two "#FAR-P1IN".toList "LOST".toList) 0x0200 earlier >>=
        List.mapM (Field.resolve later)) = .error (.undefinedName "LOST".toList) ∧
      Expr.evaluate? "NEAR+LOST-FAR".toList none earlier = some value ∧
      value.settle later = .error (.undefinedName "LOST".toList) ∧
      value.settled later = value := by
  intro earlier later value
  have grown : later.Extends earlier := by
    intro name word found
    by_cases near : name = "NEAR".toList
    · simpa [earlier, later, near] using found
    · rw [show earlier name = none from if_neg near] at found
      cases found
  obtain ⟨instructions, values⟩ := encode_deferred grown
  have evaluated : Expr.evaluate? "NEAR+LOST-FAR".toList none earlier = some value := by
    decide +kernel
  have settled : value.settle later = .error (.undefinedName "LOST".toList) := by
    have late := (values "NEAR+LOST-FAR".toList none).1
    rw [evaluated, Option.map_some] at late
    exact Option.some.inj (late.trans (by decide +kernel))
  refine ⟨?_, ?_, evaluated, settled, ?_⟩
  · rw [(instructions _ _ _).1]
    decide +kernel
  · rw [(instructions _ _ _).1]
    decide +kernel
  · obtain ⟨expr, _, ⟨_, word, done, _⟩ | ⟨_, _, _, _, _, _, _, kept⟩⟩ :=
      (values _ _).2 value evaluated
    · rw [settled] at done
      cases done
    · exact kept

end Msp430
