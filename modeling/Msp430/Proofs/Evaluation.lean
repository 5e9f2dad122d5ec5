import Mathlib.Data.List.Forall2
import Msp430.Instruction
import Msp430.Proofs.SymbolGrowth

/-! # Evaluation in two steps

An expression is evaluated where it stands, with the names known there, and what
is left over is settled later, with more names known. The result is the one that
a single evaluation with all names would have given (`Expr.settle_value`): the
signed sum of all terms (`Expr.outcome`), or a fault that names the leftmost name
without a value. Instructions inherit this from their expressions: encoding an
instruction early and resolving its fields later yields the fields, or the first
fault, of encoding it late (`Image.resolve_fields`).
-/

namespace Msp430

/-! ### Traversals that can fail -/

section Traversal

variable {ε α β : Type}

/-- A sequence of two steps succeeds exactly if the first one does, and the second one on its
result. -/
theorem bind_eq_ok_iff {first : Except ε α} {second : α → Except ε β} {result : β} :
    first >>= second = .ok result ↔ ∃ middle, first = .ok middle ∧ second middle = .ok result := by
  cases first with
  | error failure => simp [bind, Except.bind]
  | ok middle => simp [bind, Except.bind]

/-- A traversal succeeds with a list exactly if it succeeds element by element. -/
theorem mapM_eq_ok_iff {f : α → Except ε β} {items : List α} {results : List β} :
    items.mapM f = .ok results ↔ List.Forall₂ (fun item result => f item = .ok result)
      items results := by
  induction items generalizing results with
  | nil =>
      rw [List.forall₂_nil_left_iff]
      exact ⟨fun done => (Except.ok.inj done).symm, fun none => none ▸ rfl⟩
  | cons item rest ih =>
      rw [List.mapM_cons, List.forall₂_cons_left_iff]
      cases first : f item with
      | error failure => simp [bind, Except.bind]
      | ok result =>
          cases others : rest.mapM f with
          | error failure =>
              have stuck : ∀ tail, ¬ List.Forall₂ (fun item result => f item = .ok result)
                  rest tail := fun tail done => by
                rw [← ih, others] at done
                cases done
              simp [bind, Except.bind, stuck]
          | ok tail =>
              have reached := ih.mp others
              simp only [bind, Except.bind, pure, Except.pure, Except.ok.injEq]
              constructor
              · rintro rfl
                exact ⟨result, tail, rfl, reached, rfl⟩
              · rintro ⟨result', tail', rfl, done, rfl⟩
                rw [← ih, others] at done
                rw [Except.ok.inj done]

/-- Every result of a traversal comes from one of the elements. -/
theorem exists_of_mem_of_mapM {f : α → Except ε β} {items : List α} {results : List β}
    (done : items.mapM f = .ok results) {result : β} (member : result ∈ results) :
    ∃ item ∈ items, f item = .ok result := by
  rw [mapM_eq_ok_iff] at done
  induction done with
  | nil => cases member
  | cons first _ ih =>
      rcases List.mem_cons.mp member with rfl | inRest
      · exact ⟨_, List.mem_cons_self, first⟩
      · obtain ⟨item, inItems, made⟩ := ih inRest
        exact ⟨item, List.mem_cons_of_mem _ inItems, made⟩

/-- A traversal that fails does so at one of the elements. -/
theorem exists_of_mapM_eq_error {f : α → Except ε β} {items : List α} {failure : ε}
    (failed : items.mapM f = .error failure) : ∃ item ∈ items, f item = .error failure := by
  induction items with
  | nil => cases failed
  | cons item rest ih =>
      rw [List.mapM_cons] at failed
      cases first : f item with
      | error other =>
          rw [first] at failed
          cases failed
          exact ⟨item, List.mem_cons_self, first⟩
      | ok result =>
          cases others : rest.mapM f with
          | ok results =>
              rw [first, others] at failed
              cases failed
          | error other =>
              rw [first, others] at failed
              cases failed
              obtain ⟨later, member, failing⟩ := ih others
              exact ⟨later, List.mem_cons_of_mem _ member, failing⟩

/-- Traversals by functions that agree on the elements agree. -/
theorem mapM_congr_of_mem {f g : α → Except ε β} {items : List α}
    (agree : ∀ item ∈ items, f item = g item) : items.mapM f = items.mapM g := by
  induction items with
  | nil => rfl
  | cons item rest ih =>
      rw [List.mapM_cons, List.mapM_cons, agree item List.mem_cons_self,
        ih fun other member => agree other (List.mem_cons_of_mem _ member)]

/-- Two traversals one after the other succeed on each element in turn. -/
theorem forall₂_of_mapM_mapM {γ : Type} {f : α → Except ε β} {g : β → Except ε γ}
    {items : List α} {middle : List β} {results : List γ} (first : items.mapM f = .ok middle)
    (second : middle.mapM g = .ok results) :
    List.Forall₂ (fun item result => ∃ between, f item = .ok between ∧ g between = .ok result)
      items results := by
  rw [mapM_eq_ok_iff] at first second
  induction first generalizing results with
  | nil =>
      rw [List.forall₂_nil_left_iff] at second
      exact second ▸ .nil
  | cons done _ ih =>
      obtain ⟨result, rest, doneNext, doneRest, rfl⟩ := List.forall₂_cons_left_iff.mp second
      exact .cons ⟨_, done, doneNext⟩ (ih doneRest)

theorem exists_mapM_of_forall₂ {γ : Type} {f : α → Except ε β} {g : β → Except ε γ}
    {items : List α} {results : List γ}
    (each : List.Forall₂ (fun item result => ∃ between, f item = .ok between ∧
      g between = .ok result) items results) :
    ∃ middle, items.mapM f = .ok middle ∧ middle.mapM g = .ok results := by
  simp only [mapM_eq_ok_iff]
  induction each with
  | nil => exact ⟨[], .nil, .nil⟩
  | cons head _ ih =>
      obtain ⟨between, first, second⟩ := head
      obtain ⟨middle, firstRest, secondRest⟩ := ih
      exact ⟨between :: middle, .cons first firstRest, .cons second secondRest⟩

/-- Traversing parts laid end to end is traversing each part. -/
theorem exists_parts_of_mapM_flatten {f : α → Except ε β} {parts : List (List α)}
    {results : List β} (done : parts.flatten.mapM f = .ok results) :
    ∃ resultParts, parts.mapM (List.mapM f) = .ok resultParts ∧ results = resultParts.flatten := by
  induction parts generalizing results with
  | nil => exact ⟨[], rfl, (Except.ok.inj done).symm⟩
  | cons part rest ih =>
      rw [List.flatten_cons, List.mapM_append] at done
      obtain ⟨front, frontDone, back⟩ := bind_eq_ok_iff.mp done
      obtain ⟨tail, tailDone, joined⟩ := bind_eq_ok_iff.mp back
      obtain ⟨tailParts, tailPartsDone, rfl⟩ := ih tailDone
      refine ⟨front :: tailParts, ?_, (Except.ok.inj joined).symm⟩
      rw [List.mapM_cons, frontDone, tailPartsDone]
      rfl

theorem mapM_flatten_of_forall₂ {f : α → Except ε β} {parts : List (List α)}
    {resultParts : List (List β)}
    (each : List.Forall₂ (fun part result => part.mapM f = .ok result) parts resultParts) :
    parts.flatten.mapM f = .ok resultParts.flatten := by
  rw [mapM_eq_ok_iff]
  exact List.rel_flatten (each.imp fun part result done => mapM_eq_ok_iff.mp done)

end Traversal

/-! ### References -/

namespace Reference

theorem addMentions_cases (resolver : Resolver) (sum : Int) (mentions : List Mention) :
    ((∃ total, addMentions resolver sum mentions = .ok total) ∧
        ∀ mention ∈ mentions, (resolver mention.name).isSome) ∨
      ∃ mention ∈ mentions, resolver mention.name = none ∧
        addMentions resolver sum mentions = .error mention.name := by
  induction mentions generalizing sum with
  | nil => exact .inl ⟨⟨sum, rfl⟩, by simp⟩
  | cons mention rest ih =>
      cases found : resolver mention.name with
      | none =>
          refine .inr ⟨mention, List.mem_cons_self, found, ?_⟩
          simp only [addMentions, found]
      | some word =>
          simp only [addMentions, found, List.forall_mem_cons, Option.isSome_some, true_and]
          rcases ih (sum + mention.sign.apply word.toNat) with
            done | ⟨other, member, missing, stuck⟩
          · exact .inl done
          · exact .inr ⟨other, List.mem_cons_of_mem _ member, missing, stuck⟩

/-- Resolvers that agree on the names give the same sum, or fail with the same name. -/
theorem addMentions_congr {first second : Resolver} {mentions : List Mention}
    (agree : ∀ mention ∈ mentions, first mention.name = second mention.name) (sum : Int) :
    addMentions first sum mentions = addMentions second sum mentions := by
  induction mentions generalizing sum with
  | nil => rfl
  | cons mention rest ih =>
      rw [List.forall_mem_cons] at agree
      rw [addMentions, addMentions, agree.1]
      simp only [ih agree.2]

/-- A reference comes to a word if all its names have values, and otherwise fails with one that
has none. -/
theorem resolve_cases (resolver : Resolver) (reference : Reference) :
    ((∃ word, reference.resolve resolver = .ok word) ∧
        ∀ mention ∈ reference.mentions, (resolver.orPeripheral mention.name).isSome) ∨
      ∃ mention ∈ reference.mentions, resolver.orPeripheral mention.name = none ∧
        reference.resolve resolver = .error mention.name := by
  unfold resolve
  rcases addMentions_cases resolver.orPeripheral reference.offset reference.mentions with
    ⟨⟨total, added⟩, valued⟩ | ⟨mention, member, missing, stuck⟩
  · exact .inl ⟨⟨Word.ofInt total, by rw [added]; rfl⟩, valued⟩
  · exact .inr ⟨mention, member, missing, by rw [stuck]; rfl⟩

end Reference

/-! ### Expressions -/

namespace Expr

/-- The names that an expression mentions, in order. -/
def names (expr : Expr) : List Text :=
  expr.filterMap fun signed =>
    match signed.term with
    | .name text => some text
    | _ => none

/-- The word that an expression comes to if every name has to have a value. The leftmost name
without one is the fault. -/
def outcome (here : Word) (resolver : Resolver) (expr : Expr) : Except Fault Word :=
  match expr.unresolved resolver with
  | [] => .ok (Word.ofInt (expr.offset here resolver))
  | mention :: _ => .error (.undefinedName mention.name)

theorem offset_cons (here : Word) (resolver : Resolver) (signed : SignedTerm) (rest : Expr) :
    offset here resolver (signed :: rest) =
      signed.contribution here resolver + rest.offset here resolver :=
  rfl

theorem unresolved_cons_of_word? {resolver : Resolver} {signed : SignedTerm} {here word : Word}
    (known : signed.term.word? here resolver = some word) (rest : Expr) :
    unresolved resolver (signed :: rest) = rest.unresolved resolver := by
  unfold unresolved
  apply List.filterMap_cons_none
  obtain ⟨sign, term⟩ := signed
  cases term with
  | here => rfl
  | literal datum => rfl
  | name text =>
      change resolver text = some word at known
      simp [known]

theorem unresolved_cons_of_none {resolver : Resolver} {sign : Sign} {text : Text}
    (missing : resolver text = none) (rest : Expr) :
    unresolved resolver (⟨sign, .name text⟩ :: rest) = ⟨text, sign⟩ :: rest.unresolved resolver :=
  List.filterMap_cons_some (by simp [missing])

/-- Every name has a value exactly if none is left unresolved. -/
theorem unresolved_eq_nil_iff {resolver : Resolver} {expr : Expr} :
    expr.unresolved resolver = [] ↔ ∀ name ∈ expr.names, (resolver name).isSome := by
  induction expr with
  | nil => simp [unresolved, names]
  | cons signed rest ih =>
      obtain ⟨sign, term⟩ := signed
      cases term with
      | here => exact ih
      | literal datum => exact ih
      | name text =>
          have namesCons : names (⟨sign, .name text⟩ :: rest) = text :: names rest := rfl
          rw [namesCons, List.forall_mem_cons]
          cases found : resolver text with
          | none => simp [unresolved_cons_of_none found]
          | some word =>
              have known : (Term.name text).word? 0 resolver = some word := found
              rw [unresolved_cons_of_word? known, ih]
              simp

/-- A text denotes a word if it is an expression, all its names have values, and its terms add up
to the word modulo 65536. -/
def Denotes (text : Text) (here : Word) (resolver : Resolver) (word : Word) : Prop :=
  ∃ expr, read? text = some expr ∧ (∀ name ∈ expr.names, (resolver name).isSome) ∧
    word = Word.ofInt (expr.offset here resolver)

/-- An expression comes to a word exactly if all its names have values, and the word is then
the sum of its terms modulo 65536. -/
theorem outcome_eq_ok_iff {here word : Word} {resolver : Resolver} {expr : Expr} :
    expr.outcome here resolver = .ok word ↔
      (∀ name ∈ expr.names, (resolver name).isSome) ∧
        word = Word.ofInt (expr.offset here resolver) := by
  rw [← unresolved_eq_nil_iff]
  unfold outcome
  cases expr.unresolved resolver with
  | nil => simp [eq_comm]
  | cons mention rest => simp

/-- Adding the outstanding names of an early evaluation to its sum gives what a late evaluation
gives. The induction is on the terms and generalizes the sum of the terms in front. -/
theorem addMentions_unresolved {earlier later : Resolver} (grown : later.Extends earlier)
    (here : Word) (expr : Expr) (sum : Int) :
    Reference.addMentions later (sum + expr.offset here earlier) (expr.unresolved earlier) =
      match expr.unresolved later with
      | [] => .ok (sum + expr.offset here later)
      | mention :: _ => .error mention.name := by
  induction expr generalizing sum with
  | nil => rfl
  | cons signed rest ih =>
      have bothKnow : ∀ {word : Word}, signed.term.word? here earlier = some word →
          signed.term.word? here later = some word →
          Reference.addMentions later (sum + offset here earlier (signed :: rest))
              (unresolved earlier (signed :: rest)) =
            match unresolved later (signed :: rest) with
            | [] => .ok (sum + offset here later (signed :: rest))
            | mention :: _ => .error mention.name := by
        intro word early late
        rw [unresolved_cons_of_word? early, unresolved_cons_of_word? late, offset_cons,
          offset_cons, SignedTerm.contribution, SignedTerm.contribution, early, late,
          ← Int.add_assoc, ih, ← Int.add_assoc]
      obtain ⟨sign, term⟩ := signed
      cases term with
      | here => exact bothKnow rfl rfl
      | literal datum => exact bothKnow rfl rfl
      | name text =>
          cases early : earlier text with
          | some word => exact bothKnow early (grown early)
          | none =>
              have nothing : SignedTerm.contribution here earlier ⟨sign, .name text⟩ = 0 := by
                simp [SignedTerm.contribution, Term.word?, early]
              rw [unresolved_cons_of_none early, offset_cons, nothing, Int.zero_add]
              cases late : later text with
              | none => simp [Reference.addMentions, late, unresolved_cons_of_none late]
              | some word =>
                  have added : SignedTerm.contribution here later ⟨sign, .name text⟩ =
                      sign.apply word.toNat := by
                    simp [SignedTerm.contribution, Term.word?, late]
                  have known : (Term.name text).word? here later = some word := late
                  simp only [Reference.addMentions, late]
                  rw [unresolved_cons_of_word? known, offset_cons, added, Int.add_right_comm, ih,
                    ← Int.add_assoc]

/-- Settling an expression that was evaluated early comes to what it comes to with names that have
their early values, and, where they had none, the values with which it is settled. -/
theorem settle_value_of_agree {earlier later names : Resolver} {expr : Expr}
    (grown : names.Extends earlier)
    (agree : ∀ mention ∈ expr.unresolved earlier,
      later.orPeripheral mention.name = names mention.name) (here : Word) :
    (expr.value here earlier).settle later = expr.outcome here names := by
  have added := addMentions_unresolved grown here expr 0
  simp only [Int.zero_add] at added
  have settled : (expr.value here earlier).settle later =
      ((Reference.addMentions later.orPeripheral (expr.offset here earlier)
        (expr.unresolved earlier)).map Word.ofInt).mapError .undefinedName := by
    unfold value
    cases expr.unresolved earlier with
    | nil => rfl
    | cons mention rest => rfl
  rw [settled, Reference.addMentions_congr agree, added]
  unfold outcome
  cases expr.unresolved names with
  | nil => rfl
  | cons mention rest => rfl

/-- **Early evaluation loses nothing.** Evaluating an expression with some names and settling it
later, with those names unchanged, comes to what the expression comes to later. -/
theorem settle_value {earlier later : Resolver} (grown : later.Extends earlier) (here : Word)
    (expr : Expr) :
    (expr.value here earlier).settle later = expr.outcome here later.orPeripheral :=
  settle_value_of_agree ((later.orPeripheral_extends).trans grown) (fun _ _ => rfl) here

theorem evaluate_eq_ok_iff {text : Text} {here : Word} {resolver : Resolver} {value : Value} :
    evaluate text here resolver = .ok value ↔
      ∃ expr, read? text = some expr ∧ value = expr.value here resolver := by
  unfold evaluate
  cases read? text with
  | none => simp
  | some expr => simp [eq_comm]

/-- A value that is known at once needs no peripheral names. -/
theorem outcome_of_value_eq_known {earlier later : Resolver} (grown : later.Extends earlier)
    {here word : Word} {expr : Expr} (known : expr.value here earlier = .known word) :
    expr.outcome here later.orPeripheral = .ok word := by
  rw [← settle_value grown, known, Value.settle]

end Expr

/-! ### Fields and instructions -/

namespace Field

/-- A word field resolves to the word that its expression comes to. -/
theorem resolve_word_value {earlier later : Resolver} (grown : later.Extends earlier)
    (here : Word) (expr : Expr) :
    Field.resolve later (.word (expr.value here earlier)) =
      (expr.outcome here later.orPeripheral).map fun datum => .word (.known datum) := by
  rw [← Expr.settle_value grown, Field.resolve]
  cases (expr.value here earlier).settle later with
  | error fault => rfl
  | ok datum => rfl

/-- What resolving a field can come to. -/
theorem resolve_cases {resolver : Resolver} {field resolved : Field}
    (done : field.resolve resolver = .ok resolved) :
    (∃ value datum, field = .word value ∧ value.settle resolver = .ok datum ∧
      resolved = .word (.known datum)) ∨
    (∃ value datum, field = .byte value ∧ value.settle resolver = .ok datum ∧
      datum.toNat < 256 ∧ resolved = .byte (.known datum)) ∨
    (∃ condition source target text address datum, field = .jump condition source target text ∧
      target.resolve resolver = .ok address ∧
      Jump.encode? condition source address = some datum ∧ resolved = .word (.known datum)) ∨
    (∃ count, field = .reserve count ∧ resolved = .reserve count) := by
  cases field with
  | word value =>
      obtain ⟨datum, settled, rest⟩ := bind_eq_ok_iff.mp done
      exact .inl ⟨value, datum, rfl, settled, (Except.ok.inj rest).symm⟩
  | byte value =>
      obtain ⟨datum, settled, rest⟩ := bind_eq_ok_iff.mp done
      split at rest
      case isTrue fits =>
        exact .inr (.inl ⟨value, datum, rfl, settled, fits, (Except.ok.inj rest).symm⟩)
      case isFalse => cases rest
  | jump condition source target text =>
      obtain ⟨address, settled, rest⟩ := bind_eq_ok_iff.mp done
      have reached : target.resolve resolver = .ok address := by
        cases found : target.resolve resolver with
        | error name => rw [found] at settled; cases settled
        | ok other => rw [found] at settled; cases settled; rfl
      split at rest
      case h_1 datum encoded =>
        exact .inr (.inr (.inl ⟨condition, source, target, text, address, datum, rfl, reached,
          encoded, (Except.ok.inj rest).symm⟩))
      case h_2 => cases rest
  | reserve count => exact .inr (.inr (.inr ⟨count, rfl, (Except.ok.inj done).symm⟩))

/-- Resolving a field does not change its size. -/
theorem size_of_resolve {resolver : Resolver} {field resolved : Field}
    (done : field.resolve resolver = .ok resolved) : resolved.size = field.size := by
  rcases resolve_cases done with ⟨value, datum, rfl, _, rfl⟩ | ⟨value, datum, rfl, _, _, rfl⟩ |
    ⟨condition, source, target, text, address, datum, rfl, _, _, rfl⟩ | ⟨count, rfl, rfl⟩ <;> rfl

/-- A resolved field waits for nothing. -/
theorem isPending_of_resolve {resolver : Resolver} {field resolved : Field}
    (done : field.resolve resolver = .ok resolved) : resolved.isPending = false := by
  rcases resolve_cases done with ⟨value, datum, rfl, _, rfl⟩ | ⟨value, datum, rfl, _, _, rfl⟩ |
    ⟨condition, source, target, text, address, datum, rfl, _, _, rfl⟩ | ⟨count, rfl, rfl⟩ <;> rfl

/-- A field that waits for nothing has as many bytes as its size says. -/
theorem length_bytes {field : Field} (ready : field.isPending = false) :
    field.bytes.length = field.size.toNat := by
  cases field with
  | word value => cases value with
    | known datum => rfl
    | pending reference => cases ready
  | byte value => cases value with
    | known datum => rfl
    | pending reference => cases ready
  | jump condition source target text => cases ready
  | reserve count => exact List.length_replicate

end Field

namespace Image

/-- What an instruction comes to if every name has to have a value: its words, or the first
fault among its expressions. -/
def outcome (address : Word) (resolver : Resolver) : Image → Except Fault (List Field)
  | words first extensions => do
    let rest ← extensions.mapM fun extension =>
      (extension.outcome address resolver).map fun datum => .word (.known datum)
    return .word (.known first) :: rest
  | jump condition target text => do
    let target ← target.outcome address resolver
    match Jump.encode? condition address target with
    | some datum => return [.word (.known datum)]
    | none => throw (.jumpRange text)

/-- **An instruction may wait for its names.** Encoding it with the names known early and
resolving its fields with those known later comes to what the instruction comes to later. -/
theorem resolve_fields {earlier later : Resolver} (grown : later.Extends earlier)
    (address : Word) (image : Image) :
    (image.fields address earlier >>= List.mapM (Field.resolve later)) =
      image.outcome address later.orPeripheral := by
  cases image with
  | words first extensions =>
      change List.mapM (Field.resolve later) (.word (.known first) :: _) = _
      have agree : ∀ extension ∈ extensions,
          Field.resolve later (.word (Expr.value address earlier extension)) =
            (Expr.outcome address later.orPeripheral extension).map
              fun datum => .word (.known datum) :=
        fun extension _ => Field.resolve_word_value grown address extension
      rw [List.mapM_cons, List.mapM_map, Function.comp_def, mapM_congr_of_mem agree]
      rfl
  | jump condition target text =>
      have settled := Expr.settle_value grown address target
      simp only [outcome, fields, ← settled]
      cases target.value address earlier with
      | known reached =>
          simp only [Value.settle, bind, Except.bind]
          cases Jump.encode? condition address reached with
          | none => rfl
          | some datum => rfl
      | pending reference =>
          change List.mapM (Field.resolve later) [_] = _
          rw [List.mapM_cons, List.mapM_nil, Field.resolve, Value.settle]
          cases (reference.resolve later).mapError Fault.undefinedName with
          | error fault => rfl
          | ok reached =>
              simp only [bind, Except.bind]
              cases Jump.encode? condition address reached with
              | none => rfl
              | some datum => rfl

end Image

/-- Encoding an instruction early and resolving it later does not depend on what was known
early. -/
theorem encode_resolve {earlier later : Resolver} (grown : later.Extends earlier)
    (operator : Text) (operands : Operands) (address : Word) :
    (encode operator operands address earlier >>= List.mapM (Field.resolve later)) =
      (encode operator operands address later >>= List.mapM (Field.resolve later)) := by
  unfold encode
  rw [bind_assoc, bind_assoc]
  refine congrArg _ (funext fun image => ?_)
  rw [Image.resolve_fields grown, Image.resolve_fields (.refl later)]

end Msp430
