import Mathlib.Data.Int.ModEq
import Msp430.Proofs.ConstantValues
import Msp430.Proofs.ExpressionGrammar

/-! # Fields of a moved program

If every label of a program moves by the same distance, so does every sum that counts
addresses once on balance (`Expr.outcome_moved`), and a jump to such a sum keeps its
word. Other sums change, but whether they come to a word depends on the names that
have values, and these are the same. So the fields of a line and those of the line
moved have the same sizes and are completed to the same faults, and the first word of
an instruction stays what it is (`Image.fields_matches`, `Data.fields_matches`).
-/

namespace Msp430

/-! ### Outcomes of two runs -/

namespace Outcome

variable {α β γ δ : Type}

/-- Two outcomes that are related results or the same fault. -/
inductive Alike (related : α → β → Prop) : Except Fault α → Except Fault β → Prop where
  | ok {first : α} {second : β} (same : related first second) :
      Alike related (.ok first) (.ok second)
  | error (fault : Fault) : Alike related (.error fault) (.error fault)

theorem Alike.cases {related : α → β → Prop} {first : Except Fault α} {second : Except Fault β}
    (alike : Alike related first second) :
    (∃ fault, first = .error fault ∧ second = .error fault) ∨
      ∃ result other, first = .ok result ∧ second = .ok other ∧ related result other := by
  cases alike with
  | ok same => exact .inr ⟨_, _, rfl, rfl, same⟩
  | error fault => exact .inl ⟨fault, rfl, rfl⟩

theorem Alike.imp {related weaker : α → β → Prop} {first : Except Fault α}
    {second : Except Fault β} (alike : Alike related first second)
    (weaken : ∀ result other, related result other → weaker result other) :
    Alike weaker first second := by
  cases alike with
  | ok same => exact .ok (weaken _ _ same)
  | error fault => exact .error fault

theorem Alike.map {related : α → β → Prop} {relatedLast : γ → δ → Prop} {first : Except Fault α}
    {second : Except Fault β} {change : α → γ} {changeSecond : β → δ}
    (alike : Alike related first second)
    (step : ∀ result other, related result other →
      relatedLast (change result) (changeSecond other)) :
    Alike relatedLast (first.map change) (second.map changeSecond) := by
  cases alike with
  | ok same => exact .ok (step _ _ same)
  | error fault => exact .error fault

theorem Alike.bind {related : α → β → Prop} {relatedLast : γ → δ → Prop} {first : Except Fault α}
    {second : Except Fault β} {next : α → Except Fault γ} {nextSecond : β → Except Fault δ}
    (alike : Alike related first second)
    (step : ∀ result other, related result other →
      Alike relatedLast (next result) (nextSecond other)) :
    Alike relatedLast (first >>= next) (second >>= nextSecond) := by
  cases alike with
  | ok same => exact step _ _ same
  | error fault => exact .error fault

theorem Alike.mapM {relatedLast : γ → δ → Prop} {items : List α} {others : List β}
    {action : α → Except Fault γ} {actionSecond : β → Except Fault δ}
    (each : List.Forall₂ (fun item other => Alike relatedLast (action item) (actionSecond other))
      items others) :
    Alike (List.Forall₂ relatedLast) (items.mapM action) (others.mapM actionSecond) := by
  induction each with
  | nil => exact .ok .nil
  | cons head _ ih =>
      rw [List.mapM_cons, List.mapM_cons]
      refine head.bind fun first second same => ih.bind fun rest otherRest sameRest => ?_
      exact .ok (.cons same sameRest)

/-- Whether a result, if there is one, has a property. -/
instance (outcome : Except Fault α) (property : α → Prop) [DecidablePred property] :
    Decidable (∀ result, outcome = .ok result → property result) :=
  match outcome with
  | .ok result => decidable_of_iff (property result) (by simp)
  | .error _ => .isTrue (by simp)

end Outcome

/-! ### Expressions -/

/-- A resolver of a program and one of the program moved: the same names have values, and the
values lie apart by the distance. -/
def Resolver.Moved (distance : Word) (resolver moved : Resolver) : Prop :=
  ∀ name, moved name = (resolver name).map (· + distance)

/-- How often a term counts an address: literals do not. -/
def SignedTerm.weight (signed : SignedTerm) : Int :=
  match signed.term with
  | .literal _ => 0
  | .here | .name _ => signed.sign.apply 1

namespace Expr

/-- How many addresses an expression counts on balance: the signs of its names and of the address
of its line, added up. -/
def weight (expr : Expr) : Int :=
  (expr.map SignedTerm.weight).sum

/-- An expression without names and without the address of its line. -/
def IsAbsolute (expr : Expr) : Prop :=
  expr.names = [] ∧ expr.usesHere = false

instance (expr : Expr) : Decidable expr.IsAbsolute :=
  inferInstanceAs (Decidable (_ ∧ _))

variable {first second : Resolver} {expr : Expr}

/-- Which names are left open depends only on which names have values. -/
theorem unresolved_of_isSome
    (same : ∀ name ∈ expr.names, (second name).isSome = (first name).isSome) :
    expr.unresolved second = expr.unresolved first := by
  unfold unresolved
  apply List.filterMap_congr
  rintro ⟨sign, term⟩ member
  cases term with
  | here => rfl
  | literal datum => rfl
  | name text =>
      have mentioned : text ∈ expr.names := List.mem_filterMap.mpr ⟨_, member, rfl⟩
      have isNone : (second text).isNone = (first text).isNone := by
        rw [← Option.not_isSome, ← Option.not_isSome, same text mentioned]
      simp only [isNone]

/-- Whether an expression comes to a word, and which fault it is otherwise, depends only on which
names have values. -/
theorem outcome_alike
    (same : ∀ name ∈ expr.names, (second name).isSome = (first name).isSome) (here there : Word) :
    Outcome.Alike (fun _ _ => True) (expr.outcome here first) (expr.outcome there second) := by
  unfold outcome
  rw [unresolved_of_isSome same]
  cases expr.unresolved first with
  | nil => exact .ok trivial
  | cons mention rest => exact .error _

theorem ofInt_eq_of_modEq {sum other : Int} (same : sum ≡ other [ZMOD 65536]) :
    Word.ofInt sum = Word.ofInt other := by
  apply BitVec.eq_of_toNat_eq
  have equal : sum % 65536 = other % 65536 := same
  rw [← Int.ofNat_inj, toNat_ofInt, toNat_ofInt, equal]

/-- An address moves by the distance under either sign, modulo 65536. -/
theorem apply_moved (sign : Sign) (word distance : Word) :
    sign.apply (word + distance).toNat ≡
      sign.apply word.toNat + sign.apply 1 * distance.toNat [ZMOD 65536] := by
  have moved : ((word + distance).toNat : Int) ≡ word.toNat + distance.toNat [ZMOD 65536] := by
    rw [BitVec.toNat_add, Int.ModEq]
    omega
  cases sign with
  | plus => simpa [Sign.apply] using moved
  | minus =>
      have negated := moved.neg
      rw [neg_add] at negated
      simpa [Sign.apply] using negated

/-- A sum moves by the distance as often as it counts addresses. The induction is on the terms. -/
theorem offset_moved {distance : Word} (here : Word)
    (known : ∀ name ∈ expr.names, (first name).isSome)
    (apart : ∀ name ∈ expr.names, second name = (first name).map (· + distance)) :
    expr.offset (here + distance) second ≡
      expr.offset here first + expr.weight * distance.toNat [ZMOD 65536] := by
  induction expr with
  | nil => simp [offset, weight]
  | cons signed rest ih =>
      have split : ∀ own : Int,
          own + offset here first rest + weight (signed :: rest) * distance.toNat =
            own + signed.weight * distance.toNat +
              (offset here first rest + weight rest * distance.toNat) := by
        intro own
        rw [weight, List.map_cons, List.sum_cons, ← weight]
        ring
      rw [offset_cons, offset_cons, split]
      obtain ⟨sign, term⟩ := signed
      cases term with
      | here => exact (apply_moved sign here distance).add (ih known apart)
      | literal datum =>
          have same : SignedTerm.contribution (here + distance) second ⟨sign, .literal datum⟩ =
              SignedTerm.contribution here first ⟨sign, .literal datum⟩ +
                SignedTerm.weight ⟨sign, .literal datum⟩ * distance.toNat := by
            simp [SignedTerm.contribution, SignedTerm.weight, Term.word?]
          exact Int.ModEq.add (by rw [same]) (ih known apart)
      | name text =>
          have namesCons : names (⟨sign, .name text⟩ :: rest) = text :: names rest := rfl
          rw [namesCons, List.forall_mem_cons] at known apart
          obtain ⟨word, found⟩ := Option.isSome_iff_exists.mp known.1
          have foundMoved : second text = some (word + distance) := by
            rw [apart.1, found]
            rfl
          refine Int.ModEq.add ?_ (ih known.2 apart.2)
          simp only [SignedTerm.contribution, SignedTerm.weight, Term.word?, found, foundMoved]
          exact apply_moved sign word distance

/-- **A sum that counts one address moves with its program.** -/
theorem outcome_moved {distance : Word} (balanced : expr.weight = 1) (here : Word)
    (apart : ∀ name ∈ expr.names, second name = (first name).map (· + distance)) :
    expr.outcome (here + distance) second = (expr.outcome here first).map (· + distance) := by
  have sameNames : expr.unresolved second = expr.unresolved first := by
    apply unresolved_of_isSome
    intro name member
    rw [apart name member, Option.isSome_map]
  unfold outcome
  rw [sameNames]
  cases open? : expr.unresolved first with
  | cons mention rest => rfl
  | nil =>
      have moved := offset_moved here (unresolved_eq_nil_iff.mp open?) apart
      rw [balanced, one_mul] at moved
      refine congrArg Except.ok ((ofInt_eq_of_modEq moved).trans ?_)
      apply BitVec.eq_of_toNat_eq
      rw [← Int.ofNat_inj, toNat_ofInt, BitVec.toNat_add, Int.natCast_mod, Int.natCast_add,
        toNat_ofInt]
      simp

/-- An expression has a known value exactly if it comes to a word. -/
theorem value_eq_known_iff {here word : Word} :
    expr.value here first = .known word ↔ expr.outcome here first = .ok word := by
  unfold value outcome
  cases expr.unresolved first with
  | nil => simp
  | cons mention rest => simp

end Expr

/-- A jump and its target may move together. -/
theorem Jump.encode?_moved (condition : Condition) (source target distance : Word) :
    encode? condition (source + distance) (target + distance) =
      encode? condition source target := by
  have same : target + distance - (source + distance + 2) = target - (source + 2) := by
    grind
  rw [encode?, Jump.distance, same, encode?, Jump.distance]

/-! ### Fields -/

/-- The resolvers that fields are completed with, in a program and in the program moved. They know
what was known early, they lie apart by the distance, and they know the names with given keys. -/
structure Resolver.Later (distance : Word) (keys : List Text) (early earlyMoved : Resolver)
    (final finalMoved : Resolver) : Prop where
  grown : final.Extends early
  grownMoved : finalMoved.Extends earlyMoved
  apart : final.Moved distance finalMoved
  defined : ∀ name, Text.upper name ∈ keys → (final name).isSome

/-- The chip has the same names wherever a program stands. -/
theorem Resolver.Moved.isSome_orPeripheral {distance : Word} {resolver moved : Resolver}
    (apart : resolver.Moved distance moved) (name : Text) :
    (moved.orPeripheral name).isSome = (resolver.orPeripheral name).isSome := by
  rw [orPeripheral, apart name, orPeripheral]
  cases resolver name <;> rfl

theorem Resolver.Moved.orPeripheral {distance : Word} {resolver moved : Resolver}
    (apart : resolver.Moved distance moved) {name : Text}
    (own : Peripheral.value? name = none ∨ (resolver name).isSome) :
    moved.orPeripheral name = (resolver.orPeripheral name).map (· + distance) := by
  rw [Resolver.orPeripheral, apart name, Resolver.orPeripheral]
  cases found : resolver name with
  | some word => rfl
  | none =>
      rcases own with foreign | defined
      · rw [foreign]
        rfl
      · rw [found] at defined
        cases defined

namespace Field

/-- Two fields of one size. -/
def SameSize (field moved : Field) : Prop :=
  moved.size = field.size

/-- Two fields that are the same known word. -/
def SameWord (field moved : Field) : Prop :=
  ∃ word, field = .word (.known word) ∧ moved = .word (.known word)

theorem SameWord.sameSize {field moved : Field} (same : SameWord field moved) :
    SameSize field moved := by
  obtain ⟨word, rfl, rfl⟩ := same
  rfl

variable (distance : Word) (keys : List Text) (early earlyMoved : Resolver)

/-- Fields of a program and of the program moved: they have the same size, and are completed to
related fields or to the same fault. -/
structure Matches (related : Field → Field → Prop) (field moved : Field) : Prop where
  size : SameSize field moved
  completed : ∀ final finalMoved : Resolver,
    Resolver.Later distance keys early earlyMoved final finalMoved →
    Outcome.Alike related (Settlement.completeField final field)
      (Settlement.completeField finalMoved moved)

variable {distance keys early earlyMoved}

theorem Matches.imp {related weaker : Field → Field → Prop} {field moved : Field}
    (same : Matches distance keys early earlyMoved related field moved)
    (weaken : ∀ result other, related result other → weaker result other) :
    Matches distance keys early earlyMoved weaker field moved :=
  ⟨same.size, fun final finalMoved later => (same.completed final finalMoved later).imp weaken⟩

/-- A field that waits for nothing is the same wherever its program stands. -/
theorem matches_of_ready {related : Field → Field → Prop} {field : Field}
    (ready : field.isPending = false) (same : related field field) :
    Matches distance keys early earlyMoved related field field := by
  refine ⟨rfl, fun final finalMoved _ => ?_⟩
  have complete : ∀ resolver, Settlement.completeField resolver field = .ok field := by
    intro resolver
    rw [Settlement.completeField, ready]
    rfl
  rw [complete, complete]
  exact .ok same

/-- A word may have any value, but it has one in both programs or in neither. -/
theorem matches_word (here there : Word) (expr : Expr) :
    Matches distance keys early earlyMoved SameSize (.word (expr.value here early))
      (.word (expr.value there earlyMoved)) := by
  refine ⟨rfl, fun final finalMoved later => ?_⟩
  rw [Settlement.completeField_eq_resolve (fun _ same => by cases same),
    Settlement.completeField_eq_resolve (fun _ same => by cases same),
    resolve_word_value later.grown, resolve_word_value later.grownMoved]
  have alike := @Expr.outcome_alike final.orPeripheral finalMoved.orPeripheral expr
    (fun name _ => later.apart.isSome_orPeripheral name) here there
  exact alike.map fun _ _ _ => rfl

variable (distance keys early earlyMoved) in
/-- The fields of an instruction and of the instruction moved: they match, and the first ones are
completed to the same word. -/
def InstructionMatches (fields moved : List Field) : Prop :=
  ∃ first firstMoved rest restMoved, fields = first :: rest ∧ moved = firstMoved :: restMoved ∧
    Matches distance keys early earlyMoved SameWord first firstMoved ∧
    List.Forall₂ (Matches distance keys early earlyMoved SameSize) rest restMoved

theorem InstructionMatches.forall₂ {fields moved : List Field}
    (same : InstructionMatches distance keys early earlyMoved fields moved) :
    List.Forall₂ (Matches distance keys early earlyMoved SameSize) fields moved := by
  obtain ⟨first, firstMoved, rest, restMoved, rfl, rfl, head, tail⟩ := same
  exact .cons (head.imp fun _ _ => SameWord.sameSize) tail

end Field

/-! ### Instructions -/

namespace Image

/-- An instruction that may move with its program. Its target, if it is a jump, counts one address
on balance, and no name in it is one that the chip defines and the program does not. -/
def Movable (keys : List Text) : Image → Prop
  | words _ _ => True
  | jump _ target _ => target.weight = 1 ∧
      ∀ name ∈ target.names, Peripheral.value? name = none ∨ Text.upper name ∈ keys

instance (keys : List Text) : (image : Image) → Decidable (image.Movable keys)
  | words _ _ => inferInstanceAs (Decidable True)
  | jump _ _ _ => inferInstanceAs (Decidable (_ ∧ _))

variable {distance : Word} {keys : List Text} {early earlyMoved : Resolver}

/-- A jump that waits for its target is completed to the same word in the program moved. -/
theorem jump_matches {condition : Condition} {address : Word} {target : Expr} {text : Text}
    {reference referenceMoved : Reference} (movable : (jump condition target text).Movable keys)
    (value : target.value address early = .pending reference)
    (valueMoved : target.value (address + distance) earlyMoved = .pending referenceMoved) :
    Field.Matches distance keys early earlyMoved Field.SameWord
      (.jump condition address reference text)
      (.jump condition (address + distance) referenceMoved text) := by
  refine ⟨rfl, fun final finalMoved later => ?_⟩
  have settled := Expr.settle_value later.grown address target
  have settledMoved := Expr.settle_value later.grownMoved (address + distance) target
  rw [value, Value.settle] at settled
  rw [valueMoved, Value.settle] at settledMoved
  have moved : target.outcome (address + distance) finalMoved.orPeripheral =
      (target.outcome address final.orPeripheral).map (· + distance) := by
    apply Expr.outcome_moved movable.1
    intro name member
    exact later.apart.orPeripheral ((movable.2 name member).imp_right (later.defined name))
  rw [Settlement.completeField_eq_resolve (fun _ same => by cases same),
    Settlement.completeField_eq_resolve (fun _ same => by cases same), Field.resolve,
    Field.resolve, settled, settledMoved, moved]
  cases target.outcome address final.orPeripheral with
  | error fault => exact .error fault
  | ok reached =>
      dsimp only [Except.map, bind, Except.bind]
      rw [Jump.encode?_moved]
      cases Jump.encode? condition address reached with
      | none => exact .error _
      | some datum => exact .ok ⟨datum, rfl, rfl⟩

/-- **An instruction moves with its program.** Its fields keep their sizes and its first word, or
it has the same fault. -/
theorem fields_matches {image : Image} (movable : image.Movable keys)
    (apart : early.Moved distance earlyMoved) (address : Word) :
    Outcome.Alike (Field.InstructionMatches distance keys early earlyMoved)
      (image.fields address early) (image.fields (address + distance) earlyMoved) := by
  cases image with
  | words first extensions =>
      refine .ok ⟨_, _, _, _, rfl, rfl, Field.matches_of_ready rfl ⟨first, rfl, rfl⟩, ?_⟩
      rw [List.forall₂_map_left_iff, List.forall₂_map_right_iff, List.forall₂_same]
      exact fun extension _ => Field.matches_word address (address + distance) extension
  | jump condition target text =>
      have moved : target.outcome (address + distance) earlyMoved =
          (target.outcome address early).map (· + distance) :=
        Expr.outcome_moved movable.1 address fun name _ => apart name
      simp only [fields]
      cases value : target.value address early with
      | known reached =>
          rw [Expr.value_eq_known_iff.mp value] at moved
          rw [Expr.value_eq_known_iff.mpr moved]
          dsimp only
          rw [Jump.encode?_moved]
          cases Jump.encode? condition address reached with
          | none => exact .error _
          | some word =>
              exact .ok ⟨_, _, _, _, rfl, rfl, Field.matches_of_ready rfl ⟨word, rfl, rfl⟩, .nil⟩
      | pending reference =>
          cases valueMoved : target.value (address + distance) earlyMoved with
          | known reached =>
              -- What is known in the program moved would be known in the program.
              rw [Expr.value_eq_known_iff.mp valueMoved] at moved
              cases outcome : target.outcome address early with
              | error fault =>
                  rw [outcome] at moved
                  cases moved
              | ok word =>
                  rw [Expr.value_eq_known_iff.mpr outcome] at value
                  cases value
          | pending referenceMoved =>
              exact .ok ⟨_, _, _, _, rfl, rfl, jump_matches movable value valueMoved, .nil⟩

end Image

/-! ### Data -/

namespace Data

/-- A text that is no expression, or an expression without names and without the address of its
line. -/
def AbsoluteText (text : Text) : Prop :=
  ∀ expr ∈ Expr.read? text, expr.IsAbsolute

/-- Data that may move with its program. Where a value decides about sizes or faults, it must not
depend on an address. -/
def Movable (items : Text) : Directive → Prop
  | .space => AbsoluteText items
  | .byte => ∀ item ∈ Scan.splitList items, unquote? item = none → AbsoluteText item
  | .word => True

instance (text : Text) : Decidable (AbsoluteText text) :=
  inferInstanceAs (Decidable (∀ expr ∈ Expr.read? text, expr.IsAbsolute))

instance (items : Text) : (directive : Directive) → Decidable (Movable items directive)
  | .space => inferInstanceAs (Decidable (AbsoluteText items))
  | .byte => inferInstanceAs (Decidable
      (∀ item ∈ Scan.splitList items, unquote? item = none → AbsoluteText item))
  | .word => inferInstanceAs (Decidable True)

variable {distance : Word} {keys : List Text} {early earlyMoved : Resolver}

/-- An absolute expression has one known value everywhere. -/
theorem evaluate_absolute {text : Text} (absolute : AbsoluteText text) :
    (∀ here resolver, Expr.evaluate text here resolver = .error (.operandSyntax .source)) ∨
      ∃ word, ∀ here resolver, Expr.evaluate text here resolver = .ok (.known word) := by
  cases read : Expr.read? text with
  | none => exact .inl fun here resolver => by rw [Expr.evaluate, read]
  | some expr =>
      obtain ⟨nameless, still⟩ := absolute expr read
      have agree : ∀ first second : Resolver, ∀ name ∈ expr.names, first name = second name := by
        intro first second name member
        rw [nameless] at member
        cases member
      refine .inr ⟨Word.ofInt (expr.offset 0 fun _ => none), fun here resolver => ?_⟩
      have known : ∀ name ∈ expr.names, (resolver name).isSome := by
        intro name member
        rw [nameless] at member
        cases member
      rw [Expr.evaluate, read]
      dsimp only
      rw [Expr.value_of_forall_isSome known, Expr.offset_congr (agree _ _) (.inl still)]

theorem byteItem_matches {item : Text} (movable : unquote? item = none → AbsoluteText item)
    (here there : Word) :
    Outcome.Alike (List.Forall₂ (Field.Matches distance keys early earlyMoved Field.SameSize))
      (byteItem here early item) (byteItem there earlyMoved item) := by
  rw [byteItem, byteItem]
  cases quoted : unquote? item with
  | some text =>
      refine .ok (List.forall₂_same.mpr fun field member => ?_)
      obtain ⟨byte, _, rfl⟩ := List.mem_map.mp member
      exact Field.matches_of_ready rfl rfl
  | none =>
      rcases evaluate_absolute (movable quoted) with wrong | ⟨word, known⟩
      · rw [wrong, wrong]
        exact .error _
      · rw [known, known]
        change Outcome.Alike _ (if fitsByte (.known word) then _ else _)
          (if fitsByte (.known word) then _ else _)
        split
        case isTrue => exact .ok (.cons (Field.matches_of_ready rfl rfl) .nil)
        case isFalse => exact .error _

/-- **Data moves with its program.** Its fields keep their sizes, or it has the same fault. -/
theorem fields_matches {directive : Directive} {items : Text} (movable : Movable items directive)
    (here there : Word) :
    Outcome.Alike (List.Forall₂ (Field.Matches distance keys early earlyMoved Field.SameSize))
      (fields directive items here early) (fields directive items there earlyMoved) := by
  cases directive with
  | space =>
      simp only [fields, immediate]
      rcases evaluate_absolute movable with wrong | ⟨count, known⟩
      · rw [wrong, wrong]
        exact .error _
      · rw [known, known]
        exact .ok (.cons (Field.matches_of_ready rfl rfl) .nil)
  | word =>
      refine .mapM (List.forall₂_same.mpr fun item _ => ?_)
      rw [wordItem, wordItem, Expr.evaluate, Expr.evaluate]
      cases Expr.read? item with
      | none => exact .error _
      | some expr => exact .ok (Field.matches_word here there expr)
  | byte =>
      simp only [fields]
      have items : Outcome.Alike _ ((Scan.splitList items).mapM (byteItem here early))
          ((Scan.splitList items).mapM (byteItem there earlyMoved)) :=
        .mapM (List.forall₂_same.mpr fun item member =>
          @byteItem_matches distance keys early earlyMoved item (movable item member) here there)
      exact items.bind fun parts partsMoved same => .ok (List.rel_flatten same)

end Data

end Msp430
