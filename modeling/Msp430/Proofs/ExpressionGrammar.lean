import Msp430.Proofs.Evaluation
import Msp430.Proofs.TermGrammar

/-! # The language of expressions

An expression is one or more terms, blanks around each of them, joined by signs,
with or without a sign in front (`Expr.Spelled`). The reader searches for the sign
that ends a term and passes over the first three characters of a term that opens
with a quote, since the quoted one may be a sign. `Expr.cutTerm_append` says that
this finds the term, and `Expr.exists_cutTerm` that nothing else is found, so that
the reader accepts exactly this language (`Expr.read?_eq_some_iff`).
`Expr.evaluate?_spelled` adds the values.
-/

namespace Msp430

/-! ### Sums -/

/-- The character of a sign. -/
def Sign.mark : Sign → Char
  | plus => '+'
  | minus => '-'

namespace Expr

/-- Terms joined by signs, the first one under the given sign. -/
inductive Joined : Sign → Text → Expr → Prop where
  | last {sign : Sign} {text : Text} {term : Term} (padded : term.Padded text) :
      Joined sign text [⟨sign, term⟩]
  | next {sign following : Sign} {text rest : Text} {term : Term} {expr : Expr}
      (padded : term.Padded text) (joined : Joined following rest expr) :
      Joined sign (text ++ following.mark :: rest) (⟨sign, term⟩ :: expr)

/-- The spellings of an expression: its terms, joined by signs, with or without a sign in front. -/
def Spelled (text : Text) (expr : Expr) : Prop :=
  Joined .plus (Text.trim text) expr ∨
    ∃ sign rest, Text.trim text = Sign.mark sign :: rest ∧ Joined sign rest expr

/-- A character is read as a sign exactly if it is the mark of that sign. -/
theorem sign?_eq_some_iff {c : Char} {sign : Sign} : sign? c = some sign ↔ c = sign.mark := by
  unfold sign?
  cases sign with
  | plus => by_cases plus : c = '+' <;> by_cases minus : c = '-' <;> simp [plus, minus, Sign.mark]
  | minus => by_cases plus : c = '+' <;> by_cases minus : c = '-' <;> simp_all [Sign.mark]

theorem isPlain_of_isBlank {c : Char} (blank : Text.isBlank c = true) : isPlain c = true := by
  cases signed : sign? c with
  | none => simp [isPlain, signed]
  | some sign =>
      rw [sign?_eq_some_iff.mp signed] at blank
      cases sign <;> exact absurd blank (by decide)

/-- A term ends in front of the next sign. -/
theorem takeWhile_isPlain {front tail : Text} (plain : ∀ c ∈ front, isPlain c = true)
    (ends : ∀ c ∈ tail.head?, isPlain c = false) :
    (front ++ tail).takeWhile isPlain = front ∧ (front ++ tail).dropWhile isPlain = tail := by
  rw [List.takeWhile_append_of_pos plain, List.dropWhile_append_of_pos plain]
  cases tail with
  | nil => simp
  | cons mark rest => simp [ends mark rfl]

/-- Cutting in front of a sign, or at the end, finds the term with the blanks behind it. -/
theorem cutTerm_append {left word right tail : Text} {term : Term} (leftBlank : Text.Blanks left)
    (rightBlank : Text.Blanks right) (spelled : term.Spelled word)
    (ends : ∀ c ∈ tail.head?, isPlain c = false) :
    cutTerm (left ++ word ++ right ++ tail) = (word ++ right, tail) := by
  have rightPlain : ∀ c ∈ right, isPlain c = true :=
    fun c member => isPlain_of_isBlank (rightBlank c member)
  have bare := spelled.bare
  rw [List.append_assoc, List.append_assoc]
  simp only [cutTerm, Text.trimStart_append leftBlank]
  rcases spelled.shape with ⟨c, rfl⟩ | ⟨nonempty, solid⟩
  · -- The quote, the character and the quote are passed over.
    obtain ⟨taken, dropped⟩ := takeWhile_isPlain rightPlain ends
    rw [List.cons_append, Text.trimStart_cons (bare.1 _ rfl)]
    simp [taken, dropped]
  · have plain : ∀ c ∈ word ++ right, isPlain c = true := by
      intro c member
      rcases List.mem_append.mp member with inWord | inRight
      · exact (Term.solid_spec (solid c inWord)).2.1
      · exact rightPlain c inRight
    obtain ⟨taken, dropped⟩ := takeWhile_isPlain plain ends
    rw [List.append_assoc] at taken dropped
    cases word with
    | nil => exact absurd rfl nonempty
    | cons first rest =>
        have unquoted : first ≠ '\'' := (Term.solid_spec (solid first List.mem_cons_self)).2.2
        rw [List.cons_append, Text.trimStart_cons (bare.1 first rfl), List.head?_cons,
          if_neg (by simpa using unquoted), List.take_zero, List.drop_zero, List.nil_append,
          ← List.cons_append, taken, dropped]

/-- A cut is made in front of a sign, and there are no signs outside quotes in front of it. -/
theorem exists_cutTerm (text : Text) :
    ∃ left, Text.Blanks left ∧ text = left ++ (cutTerm text).1 ++ (cutTerm text).2 ∧
      (∀ c ∈ (cutTerm text).2.head?, isPlain c = false) ∧
      ((Text.trim (cutTerm text).1).head? ≠ some '\'' →
        ∀ c ∈ Text.trim (cutTerm text).1, isPlain c = true) := by
  obtain ⟨left, blank, whole⟩ := Text.exists_trimStart text
  refine ⟨left, blank, ?_, ?_, ?_⟩
  · simp only [cutTerm]
    rw [List.append_assoc, List.append_assoc, List.takeWhile_append_dropWhile,
      List.take_append_drop]
    exact whole
  · intro c first
    simp only [cutTerm] at first
    have stops := List.head?_dropWhile_not isPlain
      ((Text.trimStart text).drop (if (Text.trimStart text).head? = some '\'' then 3 else 0))
    rwa [Option.mem_def.mp first] at stops
  · simp only [cutTerm]
    by_cases quoted : (Text.trimStart text).head? = some '\''
    · intro unquoted
      obtain ⟨rest, shape⟩ := List.head?_eq_some_iff.mp quoted
      rw [if_pos quoted, shape, List.take_succ_cons, List.cons_append,
        Text.head?_trim_cons (by decide)] at unquoted
      exact absurd rfl unquoted
    · intro _ c member
      rw [if_neg quoted, List.take_zero, List.drop_zero, List.nil_append] at member
      exact List.mem_takeWhile_imp (Text.mem_of_mem_trim member)

/-! ### Reading sums -/

/-- What is cut off and read as a term is a spelling of the term with blanks around it, and a sign
follows if anything does. -/
theorem padded_of_cutTerm {text : Text} {term : Term}
    (found : Term.read? (Text.trim (cutTerm text).1) = some term) :
    ∃ front, term.Padded front ∧ text = front ++ (cutTerm text).2 ∧
      ∀ c ∈ (cutTerm text).2.head?, isPlain c = false := by
  obtain ⟨left, blank, whole, ends, unmarked⟩ := exists_cutTerm text
  obtain ⟨before, after, beforeBlank, afterBlank, split⟩ := Text.exists_trim (cutTerm text).1
  have spelled := (Term.read?_eq_some_iff (Text.bare_trim _) unmarked).mp found
  refine ⟨left ++ (cutTerm text).1, ⟨left ++ before, _, after, ?_, blank.append beforeBlank,
    afterBlank, spelled⟩, whole, ends⟩
  rw [List.append_assoc, List.append_assoc, ← List.append_assoc before, ← split]

/-- A term with blanks around it, in front of a sign or at the end, is cut off and read. -/
theorem cutTerm_of_padded {text : Text} {term : Term} (padded : term.Padded text) {tail : Text}
    (ends : ∀ c ∈ tail.head?, isPlain c = false) :
    Term.read? (Text.trim (cutTerm (text ++ tail)).1) = some term ∧
      (cutTerm (text ++ tail)).2 = tail := by
  obtain ⟨left, word, right, rfl, leftBlank, rightBlank, spelled⟩ := padded
  rw [cutTerm_append leftBlank rightBlank spelled ends]
  have trimmed : Text.trim (word ++ right) = word :=
    Text.trim_append Text.Blanks.nil spelled.bare rightBlank
  refine ⟨?_, rfl⟩
  rw [trimmed, Term.read?_eq_some_iff spelled.bare]
  · exact spelled
  · intro unquoted c member
    rcases spelled.shape with ⟨_, rfl⟩ | ⟨_, solid⟩
    · exact absurd rfl unquoted
    · exact (Term.solid_spec (solid c member)).2.1

/-- The last term of an expression. -/
theorem readTerms?_of_nil {text : Text} {term : Term} (sign : Sign)
    (found : Term.read? (Text.trim (cutTerm text).1) = some term)
    (cut : (cutTerm text).2 = []) : readTerms? sign text = some [⟨sign, term⟩] := by
  rw [readTerms?, found]
  dsimp only
  split
  case h_1 => rfl
  case h_2 other => simp [cut] at other

/-- A term with others behind it: the sign between them belongs to the next one. -/
theorem readTerms?_of_cons {text rest : Text} {term : Term} {mark : Char} (sign : Sign)
    (found : Term.read? (Text.trim (cutTerm text).1) = some term)
    (cut : (cutTerm text).2 = mark :: rest) :
    readTerms? sign text =
      (readTerms? ((sign? mark).getD .plus) rest).map (⟨sign, term⟩ :: ·) := by
  rw [readTerms?, found]
  dsimp only
  split
  case h_1 other => simp [cut] at other
  case h_2 other =>
    rw [cut] at other
    cases other
    rfl

/-- A text is read as terms exactly if it is those terms joined by their signs. -/
theorem readTerms?_eq_some_iff {sign : Sign} {text : Text} {expr : Expr} :
    readTerms? sign text = some expr ↔ Joined sign text expr := by
  constructor
  · intro read
    fun_induction readTerms? sign text generalizing expr with
    | case1 sign text failed => cases read
    | case2 sign text term found cut =>
        cases read
        obtain ⟨front, padded, whole, _⟩ := padded_of_cutTerm found
        rw [cut, List.append_nil] at whole
        exact whole ▸ .last padded
    | case3 sign text term found mark rest cut shorter ih =>
        obtain ⟨others, readRest, rfl⟩ := Option.map_eq_some_iff.mp read
        obtain ⟨front, padded, whole, ends⟩ := padded_of_cutTerm found
        rw [cut] at whole ends
        have signed := ends mark rfl
        cases following : sign? mark with
        | none => simp [isPlain, following] at signed
        | some next =>
            rw [following] at ih readRest
            rw [whole, sign?_eq_some_iff.mp following]
            exact .next padded (ih readRest)
  · intro joined
    induction joined with
    | last padded =>
        have atEnd : ∀ c ∈ ([] : Text).head?, isPlain c = false := by simp
        obtain ⟨found, cut⟩ := cutTerm_of_padded padded atEnd
        rw [List.append_nil] at found cut
        exact readTerms?_of_nil _ found cut
    | @next sign following text rest term expr padded joined ih =>
        have marked : sign? following.mark = some following := sign?_eq_some_iff.mpr rfl
        have ends : ∀ c ∈ (following.mark :: rest).head?, isPlain c = false := by
          rintro c ⟨⟩
          simp [isPlain, marked]
        obtain ⟨found, cut⟩ := cutTerm_of_padded padded ends
        rw [readTerms?_of_cons sign found cut, marked, Option.getD_some, ih]
        rfl

/-- The text of a sum does not open with a sign. -/
theorem Joined.exists_cons {sign : Sign} {text : Text} {expr : Expr}
    (joined : Joined sign text expr) : ∃ first rest, text = first :: rest ∧ sign? first = none := by
  have ofPadded : ∀ {text : Text} {term : Term}, term.Padded text →
      ∃ first rest, text = first :: rest ∧ sign? first = none := by
    rintro text term ⟨left, word, right, rfl, leftBlank, _, spelled⟩
    have plainFirst : ∀ first, isPlain first = true → sign? first = none := by
      intro first plain
      simpa [isPlain] using plain
    cases left with
    | cons blank others =>
        exact ⟨blank, _, rfl, plainFirst _ (isPlain_of_isBlank (leftBlank _ List.mem_cons_self))⟩
    | nil =>
        rcases spelled.shape with ⟨c, rfl⟩ | ⟨nonempty, solid⟩
        · exact ⟨'\'', _, rfl, by decide⟩
        · cases word with
          | nil => exact absurd rfl nonempty
          | cons first others =>
              exact ⟨first, _, rfl,
                plainFirst _ (Term.solid_spec (solid first List.mem_cons_self)).2.1⟩
  cases joined with
  | last padded => exact ofPadded padded
  | next padded joined =>
      obtain ⟨first, rest, rfl, plain⟩ := ofPadded padded
      exact ⟨first, _, rfl, plain⟩

/-- **Reading accepts the language of expressions.** A text is read as an expression exactly if it
is a spelling of it. -/
theorem read?_eq_some_iff {text : Text} {expr : Expr} :
    read? text = some expr ↔ Spelled text expr := by
  unfold read? Spelled
  cases Text.trim text with
  | nil =>
      refine ⟨nofun, ?_⟩
      rintro (joined | ⟨sign, rest, ⟨⟩, _⟩)
      obtain ⟨first, rest, ⟨⟩, _⟩ := joined.exists_cons
  | cons first rest =>
      dsimp only
      cases signed : sign? first with
      | none =>
          dsimp only
          rw [readTerms?_eq_some_iff]
          refine ⟨.inl, ?_⟩
          rintro (joined | ⟨sign, others, same, _⟩)
          · exact joined
          · rw [(List.cons.inj same).1, sign?_eq_some_iff.mpr rfl] at signed
            cases signed
      | some sign =>
          dsimp only
          rw [readTerms?_eq_some_iff]
          constructor
          · intro joined
            exact .inr ⟨sign, rest, by rw [sign?_eq_some_iff.mp signed], joined⟩
          · rintro (joined | ⟨other, others, same, joined⟩)
            · obtain ⟨_, _, ⟨⟩, plain⟩ := joined.exists_cons
              rw [signed] at plain
              cases plain
            · obtain ⟨rfl, rfl⟩ := List.cons.inj same
              rw [sign?_eq_some_iff.mpr rfl] at signed
              cases signed
              exact joined

/-! ### Evaluating sums -/

/-- The known part of an expression is the sum of what its terms contribute. -/
theorem offset_eq_sum (here : Word) (resolver : Resolver) (expr : Expr) :
    expr.offset here resolver = (expr.map (SignedTerm.contribution here resolver)).sum := by
  induction expr with
  | nil => rfl
  | cons signed rest ih => rw [offset_cons, List.map_cons, List.sum_cons, ih]

/-- An expression whose names all have values is known. -/
theorem value_of_forall_isSome {here : Word} {resolver : Resolver} {expr : Expr}
    (known : ∀ name ∈ expr.names, (resolver name).isSome) :
    expr.value here resolver = .known (Word.ofInt (expr.offset here resolver)) := by
  rw [value, unresolved_eq_nil_iff.mpr known]

/-- An expression waits as long as a name in it has no value. -/
theorem value_of_exists_eq_none {here : Word} {resolver : Resolver} {expr : Expr}
    (missing : ∃ name ∈ expr.names, resolver name = none) :
    expr.value here resolver =
      .pending ⟨expr.offset here resolver, expr.unresolved resolver⟩ := by
  have left : expr.unresolved resolver ≠ [] := by
    rw [Ne, unresolved_eq_nil_iff]
    intro known
    obtain ⟨name, member, absent⟩ := missing
    have found := known name member
    rw [absent] at found
    cases found
  rw [value]
  split
  case h_1 nothing => exact absurd nothing left
  case h_2 => rfl

/-- A number is stored in a word modulo 65536. -/
theorem toNat_ofInt (number : Int) : ((Word.ofInt number).toNat : Int) = number % 65536 := by
  rw [Word.ofInt, BitVec.toNat_ofInt]
  omega

theorem usesHere_eq_false_iff {expr : Expr} :
    expr.usesHere = false ↔ ∀ signed ∈ expr, signed.term ≠ .here := by
  simp [usesHere]

/-- A text has a value exactly if it spells an expression, which may mention the current address
only where there is one. -/
theorem evaluate?_eq_some_iff_value {text : Text} {here? : Option Word} {resolver : Resolver}
    {value : Value} :
    evaluate? text here? resolver = some value ↔
      ∃ expr, Spelled text expr ∧ (here? = none → ∀ signed ∈ expr, signed.term ≠ .here) ∧
        expr.value (here?.getD 0) resolver = value := by
  simp only [← read?_eq_some_iff, ← usesHere_eq_false_iff]
  unfold evaluate?
  cases read? text with
  | none => simp
  | some expr =>
      cases here? with
      | some here => simp
      | none => cases used : expr.usesHere <;> simp [used]

-- The sign in quotes is a term, and the sign in front of it is not.
example : evaluate? "$ - '-' + 0X1f - END".toList (some 0x0300) (fun _ => none) =
    some (.pending ⟨0x02F2, [⟨"END".toList, .minus⟩]⟩) := by decide +kernel

end Expr

end Msp430
