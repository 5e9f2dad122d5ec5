import Msp430.Proofs.ExpressionGrammar
import Msp430.Proofs.QuoteScan

/-! # Where an expression ends

Commas, semicolons, parentheses and the marks of the addressing modes are foreign to
expressions (`Expr.isForeign`): they stand there between quotes only
(`Expr.Woven`). So no expression begins or ends with one of them, and a text that
begins with an expression and goes on with one of them is no expression
(`Expr.read?_append_of_isForeign`): in front of a foreign character at most one way
to cut is an expression (`Expr.eq_of_read?_of_append_eq`).

A scan of a line takes every apostrophe for the beginning or the end of a quote, and
an expression takes the middle one of `'''` for a character. On expressions without
that literal the two agree (`Expr.scanned_of_read?`).
-/

namespace Msp430

/-! ### Foreign characters -/

namespace Expr

/-- A character that an expression can have between quotes only. -/
def isForeign (c : Char) : Bool :=
  !(Text.isBlank c || !isPlain c || Term.isSolid c || c == '\'')

/-- Foreign characters are those with no part in an expression outside quotes. -/
theorem isForeign_eq_true_iff {c : Char} :
    isForeign c = true ↔
      Text.isBlank c = false ∧ isPlain c = true ∧ Term.isSolid c = false ∧ c ≠ '\'' := by
  simp [isForeign, and_assoc]

/-- A text whose foreign characters all stand between quotes. -/
inductive Woven : Text → Prop where
  | nil : Woven []
  | plain {c : Char} {rest : Text} (own : isForeign c = false) (unquoted : c ≠ '\'')
      (woven : Woven rest) : Woven (c :: rest)
  | quoted {c : Char} {rest : Text} (woven : Woven rest) : Woven ('\'' :: c :: '\'' :: rest)

namespace Woven

theorem append {first second : Text} (left : Woven first) (right : Woven second) :
    Woven (first ++ second) := by
  induction left with
  | nil => exact right
  | plain own unquoted _ ih => exact .plain own unquoted ih
  | quoted _ ih => exact .quoted ih

theorem of_forall {text : Text} (own : ∀ c ∈ text, isForeign c = false ∧ c ≠ '\'') :
    Woven text := by
  induction text with
  | nil => exact .nil
  | cons c rest ih =>
      obtain ⟨first, others⟩ := List.forall_mem_cons.mp own
      exact .plain first.1 first.2 (ih others)

theorem of_blanks {text : Text} (blank : Text.Blanks text) : Woven text := by
  refine of_forall fun c member => ⟨by simp [isForeign, blank c member], ?_⟩
  rintro rfl
  exact absurd (blank _ member) (by decide)

/-- A term is woven: nothing foreign stands outside its quotes. -/
theorem of_spelled {word : Text} {term : Term} (spelled : term.Spelled word) : Woven word := by
  rcases spelled.shape with ⟨c, rfl⟩ | ⟨_, solid⟩
  · exact .quoted .nil
  · exact of_forall fun c member =>
      ⟨by simp [isForeign, solid c member], (Term.solid_spec (solid c member)).2.2⟩

theorem of_padded {text : Text} {term : Term} (padded : term.Padded text) : Woven text := by
  obtain ⟨left, word, right, rfl, leftBlank, rightBlank, spelled⟩ := padded
  exact ((of_blanks leftBlank).append (of_spelled spelled)).append (of_blanks rightBlank)

/-- An expression is woven: nothing foreign stands outside its quotes. -/
theorem of_joined {sign : Sign} {text : Text} {expr : Expr} (joined : Joined sign text expr) :
    Woven text := by
  induction joined with
  | last padded => exact of_padded padded
  | @next _ following _ _ _ _ padded _ ih =>
      refine (of_padded padded).append (.plain ?_ ?_ ih) <;> cases following <;> decide

/-- The foreign characters of an expression stand between quotes. -/
theorem of_read? {text : Text} {expr : Expr} (read : read? text = some expr) : Woven text := by
  obtain ⟨left, right, leftBlank, rightBlank, whole⟩ := Text.exists_trim text
  have inside : Woven (Text.trim text) := by
    rcases read?_eq_some_iff.mp read with joined | ⟨sign, rest, shape, joined⟩
    · exact of_joined joined
    · rw [shape]
      refine .plain ?_ ?_ (of_joined joined) <;> cases sign <;> decide
  rw [whole]
  exact ((of_blanks leftBlank).append inside).append (of_blanks rightBlank)

/-- A woven text does not start with a foreign character. -/
theorem head?_isForeign {text : Text} (woven : Woven text) :
    ∀ c ∈ text.head?, isForeign c = false := by
  cases woven with
  | nil => nofun
  | plain own _ _ =>
      rintro _ ⟨⟩
      exact own
  | quoted _ =>
      rintro _ ⟨⟩
      decide

/-- A woven text does not end with a foreign character. -/
theorem getLast?_isForeign {text : Text} (woven : Woven text) :
    ∀ c ∈ text.getLast?, isForeign c = false := by
  induction woven with
  | nil => nofun
  | @plain c rest own _ _ ih =>
      cases rest with
      | nil =>
          rintro _ ⟨⟩
          exact own
      | cons second others =>
          rw [List.getLast?_cons_cons]
          exact ih
  | @quoted c rest _ ih =>
      rw [List.getLast?_cons_cons, List.getLast?_cons_cons]
      cases rest with
      | nil =>
          rintro _ ⟨⟩
          decide
      | cons second others =>
          rw [List.getLast?_cons_cons]
          exact ih

end Woven

end Expr

/-! ### Going on behind an expression -/

/-- Trimming a text that goes on behind its blanks leaves these blanks alone. -/
theorem Text.exists_trim_append {text : Text} (visible : trim text ≠ []) {mark : Char}
    (solid : isBlank mark = false) (rest : Text) :
    ∃ gap after, Blanks gap ∧ trim (text ++ mark :: rest) = trim text ++ gap ++ mark :: after := by
  obtain ⟨left, gap, leftBlank, gapBlank, whole⟩ := exists_trim text
  obtain ⟨before, right, beforeBlank, rightBlank, split⟩ := exists_trim (mark :: rest)
  obtain ⟨after, kept⟩ := List.head?_eq_some_iff.mp (head?_trim_cons solid rest)
  -- The mark is no blank, so nothing is cut off in front of it.
  obtain rfl : before = [] := by
    cases before with
    | nil => rfl
    | cons blank _ =>
        rw [(List.cons.inj split).1, beforeBlank blank List.mem_cons_self] at solid
        cases solid
  refine ⟨gap, after, gapBlank, ?_⟩
  have bare : Bare (trim text ++ gap ++ mark :: after) := by
    constructor
    · rw [List.append_assoc, List.head?_append_of_ne_nil _ visible]
      exact (bare_trim text).1
    · rw [List.getLast?_append_of_ne_nil _ (List.cons_ne_nil _ _), ← kept]
      exact (bare_trim _).2
  rw [← trim_append leftBlank bare rightBlank, split, kept]
  nth_rewrite 1 [whole]
  simp only [List.append_assoc, List.nil_append]

/-- Two terms in front of the same place, at which no term goes on, are the same. -/
theorem Term.Spelled.eq_of_append_eq {word other rest tail : Text} {first second : Term}
    (spelled : first.Spelled word) (otherSpelled : second.Spelled other)
    (ends : ∀ c ∈ rest.head?, isSolid c = false)
    (otherEnds : ∀ c ∈ tail.head?, isSolid c = false)
    (same : word ++ rest = other ++ tail) : rest = tail := by
  have solidWord : ∀ {word rest : Text}, (∀ c ∈ word, isSolid c = true) →
      (∀ c ∈ rest.head?, isSolid c = false) → (word ++ rest).dropWhile isSolid = rest := by
    intro word rest solid ends
    rw [List.dropWhile_append_of_pos solid]
    cases rest with
    | nil => rfl
    | cons c others => exact List.dropWhile_cons_of_neg (by simp [ends c rfl])
  rcases spelled.shape with ⟨c, rfl⟩ | ⟨nonempty, solid⟩ <;>
    rcases otherSpelled.shape with ⟨d, rfl⟩ | ⟨otherNonempty, otherSolid⟩
  · exact (List.append_inj same rfl).2
  · -- A word that opens with a quote is not solid.
    obtain ⟨head, others, rfl⟩ := List.exists_cons_of_ne_nil otherNonempty
    obtain rfl : '\'' = head := (List.cons.inj same).1
    exact absurd (otherSolid '\'' List.mem_cons_self) (by decide)
  · obtain ⟨head, others, rfl⟩ := List.exists_cons_of_ne_nil nonempty
    obtain rfl : head = '\'' := (List.cons.inj same).1
    exact absurd (solid '\'' List.mem_cons_self) (by decide)
  · rw [← solidWord solid ends, same, solidWord otherSolid otherEnds]

namespace Expr

variable {mark : Char}

theorem trimStart_padded {left word rest : Text} {term : Term} (leftBlank : Text.Blanks left)
    (spelled : term.Spelled word) : Text.trimStart (left ++ word ++ rest) = word ++ rest := by
  have nonempty : word ≠ [] := by
    rcases spelled.shape with ⟨c, rfl⟩ | ⟨nonempty, _⟩
    · simp
    · exact nonempty
  obtain ⟨first, others, rfl⟩ := List.exists_cons_of_ne_nil nonempty
  rw [List.append_assoc, Text.trimStart_append leftBlank]
  exact Text.trimStart_cons (spelled.bare.1 first rfl) _

/-- Behind its blanks a term can only be followed by a sign. -/
theorem readTerm?_of_isForeign (foreign : isForeign mark = true) {text : Text} {term : Term}
    (padded : term.Padded text) (rest : Text) :
    Term.read? (Text.trim (cutTerm (text ++ mark :: rest)).1) = none := by
  obtain ⟨solidMark, plain, unsolid, _⟩ := isForeign_eq_true_iff.mp foreign
  rw [Option.eq_none_iff_forall_ne_some]
  intro other found
  obtain ⟨front, otherPadded, whole, ends⟩ := padded_of_cutTerm found
  generalize (cutTerm (text ++ mark :: rest)).2 = tail at whole ends
  obtain ⟨left, word, right, rfl, leftBlank, rightBlank, spelled⟩ := padded
  obtain ⟨left', word', right', rfl, leftBlank', rightBlank', spelled'⟩ := otherPadded
  have words := congrArg Text.trimStart whole
  rw [List.append_assoc, List.append_assoc _ right', trimStart_padded leftBlank spelled,
    trimStart_padded leftBlank' spelled'] at words
  have behind : ∀ {gap : Text} {after : Text}, Text.Blanks gap →
      (∀ c ∈ after.head?, Term.isSolid c = false) →
      ∀ c ∈ (gap ++ after).head?, Term.isSolid c = false := by
    intro gap after blank unsolid c first
    cases gap with
    | nil => exact unsolid c first
    | cons _ _ =>
        cases first
        rw [Bool.eq_false_iff]
        intro solid
        have isBlank := blank c List.mem_cons_self
        rw [(Term.solid_spec solid).1] at isBlank
        cases isBlank
  have signed : ∀ c ∈ tail.head?, Term.isSolid c = false := by
    intro c first
    rw [Bool.eq_false_iff]
    intro solid
    have isSign := ends c first
    rw [(Term.solid_spec solid).2.1] at isSign
    cases isSign
  have rests := spelled.eq_of_append_eq spelled'
    (behind rightBlank (by rintro _ ⟨⟩; exact unsolid)) (behind rightBlank' signed) words
  have marks := congrArg Text.trimStart rests
  rw [Text.trimStart_append rightBlank, Text.trimStart_append rightBlank',
    Text.trimStart_cons solidMark] at marks
  cases tail with
  | nil => cases marks
  | cons c others =>
      have isSign := ends c rfl
      have solid : Text.isBlank c = false := by
        rw [Bool.eq_false_iff]
        intro blank
        rw [isPlain_of_isBlank blank] at isSign
        cases isSign
      rw [Text.trimStart_cons solid] at marks
      rw [← (List.cons.inj marks).1, plain] at isSign
      cases isSign

/-- No expression goes on with a foreign character, whatever follows it. -/
theorem readTerms?_append_of_isForeign (foreign : isForeign mark = true) {sign : Sign}
    {text : Text} {expr : Expr} (joined : Joined sign text expr) (other : Sign) (rest : Text) :
    readTerms? other (text ++ mark :: rest) = none := by
  induction joined generalizing other with
  | last padded =>
      rw [readTerms?, readTerm?_of_isForeign foreign padded]
  | @next _ following text later term expr padded _ ih =>
      have ends : ∀ c ∈ (following.mark :: (later ++ mark :: rest)).head?, isPlain c = false := by
        rintro _ ⟨⟩
        cases following <;> rfl
      obtain ⟨found, cut⟩ := cutTerm_of_padded padded ends
      rw [List.append_assoc, List.cons_append, readTerms?_of_cons other found cut, ih]
      rfl

/-- Blanks behind an expression belong to its last term. -/
theorem Joined.append_blanks {sign : Sign} {text gap : Text} {expr : Expr}
    (joined : Joined sign text expr) (blank : Text.Blanks gap) :
    Joined sign (text ++ gap) expr := by
  induction joined with
  | last padded =>
      obtain ⟨left, word, right, rfl, leftBlank, rightBlank, spelled⟩ := padded
      refine .last ⟨left, word, right ++ gap, ?_, leftBlank, rightBlank.append blank, spelled⟩
      rw [List.append_assoc _ right]
  | next padded _ ih =>
      rw [List.append_assoc, List.cons_append]
      exact .next padded ih

/-- **No expression goes on behind a foreign character.** -/
theorem read?_append_of_isForeign (foreign : isForeign mark = true) {text : Text} {expr : Expr}
    (read : read? text = some expr) (rest : Text) : read? (text ++ mark :: rest) = none := by
  unfold read? at read ⊢
  cases shape : Text.trim text with
  | nil =>
      rw [shape] at read
      cases read
  | cons first others =>
      have visible : Text.trim text ≠ [] := by simp [shape]
      obtain ⟨gap, after, blank, trimmed⟩ :=
        Text.exists_trim_append visible (isForeign_eq_true_iff.mp foreign).1 rest
      rw [trimmed, shape]
      rw [shape] at read
      simp only [List.cons_append] at read ⊢
      have ends : ∀ {sign : Sign} {front : Text}, readTerms? sign front = some expr →
          readTerms? sign (front ++ gap ++ mark :: after) = none := fun found =>
        readTerms?_append_of_isForeign foreign
          ((readTerms?_eq_some_iff.mp found).append_blanks blank) _ _
      cases signed : sign? first with
      | some sign =>
          rw [signed] at read
          exact ends read
      | none =>
          rw [signed] at read
          exact ends read

/-- In front of a foreign character, or of the end, at most one way to cut is an expression. -/
theorem eq_of_read?_of_append_eq {first second front back : Text} {expr other : Expr}
    (read : read? first = some expr) (otherRead : read? second = some other)
    (ends : ∀ c ∈ front.head?, isForeign c = true)
    (otherEnds : ∀ c ∈ back.head?, isForeign c = true)
    (same : first ++ front = second ++ back) : first = second ∧ front = back := by
  rcases List.append_eq_append_iff.mp same with ⟨between, rfl, rest⟩ | ⟨between, rfl, rest⟩
  · cases between with
    | nil => exact ⟨(List.append_nil first).symm, rest⟩
    | cons mark later =>
        have foreign : isForeign mark = true := ends mark (by rw [rest]; rfl)
        rw [read?_append_of_isForeign foreign read] at otherRead
        cases otherRead
  · cases between with
    | nil => exact ⟨List.append_nil second, rest.symm⟩
    | cons mark later =>
        have foreign : isForeign mark = true := otherEnds mark (by rw [rest]; rfl)
        rw [read?_append_of_isForeign foreign otherRead] at read
        cases read

/-! ### Quotes -/

/-- A quoted character hides what it quotes and is closed behind it, unless it is an apostrophe. -/
theorem isItem_quoted {c : Char} (other : c ≠ '\'') :
    Scan.IsItem ['\'', c, '\''] ∧ Scan.IsCode ['\'', c, '\''] := by
  have opened : Scan.quoteAfter none '\'' = some '\'' := rfl
  have inside : Scan.quoteAfter (some '\'') c = some '\'' := by simp [Scan.quoteAfter, other]
  have closed : Scan.quoteOver none ['\'', c, '\''] = none := by
    simp only [Scan.quoteOver, List.foldl_cons, opened, inside]
    rfl
  have balanced : Scan.depthOver none 0 ['\'', c, '\''] = 0 := by
    simp [Scan.depthOver, Scan.depthAfter, opened, inside]
  refine ⟨⟨closed, balanced, ?_⟩, closed, ?_⟩
  · rw [Scan.undivided_cons, opened, Scan.undivided_cons, inside, Scan.undivided_cons]
    exact ⟨by decide, by simp, by simp, fun _ _ split => by simp at split⟩
  · rw [Scan.uncommented_cons, opened, Scan.uncommented_cons, inside, Scan.uncommented_cons]
    exact ⟨by decide, by simp, by simp, fun _ _ split => by simp at split⟩

/-- Outside quotes an expression has neither commas nor parentheses nor the mark of a comment. -/
theorem isNeutral_of_isForeign {c : Char} (own : isForeign c = false) (unquoted : c ≠ '\'') :
    Scan.isNeutral c = true := by
  rw [Scan.isNeutral, Bool.not_eq_true', Bool.eq_false_iff, ne_eq, List.contains_iff_mem]
  intro member
  have foreign : Scan.marks.all (fun mark => mark == '\'' || isForeign mark) = true := by decide
  have marked := List.all_eq_true.mp foreign c member
  rw [own, Bool.or_false, beq_iff_eq] at marked
  exact unquoted marked

/-- A woven text without a quoted apostrophe is one item of a list, and code. -/
theorem Woven.scanned {text : Text} (woven : Woven text) (plain : ¬ "'''".toList <:+: text) :
    Scan.IsItem text ∧ Scan.IsCode text := by
  induction woven with
  | nil => exact ⟨.of_isNeutral nofun, .of_isNeutral nofun⟩
  | @plain c rest own unquoted _ ih =>
      have neutral : ∀ d ∈ [c], Scan.isNeutral d = true := by
        simpa using isNeutral_of_isForeign own unquoted
      obtain ⟨item, code⟩ := ih fun within => plain (within.trans (List.suffix_cons c rest).isInfix)
      exact ⟨(Scan.IsItem.of_isNeutral neutral).append item,
        (Scan.IsCode.of_isNeutral neutral).append code⟩
  | @quoted c rest _ ih =>
      have other : c ≠ '\'' := by
        rintro rfl
        exact plain (List.prefix_append "'''".toList rest).isInfix
      obtain ⟨quotedItem, quotedCode⟩ := isItem_quoted other
      obtain ⟨item, code⟩ := ih fun within =>
        plain (within.trans (List.suffix_append ['\'', c, '\''] rest).isInfix)
      exact ⟨quotedItem.append item, quotedCode.append code⟩

/-- **An expression stays whole in a list and in front of a comment,** unless it quotes an
apostrophe. -/
theorem scanned_of_read? {text : Text} {expr : Expr} (read : read? text = some expr)
    (plain : ¬ "'''".toList <:+: text) : Scan.IsItem text ∧ Scan.IsCode text :=
  (Woven.of_read? read).scanned plain

end Expr

end Msp430
