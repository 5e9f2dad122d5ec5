import Msp430.Operand
import Msp430.Proofs.ExpressionEnds
import Msp430.Proofs.RegisterNames

/-! # The forms of an operand

An operand is written in one of six forms (`Operand.Written`), and denotes a mode with a
register and the value of its expression (`Operand.Denotes`). Which form it is can be
told from its first and its last character, and from whether it names a register
(`Operand.Form.ofText`), so no text is of two forms. Reading tries the forms one after
the other and gives up as soon as a text that looks like one of them fails; it still
accepts exactly the six forms (`Operand.read?_eq_some_iff`), and any other order of
tests would do the same (`Operand.read?_forms`).

The offset of an indexed operand is cut out in front of the first parenthesis, so it
is an expression without parentheses, not even quoted ones. Every other expression
can be an index, and behind `#` and `&` every expression will do
(`Operand.read?_of_expression`).
-/

namespace Msp430

/-! ### Words that name a register -/

namespace Register

/-- A character that the name of a register can have. -/
def isLetter (c : Char) : Bool :=
  c.isAlphanum || c == '\u017f'

theorem isLetter_of_numbered? {word : Text} {base : Register} (named : numbered? word = some base) :
    ∀ c ∈ word, isLetter c = true := by
  obtain ⟨mark, digits, number, rfl, letter, _, denoted, _⟩ := numbered?_eq_some_iff.mp named
  rw [List.forall_mem_cons]
  refine ⟨by rcases letter with rfl | rfl <;> decide, ?_⟩
  refine denoted.forall_mem fun c value stands => ?_
  simp [isLetter, Char.isAlphanum, Digits.isDigit_of_stands stands]

theorem isLetter_of_alias? {word : Text} {base : Register} (named : alias? word = some base) :
    ∀ c ∈ word, isLetter c = true := by
  unfold alias? at named
  split at named
  case isFalse => cases named
  case isTrue listed =>
    have capitals : ∀ name ∈ ["PC".toList, "SP".toList, "SR".toList, "CG".toList],
        name.all Char.isAlpha = true := by decide
    have letters := List.all_eq_true.mp (capitals _ (List.contains_iff_mem.mp listed))
    intro c member
    have letter := letters _ (List.mem_map_of_mem member)
    unfold aliasCapital at letter
    split at letter
    case isTrue long => simp [isLetter, long]
    case isFalse =>
      have alpha : c.isAlpha = true := by
        rw [isAlpha_iff_code, toUpper_code] at letter
        rw [isAlpha_iff_code]
        split at letter <;> omega
      simp [isLetter, Char.isAlphanum, alpha]

/-- The name of a register is made of letters and digits. -/
theorem isLetter_of_ofWord? {word : Text} {base : Register} (named : ofWord? word = some base) :
    ∀ c ∈ word, isLetter c = true := by
  unfold ofWord? at named
  cases numbered : numbered? word with
  | some other => exact isLetter_of_numbered? numbered
  | none =>
      rw [numbered] at named
      exact isLetter_of_alias? named

/-- A text with any other character names no register. -/
theorem ofWord?_eq_none {word : Text} {c : Char} (member : c ∈ word) (other : isLetter c = false) :
    ofWord? word = none := by
  rw [Option.eq_none_iff_forall_ne_some]
  intro base named
  rw [isLetter_of_ofWord? named c member] at other
  cases other

end Register

namespace Operand

/-! ### Forms -/

/-- The ways to write an operand. -/
inductive Form where
  /-- A register. -/
  | register
  /-- An expression and a register in parentheses. -/
  | indexed
  /-- A register behind `@`, perhaps with a plus sign. -/
  | indirect
  /-- An expression behind `&`. -/
  | absolute
  /-- An expression behind `#`. -/
  | immediate
  /-- A name. -/
  | symbolic
deriving DecidableEq, Repr

/-- The texts of each form, without blanks at their ends, and the operands that they stand for. -/
inductive Written : Form → Text → Operand Expr → Prop where
  | register {word : Text} {base : Register} (named : Register.ofWord? word = some base) :
      Written .register word (.register base)
  | indexed {offset inner : Text} {expr : Expr} {base : Register}
      (plain : ∀ c ∈ offset, c ≠ '(' ∧ c ≠ ')') (spelled : Expr.Spelled offset expr)
      (named : Register.read? inner = some base) :
      Written .indexed (offset ++ '(' :: (inner ++ [')'])) (.indexed expr base)
  | indirect {word : Text} {base : Register} (named : Register.ofWord? word = some base) :
      Written .indirect ('@' :: word) (.indirect base)
  | autoincrement {word : Text} {base : Register} (named : Register.ofWord? word = some base) :
      Written .indirect ('@' :: (word ++ ['+'])) (.autoincrement base)
  | absolute {text : Text} {expr : Expr} (spelled : Expr.Spelled text expr) :
      Written .absolute ('&' :: text) (.absolute expr)
  | immediate {text : Text} {expr : Expr} (spelled : Expr.Spelled text expr) :
      Written .immediate ('#' :: text) (.immediate expr)
  | symbolic {name : Text} (identifier : Text.isIdentifier name = true)
      (unnamed : Register.ofWord? name = none) :
      Written .symbolic name (.symbolic [⟨.plus, .name name⟩])

/-- The texts of each form, and the operands that they denote on the line at an address: each mode
with its register, and with the value of its expression there. -/
inductive Denotes (here : Word) (resolver : Resolver) : Form → Text → Operand Value → Prop where
  | register {word : Text} {base : Register} (named : Register.ofWord? word = some base) :
      Denotes here resolver .register word (.register base)
  | indexed {offset inner : Text} {value : Value} {base : Register}
      (plain : ∀ c ∈ offset, c ≠ '(' ∧ c ≠ ')')
      (evaluated : Expr.evaluate? offset (some here) resolver = some value)
      (named : Register.read? inner = some base) :
      Denotes here resolver .indexed (offset ++ '(' :: (inner ++ [')'])) (.indexed value base)
  | indirect {word : Text} {base : Register} (named : Register.ofWord? word = some base) :
      Denotes here resolver .indirect ('@' :: word) (.indirect base)
  | autoincrement {word : Text} {base : Register} (named : Register.ofWord? word = some base) :
      Denotes here resolver .indirect ('@' :: (word ++ ['+'])) (.autoincrement base)
  | absolute {text : Text} {value : Value}
      (evaluated : Expr.evaluate? text (some here) resolver = some value) :
      Denotes here resolver .absolute ('&' :: text) (.absolute value)
  | immediate {text : Text} {value : Value}
      (evaluated : Expr.evaluate? text (some here) resolver = some value) :
      Denotes here resolver .immediate ('#' :: text) (.immediate value)
  | symbolic {name : Text} {value : Value} (identifier : Text.isIdentifier name = true)
      (unnamed : Register.ofWord? name = none)
      (evaluated : Expr.evaluate? name (some here) resolver = some value) :
      Denotes here resolver .symbolic name (.symbolic value)

/-! ### Telling the forms apart -/

/-- The form that a text has if it has one. -/
def Form.ofText (text : Text) : Form :=
  match text.head? with
  | some '@' => .indirect
  | some '&' => .absolute
  | some '#' => .immediate
  | _ =>
    if text.getLast? = some ')' then .indexed
    else if (Register.ofWord? text).isSome then .register
    else .symbolic

/-- The characters that tell the form of an operand. -/
def Form.marks : List Char :=
  ['@', '&', '#', '(', ')']

/-- A text that opens with a character of a class without marks is of one of the other forms. -/
theorem Form.ofText_of_test {test : Char → Bool} (unmarked : marks.any test = false)
    {text : Text} (opens : ∀ c ∈ text.head?, test c = true) :
    ofText text =
      if text.getLast? = some ')' then .indexed
      else if (Register.ofWord? text).isSome then .register
      else .symbolic := by
  have other : ∀ mark ∈ marks, text.head? ≠ some mark := by
    intro mark member first
    exact List.any_eq_false.mp unmarked mark member (opens mark first)
  unfold ofText
  split
  case h_1 found => exact absurd found (other '@' (by decide))
  case h_2 found => exact absurd found (other '&' (by decide))
  case h_3 found => exact absurd found (other '#' (by decide))
  case h_4 => rfl

/-- A text of characters without marks is a register or a name. -/
theorem Form.ofText_of_forall {test : Char → Bool} (unmarked : marks.any test = false)
    {text : Text} (passes : ∀ c ∈ text, test c = true) :
    ofText text = if (Register.ofWord? text).isSome then .register else .symbolic := by
  have unclosed : text.getLast? ≠ some ')' := by
    intro last
    exact List.any_eq_false.mp unmarked ')' (by decide) (passes _ (List.mem_of_mem_getLast? last))
  rw [ofText_of_test unmarked fun c first => passes c (List.mem_of_mem_head? first),
    if_neg unclosed]

theorem offset_ne_nil {offset : Text} {expr : Expr} (spelled : Expr.Spelled offset expr) :
    offset ≠ [] := by
  rintro rfl
  cases Expr.read?_eq_some_iff.mpr spelled

theorem head?_of_spelled {offset : Text} {expr : Expr} (spelled : Expr.Spelled offset expr)
    (rest : Text) :
    ∃ first, (offset ++ rest).head? = some first ∧ Expr.isForeign first = false := by
  have woven := Expr.Woven.of_read? (Expr.read?_eq_some_iff.mpr spelled)
  obtain ⟨first, others, rfl⟩ := List.exists_cons_of_ne_nil (offset_ne_nil spelled)
  exact ⟨first, rfl, woven.head?_isForeign first rfl⟩

/-- A text that begins like an expression and ends with a parenthesis can only be an index. -/
theorem Form.ofText_index {offset : Text} {expr : Expr} (spelled : Expr.Spelled offset expr)
    (inner : Text) : ofText (offset ++ '(' :: (inner ++ [')'])) = .indexed := by
  obtain ⟨first, opens, own⟩ := head?_of_spelled spelled ('(' :: (inner ++ [')']))
  have unmarked : marks.any (fun mark => !Expr.isForeign mark) = false := by decide
  have closed : (offset ++ '(' :: (inner ++ [')'])).getLast? = some ')' := by
    rw [← List.cons_append, ← List.append_assoc, List.getLast?_append_of_ne_nil _ (by simp)]
    rfl
  rw [ofText_of_test unmarked (by rw [opens]; rintro _ ⟨⟩; simp [own]), if_pos closed]

/-- **A text is of one form only,** which its ends and the registers tell. -/
theorem Written.form_eq {form : Form} {text : Text} {operand : Operand Expr}
    (written : Written form text operand) : form = Form.ofText text := by
  cases written with
  | register named =>
      have unmarked : Form.marks.any Register.isLetter = false := by decide
      rw [Form.ofText_of_forall unmarked (Register.isLetter_of_ofWord? named), named]
      rfl
  | indexed plain spelled named => exact (Form.ofText_index spelled _).symm
  | indirect named => rfl
  | autoincrement named => rfl
  | absolute spelled => rfl
  | immediate spelled => rfl
  | symbolic identifier unnamed =>
      have unmarked : Form.marks.any Term.isSolid = false := by decide
      rw [Form.ofText_of_forall unmarked (Term.isSolid_of_isIdentifier identifier).2, unnamed]
      rfl

/-! ### Reading -/

/-- An index is cut in front of the first parenthesis and ends with the last one. -/
theorem cutIndex?_eq_some_iff {text offset inner : Text} :
    cutIndex? text = some (offset, inner) ↔
      text = offset ++ '(' :: (inner ++ [')']) ∧ offset ≠ [] ∧
        ∀ c ∈ offset, c ≠ '(' ∧ c ≠ ')' := by
  unfold cutIndex?
  constructor
  · intro found
    have whole := List.takeWhile_append_dropWhile (p := (· != '(')) (l := text)
    have before : ∀ c ∈ text.takeWhile (· != '('), (c != '(') = true :=
      fun c member => List.mem_takeWhile_imp (p := (· != '(')) member
    have stops := List.head?_dropWhile_not (· != '(') text
    dsimp only at found
    split at found
    case h_1 => cases found
    case h_2 mark rest cut =>
      rw [cut] at whole stops
      obtain rfl : mark = '(' := by simpa using stops
      split at found
      case isFalse => cases found
      case isTrue shape =>
        simp only [Bool.and_eq_true, Bool.not_eq_true', List.isEmpty_eq_false_iff,
          List.contains_eq_mem, decide_eq_false_iff_not, beq_iff_eq] at shape
        obtain ⟨⟨nonempty, unclosed⟩, last⟩ := shape
        cases found
        rw [List.dropLast_append_getLast? _ last]
        refine ⟨whole.symm, nonempty, fun c member => ⟨by simpa using before c member, ?_⟩⟩
        rintro rfl
        exact unclosed member
  · rintro ⟨rfl, nonempty, plain⟩
    have inside : ∀ c ∈ offset, (c != '(') = true := fun c member => by simp [(plain c member).1]
    have unclosed : ')' ∉ offset := fun member => (plain _ member).2 rfl
    simp [List.takeWhile_append_of_pos inside, List.dropWhile_append_of_pos inside, nonempty,
      unclosed]

theorem cutIndex?_eq_none {text : Text} (unclosed : text.getLast? ≠ some ')') :
    cutIndex? text = none := by
  rw [Option.eq_none_iff_forall_ne_some]
  rintro ⟨offset, inner⟩ found
  obtain ⟨rfl, _⟩ := cutIndex?_eq_some_iff.mp found
  apply unclosed
  rw [← List.cons_append, ← List.append_assoc, List.getLast?_append_of_ne_nil _ (by simp)]
  rfl

theorem readIndirect?_eq_some_iff {text : Text} {operand : Operand Expr} :
    readIndirect? text = some operand ↔
      (∃ base, Register.ofWord? text = some base ∧ operand = .indirect base) ∨
        ∃ word base, text = word ++ ['+'] ∧ Register.ofWord? word = some base ∧
          operand = .autoincrement base := by
  unfold readIndirect?
  constructor
  · intro read
    split at read
    case h_1 base named =>
      cases read
      exact .inl ⟨base, named, rfl⟩
    case h_2 =>
      split at read
      case isTrue last =>
        obtain ⟨base, named, rfl⟩ := Option.map_eq_some_iff.mp read
        exact .inr ⟨text.dropLast, base, (List.dropLast_append_getLast? _ last).symm, named, rfl⟩
      case isFalse => cases read
  · rintro (⟨base, named, rfl⟩ | ⟨word, base, rfl, named, rfl⟩)
    · rw [named]
    · have plus : Register.ofWord? (word ++ ['+']) = none :=
        Register.ofWord?_eq_none (c := '+') (by simp) (by decide)
      rw [plus]
      simp [named]

theorem read?_of_isIdentifier {name : Text} (identifier : Text.isIdentifier name = true) :
    Expr.read? name = some [⟨.plus, .name name⟩] := by
  have spelled : Term.Spelled name (.name name) := .name identifier
  refine Expr.read?_eq_some_iff.mpr (.inl (.last ⟨[], name, [], ?_, Text.Blanks.nil,
    Text.Blanks.nil, spelled⟩))
  rw [spelled.bare.trim_eq, List.nil_append, List.append_nil]

/-! ### One form at a time -/

/-- Reads a text in the given form, without regard to the others. -/
def Form.read? (word : Text) : Form → Option (Operand Expr)
  | .register => (Register.ofWord? word).map .register
  | .indexed => do
    let (offset, inner) ← cutIndex? word
    let expr ← Expr.read? offset
    let base ← Register.read? inner
    return .indexed expr base
  | .indirect =>
    match word with
    | '@' :: rest => readIndirect? rest
    | _ => none
  | .absolute =>
    match word with
    | '&' :: rest => (Expr.read? rest).map .absolute
    | _ => none
  | .immediate =>
    match word with
    | '#' :: rest => (Expr.read? rest).map .immediate
    | _ => none
  | .symbolic =>
    if Text.isIdentifier word && (Register.ofWord? word).isNone then
      (Expr.read? word).map .symbolic
    else none

theorem Form.written_of_read? {form : Form} {word : Text} {operand : Operand Expr}
    (found : form.read? word = some operand) : Written form word operand := by
  cases form with
  | register =>
      obtain ⟨base, named, rfl⟩ := Option.map_eq_some_iff.mp found
      exact .register named
  | indexed =>
      obtain ⟨⟨offset, inner⟩, cut, rest⟩ := Option.bind_eq_some_iff.mp found
      obtain ⟨expr, spelled, rest⟩ := Option.bind_eq_some_iff.mp rest
      obtain ⟨base, named, done⟩ := Option.bind_eq_some_iff.mp rest
      obtain ⟨rfl, _, plain⟩ := cutIndex?_eq_some_iff.mp cut
      cases done
      exact .indexed plain (Expr.read?_eq_some_iff.mp spelled) named
  | indirect =>
      simp only [Form.read?] at found
      split at found
      case h_1 =>
        rcases readIndirect?_eq_some_iff.mp found with
          ⟨base, named, rfl⟩ | ⟨word, base, rfl, named, rfl⟩
        · exact .indirect named
        · exact .autoincrement named
      case h_2 => cases found
  | absolute =>
      simp only [Form.read?] at found
      split at found
      case h_1 =>
        obtain ⟨expr, spelled, rfl⟩ := Option.map_eq_some_iff.mp found
        exact .absolute (Expr.read?_eq_some_iff.mp spelled)
      case h_2 => cases found
  | immediate =>
      simp only [Form.read?] at found
      split at found
      case h_1 =>
        obtain ⟨expr, spelled, rfl⟩ := Option.map_eq_some_iff.mp found
        exact .immediate (Expr.read?_eq_some_iff.mp spelled)
      case h_2 => cases found
  | symbolic =>
      simp only [Form.read?] at found
      split at found
      case isTrue shape =>
        rw [Bool.and_eq_true, Option.isNone_iff_eq_none] at shape
        rw [read?_of_isIdentifier shape.1] at found
        cases found
        exact .symbolic shape.1 shape.2
      case isFalse => cases found

/-- A form is read exactly as it is written. -/
theorem Form.read?_eq_some_iff {form : Form} {word : Text} {operand : Operand Expr} :
    form.read? word = some operand ↔ Written form word operand := by
  refine ⟨written_of_read?, fun written => ?_⟩
  cases written with
  | register named => rw [Form.read?, named]; rfl
  | indexed plain spelled named =>
      rw [Form.read?, cutIndex?_eq_some_iff.mpr ⟨rfl, offset_ne_nil spelled, plain⟩]
      simp [Expr.read?_eq_some_iff.mpr spelled, named]
  | indirect named => exact readIndirect?_eq_some_iff.mpr (.inl ⟨_, named, rfl⟩)
  | autoincrement named => exact readIndirect?_eq_some_iff.mpr (.inr ⟨_, _, rfl, named, rfl⟩)
  | absolute spelled =>
      exact congrArg (Option.map Operand.absolute) (Expr.read?_eq_some_iff.mpr spelled)
  | immediate spelled =>
      exact congrArg (Option.map Operand.immediate) (Expr.read?_eq_some_iff.mpr spelled)
  | symbolic identifier unnamed =>
      rw [Form.read?, identifier, unnamed, read?_of_isIdentifier identifier]
      rfl

/-- A text of two forms is of the same form twice, and stands for one operand. -/
theorem Written.unique {first second : Form} {word : Text} {operand other : Operand Expr}
    (written : Written first word operand) (otherWritten : Written second word other) :
    first = second ∧ operand = other := by
  obtain rfl : first = second := written.form_eq.trans otherWritten.form_eq.symm
  have same : some operand = some other :=
    (Form.read?_eq_some_iff.mpr written).symm.trans (Form.read?_eq_some_iff.mpr otherWritten)
  exact ⟨rfl, Option.some.inj same⟩

/-- **A text denotes the operand that it is written for, with its expression evaluated.** -/
theorem denotes_iff {here : Word} {resolver : Resolver} {form : Form} {word : Text}
    {value : Operand Value} :
    Denotes here resolver form word value ↔
      ∃ operand, Written form word operand ∧ operand.evaluate here resolver = value := by
  have evaluates {text : Text} {value : Value} :
      Expr.evaluate? text (some here) resolver = some value ↔
        ∃ expr, Expr.Spelled text expr ∧ expr.value here resolver = value := by
    simp [Expr.evaluate?_eq_some_iff_value]
  constructor
  · rintro (named | ⟨plain, evaluated, named⟩ | named | named | evaluated | evaluated |
      ⟨identifier, unnamed, evaluated⟩)
    case register => exact ⟨_, .register named, rfl⟩
    case indexed =>
      obtain ⟨expr, spelled, rfl⟩ := evaluates.mp evaluated
      exact ⟨_, .indexed plain spelled named, rfl⟩
    case indirect => exact ⟨_, .indirect named, rfl⟩
    case autoincrement => exact ⟨_, .autoincrement named, rfl⟩
    case absolute =>
      obtain ⟨expr, spelled, rfl⟩ := evaluates.mp evaluated
      exact ⟨_, .absolute spelled, rfl⟩
    case immediate =>
      obtain ⟨expr, spelled, rfl⟩ := evaluates.mp evaluated
      exact ⟨_, .immediate spelled, rfl⟩
    case symbolic =>
      obtain ⟨expr, spelled, rfl⟩ := evaluates.mp evaluated
      -- A name is read as the one term that it is.
      have read := Expr.read?_eq_some_iff.mpr spelled
      rw [read?_of_isIdentifier identifier, Option.some_inj] at read
      exact ⟨_, .symbolic identifier unnamed, read ▸ rfl⟩
  · rintro ⟨operand, written, rfl⟩
    cases written with
    | register named => exact .register named
    | indexed plain spelled named =>
        exact .indexed plain (evaluates.mpr ⟨_, spelled, rfl⟩) named
    | indirect named => exact .indirect named
    | autoincrement named => exact .autoincrement named
    | absolute spelled => exact .absolute (evaluates.mpr ⟨_, spelled, rfl⟩)
    | immediate spelled => exact .immediate (evaluates.mpr ⟨_, spelled, rfl⟩)
    | symbolic identifier unnamed =>
        have spelled := Expr.read?_eq_some_iff.mp (read?_of_isIdentifier identifier)
        exact .symbolic identifier unnamed (evaluates.mpr ⟨_, spelled, rfl⟩)

/-! ### All forms -/

/-- A text behind a mark is neither a register nor an index, unless it ends in a parenthesis. -/
theorem read?_marked (mark : Char) (unnamed : Register.isLetter mark = false)
    (opens : mark ≠ ')') {rest : Text} (unclosed : ∀ c ∈ rest.getLast?, c ≠ ')') :
    Register.ofWord? (mark :: rest) = none ∧ cutIndex? (mark :: rest) = none := by
  refine ⟨Register.ofWord?_eq_none List.mem_cons_self unnamed, cutIndex?_eq_none fun last => ?_⟩
  cases rest with
  | nil => exact opens (Option.some.inj last)
  | cons _ _ =>
      rw [List.getLast?_cons_cons] at last
      exact unclosed _ last rfl

theorem unclosed_of_ofWord? {word : Text} {base : Register}
    (named : Register.ofWord? word = some base) : ∀ c ∈ word.getLast?, c ≠ ')' := by
  rintro _ last rfl
  exact absurd (Register.isLetter_of_ofWord? named _ (List.mem_of_mem_getLast? last)) (by decide)

theorem unclosed_of_spelled {text : Text} {expr : Expr} (spelled : Expr.Spelled text expr) :
    ∀ c ∈ text.getLast?, c ≠ ')' := by
  rintro _ last rfl
  have woven := Expr.Woven.of_read? (Expr.read?_eq_some_iff.mpr spelled)
  exact absurd (woven.getLast?_isForeign _ last) (by decide)

/-- Reading accepts the operand that a text is written for. -/
theorem read?_of_written {form : Form} {text : Text} {operand : Operand Expr}
    (written : Written form (Text.trim text) operand) : read? text = some operand := by
  unfold read?
  generalize Text.trim text = word at written
  dsimp only
  cases written with
  | register named => rw [named]
  | @indexed offset inner expr base plain spelled named =>
      have unnamed : Register.ofWord? (offset ++ '(' :: (inner ++ [')'])) = none :=
        Register.ofWord?_eq_none (c := '(') (by simp) (by decide)
      rw [unnamed, cutIndex?_eq_some_iff.mpr ⟨rfl, offset_ne_nil spelled, plain⟩]
      dsimp only
      rw [Expr.read?_eq_some_iff.mpr spelled, named]
      rfl
  | indirect named =>
      obtain ⟨unnamed, uncut⟩ :=
        read?_marked '@' (by decide) (by decide) (unclosed_of_ofWord? named)
      rw [unnamed, uncut]
      exact readIndirect?_eq_some_iff.mpr (.inl ⟨_, named, rfl⟩)
  | @autoincrement word base named =>
      have unclosed : ∀ c ∈ (word ++ ['+']).getLast?, c ≠ ')' := by simp
      obtain ⟨unnamed, uncut⟩ := read?_marked '@' (by decide) (by decide) unclosed
      rw [unnamed, uncut]
      exact readIndirect?_eq_some_iff.mpr (.inr ⟨word, base, rfl, named, rfl⟩)
  | absolute spelled =>
      obtain ⟨unnamed, uncut⟩ :=
        read?_marked '&' (by decide) (by decide) (unclosed_of_spelled spelled)
      rw [unnamed, uncut]
      exact congrArg (Option.map absolute) (Expr.read?_eq_some_iff.mpr spelled)
  | immediate spelled =>
      obtain ⟨unnamed, uncut⟩ :=
        read?_marked '#' (by decide) (by decide) (unclosed_of_spelled spelled)
      rw [unnamed, uncut]
      exact congrArg (Option.map immediate) (Expr.read?_eq_some_iff.mpr spelled)
  | symbolic identifier unnamed =>
      have solid := (Term.isSolid_of_isIdentifier identifier).2
      have uncut : cutIndex? word = none := cutIndex?_eq_none fun last =>
        absurd (solid _ (List.mem_of_mem_getLast? last)) (by decide)
      rw [unnamed, uncut]
      dsimp only
      split
      case h_1 => exact absurd (solid '@' List.mem_cons_self) (by decide)
      case h_2 => exact absurd (solid '&' List.mem_cons_self) (by decide)
      case h_3 => exact absurd (solid '#' List.mem_cons_self) (by decide)
      case h_4 =>
        rw [if_pos identifier, read?_of_isIdentifier identifier]
        rfl

/-- Reading takes what it finds from one of the forms. -/
theorem exists_form_of_read? {text : Text} {operand : Operand Expr}
    (read : read? text = some operand) :
    ∃ form, Form.read? (Text.trim text) form = some operand := by
  unfold read? at read
  generalize Text.trim text = word at read
  dsimp only at read
  split at read
  case h_1 base named => exact ⟨.register, by rw [Form.read?, named]; exact read⟩
  case h_2 unnamed =>
    split at read
    case h_1 offset inner cut => exact ⟨.indexed, by rw [Form.read?, cut]; exact read⟩
    case h_2 =>
      split at read
      case h_1 => exact ⟨.indirect, read⟩
      case h_2 => exact ⟨.absolute, read⟩
      case h_3 => exact ⟨.immediate, read⟩
      case h_4 =>
        refine ⟨.symbolic, ?_⟩
        rw [Form.read?, unnamed, Option.isNone_none, Bool.and_true]
        exact read

/-- **Reading accepts the six forms and nothing else.** -/
theorem read?_eq_some_iff {text : Text} {operand : Operand Expr} :
    read? text = some operand ↔ ∃ form, Written form (Text.trim text) operand := by
  constructor
  · intro read
    obtain ⟨form, found⟩ := exists_form_of_read? read
    exact ⟨form, Form.written_of_read? found⟩
  · rintro ⟨form, written⟩
    exact read?_of_written written

/-- Trying the forms in any order finds what reading finds. -/
theorem findSome?_read? {order : List Form} (all : ∀ form, form ∈ order) (text : Text) :
    order.findSome? (Form.read? (Text.trim text)) = read? text := by
  ext operand
  rw [read?_eq_some_iff]
  constructor
  · intro found
    obtain ⟨form, _, read⟩ := List.exists_of_findSome?_eq_some found
    exact ⟨form, Form.written_of_read? read⟩
  · rintro ⟨form, written⟩
    cases found : order.findSome? (Form.read? (Text.trim text)) with
    | none =>
        have unread := List.findSome?_eq_none_iff.mp found form (all form)
        rw [Form.read?_eq_some_iff.mpr written] at unread
        cases unread
    | some other =>
        obtain ⟨otherForm, _, read⟩ := List.exists_of_findSome?_eq_some found
        rw [(written.unique (Form.written_of_read? read)).2]

/-! ### Sources and destinations -/

theorem Written.isSome_destinationMode? {form : Form} {word : Text} {operand : Operand Expr}
    (written : Written form word operand) :
    operand.destinationMode?.isSome = true ↔
      form ∈ [Form.register, .indexed, .symbolic, .absolute] := by
  cases written <;> simp [destinationMode?]

theorem readSource_iff (text : Text) :
    (∀ operand, readSource text = .ok operand ↔ read? text = some operand) ∧
      (readSource text = .error (.operandSyntax .source) ↔ read? text = none) := by
  unfold readSource
  cases read? text <;> simp

theorem readDestination_iff (text : Text) :
    (∀ operand, readDestination text = .ok operand ↔
        read? text = some operand ∧ operand.destinationMode?.isSome = true) ∧
      (readDestination text = .error (.operandSyntax .destination) ↔
        ∀ operand, read? text = some operand → operand.destinationMode?.isSome ≠ true) := by
  unfold readDestination
  cases found : (read? text).filter (fun operand => operand.destinationMode?.isSome) with
  | none =>
      have refused := Option.filter_eq_none_iff.mp found
      exact ⟨fun operand => ⟨nofun, fun ⟨read, mode⟩ => absurd mode (refused operand read)⟩,
        fun _ => refused, fun _ => rfl⟩
  | some other =>
      obtain ⟨read, mode⟩ := Option.filter_eq_some_iff.mp found
      refine ⟨fun operand => ⟨?_, ?_⟩, nofun, fun refused => absurd mode (refused other read)⟩
      · rintro ⟨⟩
        exact ⟨read, mode⟩
      · rintro ⟨again, _⟩
        rw [read] at again
        cases again
        rfl

/-- **The forms of an operand are complete and exclude each other.** For every text, at every
address and under every resolver: an operand is read exactly if the text, without the blanks around
it, is written in one of the six forms, and with its expression evaluated it is the operand that
the text denotes in that form. A text is of one form at most and stands for one operand, so that the
forms could be tried in any order. A source can have any form, and a destination is a register, an
index, a name or an absolute address. -/
theorem read?_forms (text : Text) (here : Word) (resolver : Resolver) :
    let word := Text.trim text
    (∀ value, (read? text).map (evaluate here resolver) = some value ↔
        ∃ form, Denotes here resolver form word value) ∧
      (∀ first second value other, Denotes here resolver first word value →
        Denotes here resolver second word other → first = second ∧ value = other) ∧
      (∀ operand, read? text = some operand ↔ ∃ form, Written form word operand) ∧
      (∀ first second operand other, Written first word operand → Written second word other →
        first = second ∧ operand = other) ∧
      (∀ order : List Form, (∀ form, form ∈ order) →
        order.findSome? (Form.read? word) = read? text) ∧
      (∀ form operand, Form.read? word form = some operand ↔ Written form word operand) ∧
      (readSource text = .error (.operandSyntax .source) ↔ read? text = none) ∧
      (∀ operand, readSource text = .ok operand ↔ ∃ form, Written form word operand) ∧
      (∀ operand, readDestination text = .ok operand ↔
        ∃ form ∈ [Form.register, .indexed, .symbolic, .absolute], Written form word operand) ∧
      (readDestination text = .error (.operandSyntax .destination) ↔
        ¬ ∃ form ∈ [Form.register, .indexed, .symbolic, .absolute],
          ∃ operand, Written form word operand) := by
  intro word
  obtain ⟨sourceOk, sourceError⟩ := readSource_iff text
  obtain ⟨destinationOk, destinationError⟩ := readDestination_iff text
  refine ⟨fun value => ?_, ?_, fun operand => read?_eq_some_iff,
    fun _ _ _ _ written other => written.unique other,
    fun order all => findSome?_read? all text, fun form operand => Form.read?_eq_some_iff,
    sourceError, fun operand => (sourceOk operand).trans read?_eq_some_iff, fun operand => ?_, ?_⟩
  · simp only [Option.map_eq_some_iff, read?_eq_some_iff, denotes_iff]
    constructor
    · rintro ⟨operand, ⟨form, written⟩, evaluated⟩
      exact ⟨form, operand, written, evaluated⟩
    · rintro ⟨form, operand, written, evaluated⟩
      exact ⟨operand, ⟨form, written⟩, evaluated⟩
  · intro first second value other denotes otherDenotes
    obtain ⟨operand, written, rfl⟩ := denotes_iff.mp denotes
    obtain ⟨operand, otherWritten, rfl⟩ := denotes_iff.mp otherDenotes
    obtain ⟨rfl, rfl⟩ := written.unique otherWritten
    exact ⟨rfl, rfl⟩
  · rw [destinationOk, read?_eq_some_iff]
    constructor
    · rintro ⟨⟨form, written⟩, mode⟩
      exact ⟨form, written.isSome_destinationMode?.mp mode, written⟩
    · rintro ⟨form, allowed, written⟩
      exact ⟨⟨form, written⟩, written.isSome_destinationMode?.mpr allowed⟩
  · rw [destinationError]
    constructor
    · rintro refused ⟨form, allowed, operand, written⟩
      exact refused operand (read?_of_written written) (written.isSome_destinationMode?.mpr allowed)
    · intro unwritten operand read mode
      obtain ⟨form, written⟩ := read?_eq_some_iff.mp read
      exact unwritten ⟨form, written.isSome_destinationMode?.mp mode, operand, written⟩

/-! ### Expressions in operands -/

/-- A text that is an expression up to a parenthesis is an index exactly if that is its first
parenthesis. -/
theorem written_index_iff {offset inner : Text} {expr : Expr} (spelled : Expr.Spelled offset expr)
    {form : Form} {operand : Operand Expr} :
    Written form (offset ++ '(' :: (inner ++ [')'])) operand ↔
      form = .indexed ∧ (∀ c ∈ offset, c ≠ '(' ∧ c ≠ ')') ∧
        ∃ base, Register.read? inner = some base ∧ operand = .indexed expr base := by
  constructor
  · intro written
    obtain rfl : form = .indexed := written.form_eq.trans (Form.ofText_index spelled inner)
    refine ⟨rfl, ?_⟩
    generalize whole : offset ++ '(' :: (inner ++ [')']) = word at written
    cases written with
    | @indexed front within other base plain otherSpelled named =>
        have read := Expr.read?_eq_some_iff.mpr spelled
        have otherRead := Expr.read?_eq_some_iff.mpr otherSpelled
        have foreign : Expr.isForeign '(' = true := by decide
        -- No expression goes on behind a parenthesis, so both cuts are at the same one.
        obtain ⟨rfl, rest⟩ := Expr.eq_of_read?_of_append_eq read otherRead
          (by rintro _ ⟨⟩; exact foreign) (by rintro _ ⟨⟩; exact foreign) whole
        obtain rfl : inner = within := List.append_cancel_right (List.cons.inj rest).2
        rw [read] at otherRead
        cases otherRead
        exact ⟨plain, base, named, rfl⟩
  · rintro ⟨rfl, plain, base, named, rfl⟩
    exact .indexed plain spelled named

/-- An expression behind a mark. -/
theorem trim_marked {mark : Char} (solid : Text.isBlank mark = false) {text : Text} {expr : Expr}
    (spelled : Expr.Spelled text expr) :
    ∃ rest, Text.trim (mark :: text) = mark :: rest ∧ Expr.Spelled rest expr := by
  obtain ⟨right, blank, whole⟩ := Text.exists_trimEnd text
  have kept : Expr.Spelled (Text.trimEnd text) expr := by
    rwa [Expr.Spelled, Text.trim_trimEnd]
  refine ⟨Text.trimEnd text, ?_, kept⟩
  have bare : Text.Bare (mark :: Text.trimEnd text) := by
    constructor
    · rintro _ ⟨⟩
      exact solid
    · rw [← List.singleton_append, List.getLast?_append_of_ne_nil _ (offset_ne_nil kept)]
      exact Text.getLast?_trimEnd text
  have trimmed := Text.trim_append Text.Blanks.nil bare blank
  rwa [List.nil_append, List.cons_append, ← whole] at trimmed

/-- An expression in front of a parenthesis. -/
theorem trim_index {text : Text} {expr : Expr} (spelled : Expr.Spelled text expr) (inner : Text) :
    ∃ left offset, Text.Blanks left ∧ text = left ++ offset ∧ Expr.Spelled offset expr ∧
      Text.trim (text ++ '(' :: (inner ++ [')'])) = offset ++ '(' :: (inner ++ [')']) := by
  obtain ⟨left, blank, whole⟩ := Text.exists_trimStart text
  have kept : Expr.Spelled (Text.trimStart text) expr := by
    rwa [Expr.Spelled, Text.trim_trimStart]
  refine ⟨left, Text.trimStart text, blank, whole, kept, ?_⟩
  have bare : Text.Bare (Text.trimStart text ++ '(' :: (inner ++ [')'])) := by
    constructor
    · rw [List.head?_append_of_ne_nil _ (offset_ne_nil kept)]
      exact Text.head?_trimStart text
    · rw [← List.cons_append, ← List.append_assoc, List.getLast?_append_of_ne_nil _ (by simp)]
      rintro _ ⟨⟩
      decide
  have trimmed := Text.trim_append blank bare Text.Blanks.nil
  rwa [List.append_nil, ← List.append_assoc, ← whole] at trimmed

/-- **Which expressions can stand in an operand.** Let a text be an expression with a value, and a
second text a register. Behind `#` and `&` the expression is read with its value, and in front of
the register in parentheses too, unless there is a parenthesis between its quotes; then nothing is
read. There may be blanks around the operand and inside the parentheses. -/
theorem read?_of_expression {text name left before after right : Text} {here : Word}
    {resolver : Resolver} {value : Value} {base : Register}
    (evaluated : Expr.evaluate? text (some here) resolver = some value)
    (named : Register.read? name = some base) (leftBlank : Text.Blanks left)
    (beforeBlank : Text.Blanks before) (afterBlank : Text.Blanks after)
    (rightBlank : Text.Blanks right) :
    let reads (operand : Text) := (read? (left ++ operand ++ right)).map (evaluate here resolver)
    (reads (text ++ '(' :: (before ++ name ++ after ++ [')'])) =
        if '(' ∈ text ∨ ')' ∈ text then none else some (.indexed value base)) ∧
      reads ('#' :: text) = some (.immediate value) ∧
      reads ('&' :: text) = some (.absolute value) := by
  intro reads
  obtain ⟨expr, spelled, _, rfl⟩ := Expr.evaluate?_eq_some_iff_value.mp evaluated
  have reads_of_written : ∀ {form : Form} {text word : Text} {operand : Operand Expr},
      Text.trim text = word → Written form word operand →
        reads text = some (operand.evaluate here resolver) := by
    rintro form text _ operand rfl written
    rw [← Text.trim_padded leftBlank rightBlank] at written
    exact congrArg (Option.map _) (read?_of_written written)
  refine ⟨?_, ?_, ?_⟩
  · have inside : Register.read? (before ++ name ++ after) = some base := by
      rw [Register.read?, Text.trim_padded beforeBlank afterBlank]
      exact named
    obtain ⟨blanks, offset, blank, rfl, kept, trimmed⟩ :=
      trim_index spelled (before ++ name ++ after)
    -- Blanks are no parentheses, so the offset has those of the text.
    have inOffset : ∀ mark, Text.isBlank mark = false →
        (mark ∈ blanks ++ offset ↔ mark ∈ offset) := by
      intro mark solid
      refine ⟨fun member => (List.mem_append.mp member).resolve_left fun inBlanks => ?_,
        List.mem_append_right _⟩
      rw [blank mark inBlanks] at solid
      cases solid
    split
    case isTrue quoted =>
      rw [inOffset '(' (by decide), inOffset ')' (by decide)] at quoted
      rw [Option.map_eq_none_iff, Option.eq_none_iff_forall_ne_some]
      intro operand read
      obtain ⟨form, written⟩ := read?_eq_some_iff.mp read
      rw [Text.trim_padded leftBlank rightBlank, trimmed, written_index_iff kept] at written
      rcases quoted with opening | closing
      · exact (written.2.1 _ opening).1 rfl
      · exact (written.2.1 _ closing).2 rfl
    case isFalse plain =>
      rw [inOffset '(' (by decide), inOffset ')' (by decide), not_or] at plain
      refine reads_of_written trimmed (.indexed (fun c member => ⟨?_, ?_⟩) kept inside)
      · rintro rfl
        exact plain.1 member
      · rintro rfl
        exact plain.2 member
  · obtain ⟨rest, trimmed, kept⟩ := trim_marked (show Text.isBlank '#' = false by decide) spelled
    exact reads_of_written trimmed (.immediate kept)
  · obtain ⟨rest, trimmed, kept⟩ := trim_marked (show Text.isBlank '&' = false by decide) spelled
    exact reads_of_written trimmed (.absolute kept)

/-- A comma between quotes can stand in front of a register, and a parenthesis can not. -/
theorem read?_of_expression_quoted :
    let evaluates (text : String) := Expr.evaluate? text.toList (some 0x0200) fun _ => none
    let reads (text : String) := (read? text.toList).map (evaluate 0x0200 fun _ => none)
    let pending : Value := .pending ⟨0x01D4, [⟨"X".toList, .plus⟩]⟩
    (evaluates "$-','+X" = some pending ∧ reads " $-','+X( sp )" = some (.indexed pending 1)) ∧
      evaluates "'('" = some (.known 40) ∧ reads "'('(R5)" = none ∧
      reads "#'('" = some (.immediate (.known 40)) ∧
      reads "&'('" = some (.absolute (.known 40)) := by
  intro evaluates reads pending
  have comma : evaluates "$-','+X" = some pending := by decide +kernel
  have parenthesis : evaluates "'('" = some (.known 40) := by decide +kernel
  have stack : Register.read? "sp".toList = some 1 := by decide +kernel
  have fifth : Register.read? "R5".toList = some 5 := by decide +kernel
  have one : Text.Blanks [' '] := by decide
  have nothing : Text.Blanks [] := Text.Blanks.nil
  have index := (read?_of_expression comma stack one one one nothing).1
  have quoted := read?_of_expression parenthesis fifth nothing nothing nothing nothing
  rw [if_neg (by decide +kernel)] at index
  rw [if_pos (by decide +kernel)] at quoted
  exact ⟨⟨comma, index⟩, parenthesis, quoted⟩

end Operand

end Msp430
