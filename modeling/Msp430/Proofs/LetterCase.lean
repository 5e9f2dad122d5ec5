import Mathlib
import Msp430.Proofs.TermGrammar
import Msp430.Source.Statement

/-! # Letter case in texts

Changing the letter case of a text is mapping its characters to upper case. What
the assembler asks about a character, apart from which letter it is, has one answer
for all letters (`test_toUpper`); so cutting a text into words, lists or terms and
changing its letter case can be done in either order. The words of the language are
compared by their upper-case spelling, and numbers and registers are read from
letters of either case.
-/

namespace Msp430

/-! ### Characters -/

/-- A test that says the same of every letter does not depend on letter case. -/
theorem test_toUpper (test : Char → Bool) (verdict : Bool)
    (letters : ∀ c : Char, c.isAlpha = true → test c = verdict) (c : Char) :
    test c.toUpper = test c := by
  cases alpha : c.isAlpha with
  | true => rw [letters c alpha, letters c.toUpper (by simpa using alpha)]
  | false =>
      have notLower : ¬ c.isLower := by
        intro lower
        simp [Char.isAlpha, lower] at alpha
      rw [Char.toUpper_eq_of_not_isLower notLower]

/-- A character becomes a mark in upper case only if it is that mark. -/
theorem toUpper_eq_iff {mark : Char} (plain : mark.isAlpha = false) (c : Char) :
    c.toUpper = mark ↔ c = mark := by
  have same : (c.toUpper == mark) = (c == mark) := by
    apply test_toUpper (· == mark) false
    intro letter alpha
    rw [beq_eq_false_iff_ne]
    rintro rfl
    rw [plain] at alpha
    cases alpha
  rw [← beq_iff_eq, same, beq_iff_eq]

theorem beq_toUpper {mark : Char} (plain : mark.isAlpha = false) (c : Char) :
    (c.toUpper == mark) = (c == mark) := by
  rw [Bool.eq_iff_iff, beq_iff_eq, beq_iff_eq, toUpper_eq_iff plain]

/-- Whether a character is one of the two cases of a letter does not depend on its own case. -/
theorem beq_letter_toUpper {capital small : Char}
    (pair : 65 ≤ capital.toNat ∧ capital.toNat ≤ 90 ∧ small.toNat = capital.toNat + 32)
    (c : Char) :
    (c.toUpper == capital || c.toUpper == small) = (c == capital || c == small) := by
  rw [Bool.eq_iff_iff]
  simp only [Bool.or_eq_true, beq_iff_eq, ← Char.toNat_inj, toUpper_code]
  split <;> omega

/-- No letter is a blank. -/
theorem isBlank_toUpper (c : Char) : Text.isBlank c.toUpper = Text.isBlank c := by
  apply test_toUpper Text.isBlank false
  intro letter alpha
  have solid : Term.isSolid letter = true := by simp [Term.isSolid, Char.isAlphanum, alpha]
  exact (Term.solid_spec solid).1

/-- No letter is a decimal digit. -/
theorem isDigit_toUpper (c : Char) : c.toUpper.isDigit = c.isDigit := by
  apply test_toUpper Char.isDigit false
  intro letter alpha
  rw [isAlpha_iff_code] at alpha
  rw [← Bool.not_eq_true, isDigit_iff_code]
  omega

/-! ### Texts -/

namespace Text

theorem upper_cons (c : Char) (rest : Text) : upper (c :: rest) = c.toUpper :: upper rest :=
  rfl

theorem upper_append (first second : Text) :
    upper (first ++ second) = upper first ++ upper second :=
  List.map_append

/-- A text in upper case is its own upper case. -/
theorem upper_upper (text : Text) : upper (upper text) = upper text := by
  simp [upper]

theorem length_upper (text : Text) : (upper text).length = text.length :=
  List.length_map _

theorem isEmpty_upper (text : Text) : (upper text).isEmpty = text.isEmpty :=
  List.isEmpty_map

theorem upper_dropLast (text : Text) : (upper text).dropLast = upper text.dropLast :=
  List.map_dropLast.symm

/-- A text ends with a mark in upper case only if it does so before. -/
theorem getLast?_upper_eq_some_iff {mark : Char} (plain : mark.isAlpha = false) {text : Text} :
    (upper text).getLast? = some mark ↔ text.getLast? = some mark := by
  rw [upper, List.getLast?_map, Option.map_eq_some_iff]
  simp only [toUpper_eq_iff plain, exists_eq_right]

/-- A text starts with a mark in upper case only if it does so before. -/
theorem head?_upper_eq_some_iff {mark : Char} (plain : mark.isAlpha = false) {text : Text} :
    (upper text).head? = some mark ↔ text.head? = some mark := by
  rw [upper, List.head?_map, Option.map_eq_some_iff]
  simp only [toUpper_eq_iff plain, exists_eq_right]

/-- Cutting where a test first fails commutes with upper case, if the test ignores it. -/
theorem span_upper {test : Char → Bool} (ignores : ∀ c : Char, test c.toUpper = test c)
    (text : Text) :
    (upper text).takeWhile test = upper (text.takeWhile test) ∧
      (upper text).dropWhile test = upper (text.dropWhile test) := by
  have same : test ∘ Char.toUpper = test := funext ignores
  rw [upper, List.takeWhile_map, List.dropWhile_map, same]
  exact ⟨rfl, rfl⟩

/-- Cutting at a mark that is no letter commutes with upper case. -/
theorem cutAt_upper {mark : Char} (plain : mark.isAlpha = false) (text : Text) :
    (upper text).takeWhile (· != mark) = upper (text.takeWhile (· != mark)) ∧
      (upper text).dropWhile (· != mark) = upper (text.dropWhile (· != mark)) :=
  span_upper (fun c => congrArg not (beq_toUpper plain c)) text

theorem trimStart_upper (text : Text) : trimStart (upper text) = upper (trimStart text) :=
  (span_upper isBlank_toUpper text).2

theorem trimEnd_upper (text : Text) : trimEnd (upper text) = upper (trimEnd text) := by
  have reversed : (upper text).reverse = upper text.reverse := List.map_reverse.symm
  rw [trimEnd, reversed, (span_upper isBlank_toUpper _).2, trimEnd, upper, upper,
    List.map_reverse]

/-- Trimming can be done before or after the change to upper case. -/
theorem trim_upper (text : Text) : trim (upper text) = upper (trim text) := by
  rw [trim, trimStart_upper, trimEnd_upper, trim]

/-- The first word of a text is cut off alike in any letter case. -/
theorem splitWord_upper (text : Text) :
    splitWord (upper text) = (upper (splitWord text).1, upper (splitWord text).2) := by
  have solid : ∀ c : Char, (!isBlank c.toUpper) = !isBlank c :=
    fun c => congrArg not (isBlank_toUpper c)
  have cut := @span_upper (fun c => !isBlank c) solid (trimStart text)
  simp only [splitWord, trimStart_upper, cut.1, cut.2, trim_upper]

/-- Keywords are recognised in any letter case. -/
theorem spells_upper (word keyword : Text) : spells (upper word) keyword = spells word keyword := by
  rw [spells, upper_upper, spells]

/-- Whether a text is an identifier does not depend on letter case. -/
theorem isIdentifier_upper (text : Text) : isIdentifier (upper text) = isIdentifier text := by
  cases text with
  | nil => rfl
  | cons first rest =>
      have inner : ∀ c : Char, (c.toUpper.isAlphanum || c.toUpper == '_') =
          (c.isAlphanum || c == '_') := by
        refine test_toUpper (fun c => c.isAlphanum || c == '_') true ?_
        intro letter alpha
        simp [Char.isAlphanum, alpha]
      rw [upper_cons, isIdentifier, isIdentifier, Char.isAlpha_toUpper_eq_isAlpha, upper,
        List.all_map]
      simp only [Function.comp_def, inner]

end Text

/-! ### Scanning -/

namespace Scan

theorem isAlpha_of_isQuoteMark {c : Char} (mark : isQuoteMark c = true) : c.isAlpha = false := by
  rw [isQuoteMark, Bool.or_eq_true, beq_iff_eq, beq_iff_eq] at mark
  rcases mark with rfl | rfl <;> rfl

theorem isQuoteMark_toUpper (c : Char) : isQuoteMark c.toUpper = isQuoteMark c := by
  rw [isQuoteMark, beq_toUpper rfl, beq_toUpper rfl, isQuoteMark]

/-- Only quotation marks open a quote. -/
theorem isQuoteMark_of_quoteAfter {open? : Option Char}
    (quoted : ∀ mark ∈ open?, isQuoteMark mark = true) (c : Char) :
    ∀ mark ∈ quoteAfter open? c, isQuoteMark mark = true := by
  intro mark opened
  cases open? with
  | none =>
      change (if isQuoteMark c then some c else none) = some mark at opened
      split at opened
      case isTrue opens =>
        cases opened
        exact opens
      case isFalse => cases opened
  | some other =>
      change (if c == other then none else some other) = some mark at opened
      split at opened
      case isTrue => cases opened
      case isFalse =>
        cases opened
        exact quoted mark rfl

/-- Which quote is open behind a character does not depend on its letter case. -/
theorem quoteAfter_toUpper {open? : Option Char}
    (quoted : ∀ mark ∈ open?, isQuoteMark mark = true) (c : Char) :
    quoteAfter open? c.toUpper = quoteAfter open? c := by
  unfold quoteAfter
  cases open? with
  | none =>
      rw [isQuoteMark_toUpper]
      dsimp only
      split
      case isTrue opens =>
        rw [(toUpper_eq_iff (isAlpha_of_isQuoteMark opens) c).mpr rfl]
      case isFalse => rfl
  | some mark =>
      dsimp only
      rw [beq_toUpper (isAlpha_of_isQuoteMark (quoted mark rfl))]

/-- A comment starts at the same place in any letter case, whatever quote is open. -/
theorem cutComment_upper {open? : Option Char}
    (quoted : ∀ mark ∈ open?, isQuoteMark mark = true) (text : Text) :
    cutComment open? (Text.upper text) = Text.upper (cutComment open? text) := by
  induction text generalizing open? with
  | nil => rfl
  | cons c rest ih =>
      rw [Text.upper_cons, cutComment, cutComment, beq_toUpper rfl, quoteAfter_toUpper quoted,
        ih (isQuoteMark_of_quoteAfter quoted c)]
      split <;> rfl

/-- Taking the comment off a line can be done before or after the change to upper case. -/
theorem stripComment_upper (text : Text) :
    stripComment (Text.upper text) = Text.upper (stripComment text) :=
  cutComment_upper (fun _ none => by cases none) text

/-- Letters do not change the depth of parentheses. -/
theorem depthAfter_toUpper (open? : Option Char) (depth : Int) (c : Char) :
    depthAfter open? depth c.toUpper = depthAfter open? depth c := by
  rw [depthAfter, beq_toUpper rfl, beq_toUpper rfl, depthAfter]

theorem extendFirst_upper (c : Char) (parts : List Text) :
    Text.extendFirst c.toUpper (parts.map Text.upper) =
      (Text.extendFirst c parts).map Text.upper := by
  cases parts <;> rfl

/-- A list is cut at the same commas in any letter case, whatever quote is open and however deep. -/
theorem cutList_upper {open? : Option Char}
    (quoted : ∀ mark ∈ open?, isQuoteMark mark = true) (depth : Int) (text : Text) :
    cutList open? depth (Text.upper text) = (cutList open? depth text).map Text.upper := by
  induction text generalizing open? depth with
  | nil => rfl
  | cons c rest ih =>
      rw [Text.upper_cons, cutList, cutList, beq_toUpper rfl, quoteAfter_toUpper quoted,
        depthAfter_toUpper, ih (isQuoteMark_of_quoteAfter quoted c), extendFirst_upper]
      split
      case isTrue =>
        rw [ih fun _ none => by cases none]
        rfl
      case isFalse => rfl

/-- The items of a list in upper case are its items in upper case. -/
theorem splitList_upper (text : Text) :
    splitList (Text.upper text) = (splitList text).map Text.upper := by
  rw [splitList, cutList_upper (fun _ none => by cases none), splitList, List.map_map,
    List.map_map]
  exact List.map_congr_left fun part _ => Text.trim_upper part

end Scan

/-! ### Words of the language -/

/-- An operator is found in any letter case. -/
theorem Mnemonic.find?_upper (word : Text) : find? (Text.upper word) = find? word := by
  rw [find?, Text.upper_upper, find?]

/-- Whether a word is an operator does not depend on its letter case. -/
theorem Mnemonic.isReserved_upper (word : Text) :
    isReserved (Text.upper word) = isReserved word := by
  rw [isReserved, (Text.cutAt_upper rfl word).1, find?_upper, isReserved]

/-- A directive is found in any letter case. -/
theorem Directive.ofWord?_upper (word : Text) : ofWord? (Text.upper word) = ofWord? word := by
  simp only [ofWord?, Text.spells_upper]

/-! ### Numbers -/

/-- A digit above nine has one value in both cases. -/
theorem Digits.value?_toUpper {base : Nat} (bound : base ≤ 16) (c : Char) :
    value? base c.toUpper = value? base c := by
  ext value
  rw [value?_eq_some_iff bound, value?_eq_some_iff bound, Stands, Stands,
    Char.toUpper_toUpper_eq_toUpper]

/-- Digits are read to one number in any letter case. -/
theorem Digits.read?_upper {base : Nat} (bound : base ≤ 16) (text : Text) :
    read? base (Text.upper text) = read? base text := by
  unfold read?
  rw [Text.isEmpty_upper, Text.upper, List.foldlM_map]
  simp only [value?_toUpper bound]

namespace Numeral

/-- Without a plus sign in front, an unsigned number is its digits. -/
theorem unsigned?_of_head? {base : Nat} {text : Text} (noPlus : text.head? ≠ some '+') :
    unsigned? base text =
      ((Digits.read? base text).filter (· < 65536)).map (BitVec.ofNat 16) := by
  unfold unsigned?
  split
  case h_1 rest => exact (noPlus rfl).elim
  case h_2 => rfl

/-- An unsigned number is read alike in any letter case. -/
theorem unsigned?_upper {base : Nat} (bound : base ≤ 16) (text : Text) :
    unsigned? base (Text.upper text) = unsigned? base text := by
  by_cases plus : text.head? = some '+'
  · obtain ⟨rest, rfl⟩ := List.head?_eq_some_iff.mp plus
    change ((Digits.read? base (Text.upper rest)).filter _).map _ = _
    rw [Digits.read?_upper bound]
    rfl
  · have noPlus : (Text.upper text).head? ≠ some '+' :=
      fun same => plus ((Text.head?_upper_eq_some_iff rfl).mp same)
    rw [unsigned?_of_head? plus, unsigned?_of_head? noPlus, Digits.read?_upper bound]

/-- The mark of hexadecimal numbers is recognised in both cases. -/
theorem afterHexMark?_upper (text : Text) :
    afterHexMark? (Text.upper text) = (afterHexMark? text).map Text.upper := by
  ext digits
  rw [afterHexMark?_eq_some_iff, Option.map_eq_some_iff]
  simp only [afterHexMark?_eq_some_iff]
  constructor
  · rintro ⟨mark, marked, shape⟩
    obtain ⟨zero, behind, rfl, isZero, rest⟩ := List.map_eq_cons_iff.mp shape
    obtain ⟨letter, digits, rfl, rfl, rfl⟩ := List.map_eq_cons_iff.mp rest
    have either := @beq_letter_toUpper 'X' 'x' (by decide) letter
    rw [Bool.eq_iff_iff] at either
    simp only [Bool.or_eq_true, beq_iff_eq] at either
    rw [(toUpper_eq_iff rfl zero).mp isZero]
    exact ⟨digits, ⟨letter, (either.mp marked.symm).symm, rfl⟩, rfl⟩
  · rintro ⟨rest, ⟨mark, rfl | rfl, rfl⟩, rfl⟩ <;> exact ⟨'X', .inr rfl, rfl⟩

/-- A number without the mark of a base is decimal. -/
theorem read?_of_head? {text : Text} (noMark : afterHexMark? (Text.trim text) = none)
    (noPercent : (Text.trim text).head? ≠ some '%') :
    read? text = if ((Text.trim text).head?.map Char.isDigit).getD false then
      unsigned? 10 (Text.trim text) else none := by
  unfold read?
  dsimp only
  rw [noMark]
  dsimp only
  split
  case h_1 digits shape =>
    rw [shape] at noPercent
    exact (noPercent rfl).elim
  case h_2 c rest _ shape => rw [shape, List.head?_cons, Option.map_some, Option.getD_some]
  case h_3 shape =>
    rw [shape]
    rfl

/-- A number is read alike in any letter case. -/
theorem read?_upper (text : Text) : read? (Text.upper text) = read? text := by
  -- The marks of the bases are looked for in the same order in both spellings.
  cases marked : afterHexMark? (Text.trim text) with
  | some digits =>
      have markedUpper := afterHexMark?_upper (Text.trim text)
      rw [marked, ← Text.trim_upper] at markedUpper
      simp only [read?, marked, markedUpper, Option.map_some]
      exact unsigned?_upper (by omega) digits
  | none =>
      have markedUpper := afterHexMark?_upper (Text.trim text)
      rw [marked, ← Text.trim_upper] at markedUpper
      by_cases percent : (Text.trim text).head? = some '%'
      · obtain ⟨digits, shape⟩ := List.head?_eq_some_iff.mp percent
        have shapeUpper : Text.trim (Text.upper text) = '%' :: Text.upper digits := by
          rw [Text.trim_upper, shape]
          rfl
        simp only [read?, shape, shapeUpper]
        exact unsigned?_upper (by omega) digits
      · have noPercent : (Text.trim (Text.upper text)).head? ≠ some '%' := by
          rw [Text.trim_upper]
          exact fun same => percent ((Text.head?_upper_eq_some_iff rfl).mp same)
        have isDigit : Char.isDigit ∘ Char.toUpper = Char.isDigit := funext isDigit_toUpper
        rw [read?_of_head? marked percent, read?_of_head? markedUpper noPercent, Text.trim_upper,
          unsigned?_upper (by omega), Text.upper, List.head?_map, Option.map_map, isDigit]

end Numeral

/-! ### Registers -/

namespace Register

/-- A register by its number is read in any letter case. -/
theorem numbered?_upper (word : Text) : numbered? (Text.upper word) = numbered? word := by
  cases word with
  | nil => rfl
  | cons mark digits =>
      rw [Text.upper_cons, numbered?, beq_letter_toUpper (by decide), Text.length_upper,
        Digits.read?_upper (by omega), numbered?]

/-- The capital that a character of an alias is matched as does not depend on its letter case. -/
theorem aliasCapital_toUpper (c : Char) : aliasCapital c.toUpper = aliasCapital c := by
  rw [aliasCapital, beq_toUpper (by decide), Char.toUpper_toUpper_eq_toUpper, aliasCapital]

/-- A register by its name is read in any letter case. -/
theorem alias?_upper (word : Text) : alias? (Text.upper word) = alias? word := by
  have capitals : (Text.upper word).map aliasCapital = word.map aliasCapital := by
    rw [Text.upper, List.map_map]
    exact List.map_congr_left fun c _ => aliasCapital_toUpper c
  simp only [alias?, capitals, Text.spells_upper]

/-- A word stands for the same register in any letter case. -/
theorem ofWord?_upper (word : Text) : ofWord? (Text.upper word) = ofWord? word := by
  rw [ofWord?, numbered?_upper, alias?_upper, ofWord?]

theorem read?_upper (text : Text) : read? (Text.upper text) = read? text := by
  rw [read?, Text.trim_upper, ofWord?_upper, read?]

end Register

end Msp430
