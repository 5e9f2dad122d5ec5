import Mathlib.Data.List.Forall2
import Mathlib.Data.Nat.Digits.Defs
import Msp430.Expr
import Msp430.Proofs.Trimming

/-! # The terms of the language

The spellings of numbers (`Numeral.Written`) and of terms (`Term.Spelled`), stated
without the functions that read them. Outside quotes a term is made of solid
characters, which are neither blanks nor signs nor quotes (`Term.Spelled.shape`).
Reading accepts exactly the spellings (`Term.read?_eq_some_iff`), provided that
the text has no sign outside quotes: behind the mark of a base a plus sign would
be passed over.
-/

namespace Msp430

/-! ### Characters by code -/

/-- The decimal digits by their codes. -/
theorem isDigit_iff_code (c : Char) : c.isDigit = true ↔ 48 ≤ c.toNat ∧ c.toNat ≤ 57 := by
  simp only [Char.isDigit, Bool.and_eq_true, decide_eq_true_eq, ge_iff_le, UInt32.le_iff_toNat_le]
  rfl

/-- The letters by their codes. -/
theorem isAlpha_iff_code (c : Char) :
    c.isAlpha = true ↔ 65 ≤ c.toNat ∧ c.toNat ≤ 90 ∨ 97 ≤ c.toNat ∧ c.toNat ≤ 122 := by
  unfold Char.isAlpha Char.isUpper Char.isLower
  simp only [Bool.or_eq_true, Bool.and_eq_true, decide_eq_true_eq, ge_iff_le,
    UInt32.le_iff_toNat_le]
  rfl

/-- Upper case takes 32 off the code of a small letter. -/
theorem toUpper_code (c : Char) :
    c.toUpper.toNat = if 97 ≤ c.toNat ∧ c.toNat ≤ 122 then c.toNat - 32 else c.toNat := by
  unfold Char.toUpper
  simp only [UInt32.le_iff_toNat_le]
  split
  case isTrue lower =>
    change 97 ≤ c.toNat ∧ c.toNat ≤ 122 at lower
    rw [if_pos lower]
    change (c.val + ('A'.val - 'a'.val)).toNat = _
    rw [UInt32.toNat_add]
    change (c.toNat + 4294967264) % 2 ^ 32 = _
    omega
  case isFalse other =>
    change ¬ (97 ≤ c.toNat ∧ c.toNat ≤ 122) at other
    rw [if_neg other]

/-! ### Numerals -/

namespace Digits

/-- A character stands for a value below the base if it is, in upper case, its symbol. -/
def Stands (base : Nat) (c : Char) (value : Nat) : Prop :=
  value < base ∧ c.toUpper = symbol value

/-- A text denotes a number if its characters are one or more digits, the most significant first. -/
def Denotes (base : Nat) (text : Text) (number : Nat) : Prop :=
  text ≠ [] ∧ ∃ values, List.Forall₂ (Stands base) text values ∧
    number = Nat.ofDigits base values.reverse

/-- The symbols of the digits by their codes. -/
theorem symbol_code {value : Nat} (small : value < 16) :
    (symbol value).toNat = if value < 10 then 48 + value else 55 + value := by
  revert value
  decide

/-- A character is read as a digit exactly if it stands for one. -/
theorem value?_eq_some_iff {base : Nat} (bound : base ≤ 16) {c : Char} {value : Nat} :
    value? base c = some value ↔ Stands base c value := by
  simp only [value?, Stands, Option.filter_eq_some_iff, decide_eq_true_eq]
  rw [and_comm]
  refine and_congr_right fun small => ?_
  -- Both sides compare the code of the character with the three ranges of digits.
  rw [← Char.toNat_inj, toUpper_code, symbol_code (by omega)]
  simp only [Char.le_def, UInt32.le_iff_toNat_le]
  change (if 48 ≤ c.toNat ∧ c.toNat ≤ 57 then some (c.toNat - 48)
    else if 65 ≤ c.toNat ∧ c.toNat ≤ 70 then some (c.toNat - 55)
    else if 97 ≤ c.toNat ∧ c.toNat ≤ 102 then some (c.toNat - 87) else none) = _ ↔ _
  grind

/-- Reading digits succeeds exactly if each of them is read; the number is built from the left. -/
theorem foldlM_eq_some_iff (base : Nat) {text : Text} {start number : Nat} :
    text.foldlM (fun total c => (value? base c).map (base * total + ·)) start = some number ↔
      ∃ values, List.Forall₂ (fun c value => value? base c = some value) text values ∧
        number = values.foldl (fun total value => base * total + value) start := by
  induction text generalizing start with
  | nil => simp [eq_comm]
  | cons c rest ih =>
      rw [List.foldlM_cons]
      cases first : value? base c with
      | none => simp [List.forall₂_cons_left_iff, first]
      | some value => 
        simp [List.forall₂_cons_left_iff, first, ih]

/-- Digits are read as a number exactly if they denote it. -/
theorem read?_eq_some_iff {base : Nat} (bound : base ≤ 16) {text : Text} {number : Nat} :
    read? base text = some number ↔ Denotes base text number := by
  unfold read? Denotes
  cases text with
  | nil => simp
  | cons c rest =>
      simp only [List.isEmpty_cons, Bool.false_eq_true, ↓reduceIte, ne_eq, reduceCtorEq,
        not_false_eq_true, true_and, foldlM_eq_some_iff, value?_eq_some_iff bound]
      simp only [Nat.ofDigits_eq_foldr, List.foldr_reverse]
      simp [Nat.add_comm]

/-- What holds of every digit holds of every character of a numeral. -/
theorem Denotes.forall_mem {base number : Nat} {text : Text} {motive : Char → Prop}
    (denoted : Denotes base text number) (digit : ∀ c value, Stands base c value → motive c) :
    ∀ c ∈ text, motive c := by
  obtain ⟨-, values, stands, -⟩ := denoted
  induction stands with
  | nil => simp
  | cons first _ ih =>
      rw [List.forall_mem_cons]
      exact ⟨digit _ _ first, ih⟩

/-- Only decimal digits stand for values below ten. -/
theorem isDigit_of_stands {c : Char} {value : Nat} (stands : Stands 10 c value) :
    c.isDigit = true := by
  obtain ⟨small, upper⟩ := stands
  have codes := congrArg Char.toNat upper
  rw [toUpper_code, symbol_code (by omega)] at codes
  rw [isDigit_iff_code]
  grind

end Digits

namespace Numeral

/-- The spellings of a number that fits into a word. -/
inductive Written : Text → Word → Prop where
  | hexadecimal {mark : Char} {digits : Text} {number : Nat} (marked : mark = 'x' ∨ mark = 'X')
      (denoted : Digits.Denotes 16 digits number) (fits : number ≤ 65535) :
      Written ('0' :: mark :: digits) (BitVec.ofNat 16 number)
  | binary {digits : Text} {number : Nat} (denoted : Digits.Denotes 2 digits number)
      (fits : number ≤ 65535) : Written ('%' :: digits) (BitVec.ofNat 16 number)
  | decimal {digits : Text} {number : Nat} (denoted : Digits.Denotes 10 digits number)
      (fits : number ≤ 65535) : Written digits (BitVec.ofNat 16 number)

/-- A number starts with a decimal digit or the mark of binary numbers. -/
theorem Written.exists_cons {text : Text} {word : Word} (written : Written text word) :
    ∃ first rest, text = first :: rest ∧ (first.isDigit || first == '%') = true := by
  cases written with
  | hexadecimal marked denoted fits => exact ⟨_, _, rfl, by decide⟩
  | binary denoted fits => exact ⟨_, _, rfl, by decide⟩
  | decimal denoted fits =>
      have decimals := denoted.forall_mem fun _ _ => Digits.isDigit_of_stands
      cases text with
      | nil => exact absurd rfl denoted.1
      | cons first rest => exact ⟨first, rest, rfl, by simp [decimals first List.mem_cons_self]⟩

/-- Without signs, an unsigned number is read exactly if its digits denote one that fits into a
word. -/
theorem unsigned?_eq_some_iff {base : Nat} (bound : base ≤ 16) {digits : Text}
    (unmarked : ∀ c ∈ digits, Expr.isPlain c = true) {word : Word} :
    unsigned? base digits = some word ↔
      ∃ number, Digits.Denotes base digits number ∧ number ≤ 65535 ∧
        word = BitVec.ofNat 16 number := by
  have noPlus : unsigned? base digits =
      ((Digits.read? base digits).filter (· < 65536)).map (BitVec.ofNat 16) := by
    unfold unsigned?
    split
    case h_1 _ rest => exact absurd (unmarked '+' List.mem_cons_self) (by decide)
    case h_2 => rfl
  simp only [noPlus, Option.map_eq_some_iff, Option.filter_eq_some_iff,
    Digits.read?_eq_some_iff bound, decide_eq_true_eq]
  constructor
  · rintro ⟨number, ⟨denoted, fits⟩, rfl⟩
    exact ⟨number, denoted, by omega, rfl⟩
  · rintro ⟨number, denoted, fits, rfl⟩
    exact ⟨number, ⟨denoted, by omega⟩, rfl⟩

/-- The mark of hexadecimal numbers is a zero and an x of either case. -/
theorem afterHexMark?_eq_some_iff {text digits : Text} :
    afterHexMark? text = some digits ↔
      ∃ mark, (mark = 'x' ∨ mark = 'X') ∧ text = '0' :: mark :: digits := by
  constructor
  · intro found
    unfold afterHexMark? at found
    split at found
    case h_1 rest => cases found; exact ⟨'x', .inl rfl, rfl⟩
    case h_2 rest => cases found; exact ⟨'X', .inr rfl, rfl⟩
    case h_3 => cases found
  · rintro ⟨mark, rfl | rfl, rfl⟩ <;> rfl

/-- Reading accepts the numbers, and of the texts without signs nothing else. -/
theorem read?_eq_some_iff {text : Text} {word : Word} (bare : Text.Bare text)
    (unmarked : ∀ c ∈ text, Expr.isPlain c = true) :
    read? text = some word ↔ Written text word := by
  simp only [read?, bare.trim_eq]
  constructor
  · intro found
    split at found
    case h_1 digits after =>
      obtain ⟨mark, marked, rfl⟩ := afterHexMark?_eq_some_iff.mp after
      obtain ⟨number, denoted, fits, rfl⟩ := (unsigned?_eq_some_iff (by omega) fun c member =>
        unmarked c (List.mem_cons_of_mem _ (List.mem_cons_of_mem _ member))).mp found
      exact .hexadecimal marked denoted fits
    case h_2 =>
      split at found
      case h_1 digits =>
        obtain ⟨number, denoted, fits, rfl⟩ := (unsigned?_eq_some_iff (by omega) fun c member =>
          unmarked c (List.mem_cons_of_mem _ member)).mp found
        exact .binary denoted fits
      case h_2 =>
        split at found
        case isTrue =>
          obtain ⟨number, denoted, fits, rfl⟩ :=
            (unsigned?_eq_some_iff (by omega) unmarked).mp found
          exact .decimal denoted fits
        case isFalse => cases found
      case h_3 => cases found
  · intro written
    cases written with
    | hexadecimal marked denoted fits =>
        rw [afterHexMark?_eq_some_iff.mpr ⟨_, marked, rfl⟩]
        exact (unsigned?_eq_some_iff (by omega) fun c member =>
          unmarked c (List.mem_cons_of_mem _ (List.mem_cons_of_mem _ member))).mpr
          ⟨_, denoted, fits, rfl⟩
    | binary denoted fits =>
        exact (unsigned?_eq_some_iff (by omega) fun c member =>
          unmarked c (List.mem_cons_of_mem _ member)).mpr ⟨_, denoted, fits, rfl⟩
    | decimal denoted fits =>
        have decimals := denoted.forall_mem fun _ _ => Digits.isDigit_of_stands
        have noMark : afterHexMark? text = none := by
          rw [Option.eq_none_iff_forall_ne_some]
          intro digits after
          obtain ⟨mark, marked, rfl⟩ := afterHexMark?_eq_some_iff.mp after
          have digit := decimals mark (List.mem_cons_of_mem _ List.mem_cons_self)
          rcases marked with rfl | rfl <;> exact absurd digit (by decide)
        rw [noMark]
        cases text with
        | nil => exact absurd rfl denoted.1
        | cons first rest =>
            have digit := decimals first List.mem_cons_self
            dsimp only
            split
            case h_1 _ digits same =>
              cases same
              exact absurd digit (by decide)
            case h_2 same =>
              cases same
              rw [if_pos digit]
              exact (unsigned?_eq_some_iff (by omega) unmarked).mpr ⟨_, denoted, fits, rfl⟩
            case h_3 same => cases same

end Numeral

/-! ### Terms -/

namespace Term

/-- The spellings of a term. -/
inductive Spelled : Text → Term → Prop where
  | here : Spelled ['$'] .here
  | character {c : Char} (ascii : c.toNat < 128) :
      Spelled ['\'', c, '\''] (.literal (BitVec.ofNat 16 c.toNat))
  | number {text : Text} {word : Word} (written : Numeral.Written text word) :
      Spelled text (.literal word)
  | name {text : Text} (identifier : Text.isIdentifier text = true) : Spelled text (.name text)

/-- A character that can stand in a term outside quotes. -/
def isSolid (c : Char) : Bool :=
  c.isAlphanum || c == '_' || c == '$' || c == '%'

/-- Solid characters are neither blanks nor signs nor quotes. -/
theorem solid_spec {c : Char} (solid : isSolid c = true) :
    Text.isBlank c = false ∧ Expr.isPlain c = true ∧ c ≠ '\'' := by
  have codes : (48 ≤ c.toNat ∧ c.toNat ≤ 57 ∨ 65 ≤ c.toNat ∧ c.toNat ≤ 90 ∨
      97 ≤ c.toNat ∧ c.toNat ≤ 122) ∨ c.toNat = 95 ∨ c.toNat = 36 ∨ c.toNat = 37 := by
    simp only [isSolid, Char.isAlphanum, Bool.or_eq_true, beq_iff_eq, ← Char.toNat_inj,
      isAlpha_iff_code, isDigit_iff_code] at solid
    change ((_ ∨ c.toNat = 95) ∨ c.toNat = 36) ∨ c.toNat = 37 at solid
    omega
  refine ⟨?_, ?_, ?_⟩
  · simp [Text.isBlank]
    omega
  · have notPlus : c ≠ '+' := by
      rintro rfl
      exact absurd codes (by decide)
    have notMinus : c ≠ '-' := by
      rintro rfl
      exact absurd codes (by decide)
    simp [Expr.isPlain, Expr.sign?, notPlus, notMinus]
  · rintro rfl
    exact absurd codes (by decide)

/-- Digits are solid in every base up to sixteen. -/
theorem isSolid_of_stands {base value : Nat} {c : Char} (bound : base ≤ 16)
    (stands : Digits.Stands base c value) : isSolid c = true := by
  obtain ⟨small, upper⟩ := stands
  have codes := congrArg Char.toNat upper
  rw [toUpper_code, Digits.symbol_code (by omega)] at codes
  have alphanumeric : c.isAlphanum = true := by
    simp only [Char.isAlphanum, Bool.or_eq_true, isAlpha_iff_code, isDigit_iff_code]
    grind
  simp [isSolid, alphanumeric]

/-- Numerals are made of solid characters. -/
theorem isSolid_of_denotes {base number : Nat} {digits : Text} (bound : base ≤ 16)
    (denoted : Digits.Denotes base digits number) : ∀ c ∈ digits, isSolid c = true :=
  denoted.forall_mem fun _ _ => isSolid_of_stands bound

/-- Identifiers are made of solid characters. -/
theorem isSolid_of_isIdentifier {text : Text} (identifier : Text.isIdentifier text = true) :
    text ≠ [] ∧ ∀ c ∈ text, isSolid c = true := by
  cases text with
  | nil => cases identifier
  | cons first rest =>
      simp only [Text.isIdentifier, Bool.and_eq_true, List.all_eq_true, Bool.or_eq_true,
        beq_iff_eq] at identifier
      refine ⟨by simp, ?_⟩
      rw [List.forall_mem_cons]
      constructor
      · simp [isSolid, Char.isAlphanum, identifier.1]
      · intro c member
        have kinds := identifier.2 c member
        simp [isSolid, kinds]

/-- A term is a quoted character or made of solid characters. -/
theorem Spelled.shape {word : Text} {term : Term} (spelled : Spelled word term) :
    (∃ c, word = ['\'', c, '\'']) ∨ word ≠ [] ∧ ∀ c ∈ word, isSolid c = true := by
  cases spelled with
  | here =>
      refine .inr ⟨by simp, ?_⟩
      intro c member
      rw [List.mem_singleton.mp member]
      rfl
  | character ascii => exact .inl ⟨_, rfl⟩
  | number written =>
      cases written with
        | hexadecimal marked denoted fits =>
            refine .inr ⟨by simp, ?_⟩
            rw [List.forall_mem_cons, List.forall_mem_cons]
            refine ⟨by decide, ?_, isSolid_of_denotes (by omega) denoted⟩
            rcases marked with rfl | rfl <;> decide
        | binary denoted fits =>
            refine .inr ⟨by simp, ?_⟩
            rw [List.forall_mem_cons]
            exact ⟨by decide, isSolid_of_denotes (by omega) denoted⟩
        | decimal denoted fits => exact .inr ⟨denoted.1, isSolid_of_denotes (by omega) denoted⟩
  | name identifier => exact .inr (isSolid_of_isIdentifier identifier)

/-- A term has no blank at either end. -/
theorem Spelled.bare {word : Text} {term : Term} (spelled : Spelled word term) :
    Text.Bare word := by
  rcases spelled.shape with ⟨c, rfl⟩ | ⟨_, solid⟩
  · have last : ['\'', c, '\''].getLast? = some '\'' := by simp
    rw [Text.Bare, last]
    refine ⟨?_, ?_⟩ <;> rintro _ ⟨⟩ <;> decide
  · refine ⟨fun c first => ?_, fun c last => ?_⟩
    · exact (solid_spec (solid c (List.mem_of_mem_head? first))).1
    · exact (solid_spec (solid c (List.mem_of_mem_getLast? last))).1

/-- A quoted character is read exactly if it is the only one between the apostrophes and has a code
below 128. -/
theorem character?_eq_some_iff {text : Text} {byte : Byte} :
    Numeral.character? text = some byte ↔
      ∃ c, c.toNat < 128 ∧ text = ['\'', c, '\''] ∧ byte = BitVec.ofNat 8 c.toNat := by
  constructor
  · intro found
    unfold Numeral.character? at found
    split at found
    case h_1 c =>
      split at found
      case isTrue ascii =>
        cases found
        exact ⟨c, ascii, rfl, rfl⟩
      case isFalse => cases found
    case h_2 => cases found
  · rintro ⟨c, ascii, rfl, rfl⟩
    exact if_pos ascii

theorem character?_eq_none {first : Char} (unquoted : first ≠ '\'') (rest : Text) :
    Numeral.character? (first :: rest) = none := by
  rw [Option.eq_none_iff_forall_ne_some]
  intro byte found
  obtain ⟨c, _, same, _⟩ := character?_eq_some_iff.mp found
  exact unquoted (List.cons.inj same).1

theorem setWidth_ofNat_of_ascii {code : Nat} (ascii : code < 128) :
    (BitVec.ofNat 8 code).setWidth 16 = BitVec.ofNat 16 code := by
  apply BitVec.eq_of_toNat_eq
  simp only [BitVec.toNat_setWidth, BitVec.toNat_ofNat]
  omega

/-- **Reading a term.** A text without signs outside quotes is read as a term exactly if it is a
spelling of that term. -/
theorem read?_eq_some_iff {text : Text} {term : Term} (bare : Text.Bare text)
    (unmarked : text.head? ≠ some '\'' → ∀ c ∈ text, Expr.isPlain c = true) :
    read? text = some term ↔ Spelled text term := by
  constructor
  · intro found
    unfold read? at found
    split at found
    case isTrue dollar =>
      cases found
      exact dollar ▸ .here
    case isFalse =>
      split at found
      case h_1 byte quoted =>
        obtain ⟨c, ascii, rfl, rfl⟩ := character?_eq_some_iff.mp quoted
        cases found
        rw [setWidth_ofNat_of_ascii ascii]
        exact .character ascii
      case h_2 =>
        split at found
        case h_1 => cases found
        case h_2 first rest _ _ =>
          split at found
          case isTrue numeric =>
            have unquoted : (first :: rest).head? ≠ some '\'' := by
              rintro ⟨⟩
              exact absurd numeric (by decide)
            obtain ⟨word, read, rfl⟩ := Option.map_eq_some_iff.mp found
            exact .number ((Numeral.read?_eq_some_iff bare (unmarked unquoted)).mp read)
          case isFalse =>
            split at found
            case isTrue identifier =>
              cases found
              exact .name identifier
            case isFalse => cases found
  · intro spelled
    cases spelled with
    | here => rfl
    | character ascii =>
        rw [read?, if_neg (by simp), character?_eq_some_iff.mpr ⟨_, ascii, rfl, rfl⟩]
        exact congrArg (some ∘ literal) (setWidth_ofNat_of_ascii ascii)
    | number written =>
        -- The tests in front of that for numbers fail on how a number starts.
        obtain ⟨first, rest, rfl, numeric⟩ := written.exists_cons
        have unquoted : first ≠ '\'' := by
          rintro rfl
          exact absurd numeric (by decide)
        have noDollar : first :: rest ≠ ['$'] := by
          rintro ⟨⟩
          exact absurd numeric (by decide)
        rw [read?, if_neg noDollar, character?_eq_none unquoted]
        dsimp only
        rw [if_pos numeric, Option.map_eq_some_iff]
        exact ⟨_, (Numeral.read?_eq_some_iff bare (unmarked (by simpa using unquoted))).mpr written,
          rfl⟩
    | name identifier =>
        cases text with
        | nil => cases identifier
        | cons first rest =>
            have letter : first.isAlpha = true := by
              simp only [Text.isIdentifier, Bool.and_eq_true] at identifier
              exact identifier.1
            have unquoted : first ≠ '\'' := by
              rintro rfl
              exact absurd letter (by decide)
            have noDollar : first :: rest ≠ ['$'] := by
              rintro ⟨⟩
              exact absurd letter (by decide)
            have noNumber : ¬ (first.isDigit || first == '%') = true := by
              rw [isAlpha_iff_code] at letter
              rw [Bool.or_eq_true, beq_iff_eq, isDigit_iff_code, not_or]
              refine ⟨by omega, ?_⟩
              rintro rfl
              exact absurd letter (by decide)
            rw [read?, if_neg noDollar, character?_eq_none unquoted]
            dsimp only
            rw [if_neg noNumber, if_pos identifier]

/-- A text that is a term with blanks around it. -/
def Padded (text : Text) (term : Term) : Prop :=
  ∃ left word right, text = left ++ word ++ right ∧ Text.Blanks left ∧ Text.Blanks right ∧
    Spelled word term

end Term

end Msp430
