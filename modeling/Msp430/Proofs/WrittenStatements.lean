import Msp430.Proofs.QuoteScan
import Msp430.Proofs.StatementForms

/-! # Statements as they are written

A line of source has a label in the first column or is indented; then comes an
operator with its operands; blanks keep these parts apart, and a comment may follow
(`Statement.Written`). However it is written, the line is taken apart into the
statement that was meant (`Statement.classify_written`). The two steps are that a
line without its comment falls into its columns (`Statement.classify_of_code`), and
that the text behind the label states one thing only (`Statement.Stated.statement_eq`).
-/

namespace Msp430

/-! ### Words -/

namespace Text

/-- Blanks that keep two words apart. -/
structure Gap (text : Text) : Prop where
  nonempty : text ≠ []
  blank : Blanks text

theorem takeWhile_of_blanks {gap rest : Text} (blank : Blanks gap) (parted : gap = [] → rest = []) :
    (gap ++ rest).takeWhile (fun c => !isBlank c) = [] ∧
      (gap ++ rest).dropWhile (fun c => !isBlank c) = gap ++ rest := by
  cases gap with
  | nil =>
      rw [parted rfl]
      exact ⟨rfl, rfl⟩
  | cons first others =>
      have blankFirst := blank first List.mem_cons_self
      exact ⟨List.takeWhile_cons_of_neg (by simp [blankFirst]),
        List.dropWhile_cons_of_neg (by simp [blankFirst])⟩

/-- The first word of a text ends at the blanks behind it. -/
theorem splitWord_append {word gap rest : Text} (nonempty : word ≠ [])
    (solid : ∀ c ∈ word, isBlank c = false) (blank : Blanks gap) (bare : Bare rest)
    (parted : gap = [] → rest = []) : splitWord (word ++ gap ++ rest) = (word, rest) := by
  have start : trimStart (word ++ (gap ++ rest)) = word ++ (gap ++ rest) := by
    obtain ⟨first, others, rfl⟩ := List.exists_cons_of_ne_nil nonempty
    exact trimStart_cons (solid first List.mem_cons_self) _
  have inside : ∀ c ∈ word, (!isBlank c) = true := by
    intro c member
    rw [solid c member]
    rfl
  obtain ⟨taken, dropped⟩ := takeWhile_of_blanks blank parted
  have trimmed : trim (gap ++ rest) = rest := by
    have padded := trim_append blank bare Blanks.nil
    rwa [List.append_nil] at padded
  rw [splitWord, List.append_assoc, start, List.takeWhile_append_of_pos inside,
    List.dropWhile_append_of_pos inside, taken, dropped, List.append_nil, trimmed]

/-- A word that spells one keyword spells no other. -/
theorem spells_eq_false {word keyword other : Text} (spelled : upper word = keyword)
    (distinct : keyword ≠ other) : spells word other = false := by
  rw [spells, spelled, beq_eq_false_iff_ne]
  exact distinct

theorem spells_eq_true {word keyword : Text} (spelled : upper word = keyword) :
    spells word keyword = true := by
  rw [spells, spelled, beq_iff_eq]

/-- A text that ends in no blank is not made of blanks. -/
theorem isEmpty_trim_append {text : Text} (nonempty : text ≠ [])
    (solid : ∀ c ∈ text.getLast?, isBlank c = false) (rest : Text) :
    (trim (text ++ rest)).isEmpty = false := by
  rw [Bool.eq_false_iff]
  intro nothing
  have last := List.getLast?_eq_some_getLast nonempty
  have blank := blanks_of_trim nothing _ (List.mem_append_left _ (List.getLast_mem nonempty))
  rw [solid _ last] at blank
  cases blank

end Text

/-! ### Lines without their comments -/

/-- What may follow a statement on its line: blanks, and a comment. -/
inductive Trailer : Text → Prop where
  | blanks {gap : Text} (blank : Text.Blanks gap) : Trailer gap
  | comment {gap : Text} (blank : Text.Blanks gap) (comment : Text) :
      Trailer (gap ++ ';' :: comment)

theorem Trailer.trimEnd_stripComment {code trailer : Text} (trails : Trailer trailer)
    (isCode : Scan.IsCode code) (solid : ∀ c ∈ code.getLast?, Text.isBlank c = false) :
    Text.trimEnd (Scan.stripComment (code ++ trailer)) = code := by
  have withGap : ∀ {gap : Text}, Text.Blanks gap → Scan.IsCode (code ++ gap) :=
    fun blank => isCode.append (.of_blanks blank)
  cases trails with
  | blanks blank =>
      rw [(withGap blank).stripComment_eq, Text.trimEnd_append blank,
        Text.trimEnd_of_getLast? solid]
  | comment blank comment =>
      rw [← List.append_assoc, (withGap blank).stripComment_append, Text.trimEnd_append blank,
        Text.trimEnd_of_getLast? solid]

/-- A line falls into its columns, whatever follows its code. -/
theorem Statement.classify_of_code {code trailer : Text} (nonempty : code ≠ [])
    (isCode : Scan.IsCode code) (solid : ∀ c ∈ code.getLast?, Text.isBlank c = false)
    (trails : Trailer trailer)
    (goesOn : Text.spells (Text.splitWord code).1 "END".toList = false)
    (passed : (Columns.ofCode code).label?.bind labelFault? = none) :
    classify (code ++ trailer) = (Columns.ofCode code).statement := by
  have visible := Text.isEmpty_trim_append nonempty solid
  have codeVisible := visible []
  rw [List.append_nil] at codeVisible
  rw [classify, visible trailer, trails.trimEnd_stripComment isCode solid]
  simp only [Bool.false_eq_true, ↓reduceIte, codeVisible, goesOn, Bool.or_self, passed]

/-! ### Labels -/

/-- A word that may label a line: an identifier that is no word of the language. -/
structure IsLabel (name : Text) : Prop where
  identifier : Text.isIdentifier name = true
  unreserved : Mnemonic.isReserved name = false

namespace IsLabel

variable {name colon : Text} (isLabel : IsLabel name) (marked : colon = [] ∨ colon = [':'])

include isLabel

theorem nonempty : name ≠ [] :=
  (Term.isSolid_of_isIdentifier isLabel.identifier).1

theorem isSolid : ∀ c ∈ name, Term.isSolid c = true :=
  (Term.isSolid_of_isIdentifier isLabel.identifier).2

theorem ne_colon : ∀ c ∈ name, c ≠ ':' := by
  rintro c member rfl
  exact absurd (isLabel.isSolid _ member) (by decide)

theorem spells_eq_false {keyword : Text} (reserved : Mnemonic.isReserved keyword = true) :
    Text.spells name keyword = false := by
  rw [Text.spells, beq_eq_false_iff_ne]
  rintro rfl
  rw [Mnemonic.isReserved_upper, isLabel.unreserved] at reserved
  cases reserved

include marked

theorem forall_mem_append {motive : Char → Prop} (solid : ∀ c, Term.isSolid c = true → motive c)
    (colonToo : motive ':') : ∀ c ∈ name ++ colon, motive c := by
  intro c member
  rcases List.mem_append.mp member with inName | inColon
  · exact solid c (isLabel.isSolid c inName)
  · rcases marked with rfl | rfl
    · cases inColon
    · rw [List.mem_singleton.mp inColon]
      exact colonToo

theorem isBlank_eq_false : ∀ c ∈ name ++ colon, Text.isBlank c = false :=
  isLabel.forall_mem_append marked (fun _ solid => (Term.solid_spec solid).1) (by decide)

theorem isCode : Scan.IsCode (name ++ colon) :=
  .of_isNeutral (isLabel.forall_mem_append marked
    (fun _ => Scan.isNeutral_of_test (by simp [Scan.marks, Term.isSolid])) (by decide))

theorem splitWord_append {gap body : Text} (blank : Text.Blanks gap) (bare : Text.Bare body)
    (parted : gap = [] → body = []) :
    Text.splitWord (name ++ colon ++ gap ++ body) = (name ++ colon, body) :=
  Text.splitWord_append (by simp [isLabel.nonempty]) (isLabel.isBlank_eq_false marked) blank bare
    parted

theorem beforeColon?_getD : (Columns.beforeColon? (name ++ colon)).getD (name ++ colon) = name := by
  unfold Columns.beforeColon?
  rcases marked with rfl | rfl
  · rw [List.append_nil, if_neg]
    · rfl
    · intro last
      exact isLabel.ne_colon _ (List.mem_of_getLast? last) rfl
  · simp

/-- A label is the first column, with or without a colon. -/
theorem ofCode_append {gap body : Text} (blank : Text.Blanks gap) (bare : Text.Bare body)
    (parted : gap = [] → body = []) :
    Columns.ofCode (name ++ colon ++ gap ++ body) = ⟨some name, body⟩ := by
  have split := isLabel.splitWord_append marked blank bare parted
  have solid := isLabel.isBlank_eq_false marked
  have named := isLabel.beforeColon?_getD marked
  obtain ⟨first, others, rfl⟩ := List.exists_cons_of_ne_nil isLabel.nonempty
  have solidFirst : Text.isBlank first = false := solid first List.mem_cons_self
  simp only [List.cons_append] at split named ⊢
  rw [Columns.ofCode, if_neg (by simp [solidFirst])]
  simp only [split, named]

theorem spells_splitWord {gap body : Text} (blank : Text.Blanks gap) (bare : Text.Bare body)
    (parted : gap = [] → body = []) :
    Text.spells (Text.splitWord (name ++ colon ++ gap ++ body)).1 "END".toList = false := by
  rw [isLabel.splitWord_append marked blank bare parted]
  rcases marked with rfl | rfl
  · rw [List.append_nil]
    exact isLabel.spells_eq_false (by decide)
  · rw [Text.spells, beq_eq_false_iff_ne]
    intro same
    have last : (Text.upper (name ++ [':'])).getLast? = some ':' := by
      rw [Text.getLast?_upper_eq_some_iff (by decide)]
      simp
    rw [show Text.upper (name ++ [':']) = _ from same] at last
    cases last

end IsLabel

/-! ### Operators -/

/-- A character that operators are made of. -/
def isOperatorLetter (c : Char) : Bool :=
  c.isAlpha || c == '.'

/-- A word that is spelled like an operator. -/
structure IsOperatorWord (word : Text) : Prop where
  nonempty : word ≠ []
  letters : ∀ c ∈ word, isOperatorLetter c = true

namespace IsOperatorWord

theorem of_upper {word keyword : Text} (spelled : Text.upper word = keyword)
    (nonempty : keyword ≠ []) (letters : keyword.all isOperatorLetter = true) :
    IsOperatorWord word := by
  refine ⟨?_, fun c member => ?_⟩
  · rintro rfl
    exact nonempty spelled.symm
  · have ignores : isOperatorLetter c.toUpper = isOperatorLetter c := by
      apply test_toUpper isOperatorLetter true
      intro letter alpha
      simp [isOperatorLetter, alpha]
    rw [← ignores]
    exact List.all_eq_true.mp letters _ (spelled ▸ List.mem_map_of_mem member)

variable {word : Text} (isWord : IsOperatorWord word)

include isWord

theorem isBlank_eq_false : ∀ c ∈ word, Text.isBlank c = false := by
  intro c member
  have letter := isWord.letters c member
  rw [isOperatorLetter, Bool.or_eq_true, beq_iff_eq] at letter
  rcases letter with alpha | rfl
  · have solid : Term.isSolid c = true := by simp [Term.isSolid, Char.isAlphanum, alpha]
    exact (Term.solid_spec solid).1
  · rfl

theorem bare : Text.Bare word :=
  ⟨fun c first => isWord.isBlank_eq_false c (List.mem_of_head? first),
    fun c last => isWord.isBlank_eq_false c (List.mem_of_getLast? last)⟩

theorem isCode : Scan.IsCode word :=
  .of_isNeutral fun c member => Scan.isNeutral_of_test (by simp [Scan.marks, isOperatorLetter])
    (isWord.letters c member)

end IsOperatorWord

/-- The spelling of a directive that stores data. -/
def Directive.keyword : Directive → Text
  | byte => "DB".toList
  | space => "DS".toList
  | word => "DW".toList

/-- The operators of instructions: a mnemonic that is no directive, with or without a size, in any
letter case. -/
def Mnemonic.IsOperator (operator : Text) : Prop :=
  ∃ mnemonic ∈ table, mnemonic.format ≠ .directive ∧
    ∃ suffix ∈ [[], ".B".toList, ".W".toList], Text.upper operator = mnemonic.name ++ suffix

/-- What the classification asks about the operator of an instruction. -/
structure Mnemonic.Instructs (operator : Text) : Prop where
  isWord : IsOperatorWord operator
  letter : (operator.head?.map Char.isAlpha).getD false = true
  reserved : isReserved operator = true
  uncolonned : Columns.beforeColon? operator = none
  notData : Directive.ofWord? operator = none
  notKeyword : ∀ keyword ∈ ["EQU".toList, "ORG".toList, "END".toList],
    Text.spells operator keyword = false

/-- No operator of an instruction is mistaken for a directive. -/
theorem Mnemonic.IsOperator.instructs {operator : Text} (isOperator : IsOperator operator) :
    Instructs operator := by
  obtain ⟨mnemonic, listed, instruction, suffix, sized, spelled⟩ := isOperator
  -- The operator has any letter case; its upper case comes from a finite table.
  have rows : ∀ mnemonic ∈ table, mnemonic.format ≠ .directive →
      ∀ suffix ∈ [[], ".B".toList, ".W".toList], mnemonic.name ++ suffix ≠ [] ∧
        (mnemonic.name ++ suffix).all isOperatorLetter = true ∧
        ((mnemonic.name ++ suffix).head?.map Char.isAlpha).getD false = true ∧
        isReserved (mnemonic.name ++ suffix) = true ∧
        (mnemonic.name ++ suffix).getLast? ≠ some ':' ∧
        Directive.ofWord? (mnemonic.name ++ suffix) = none ∧
        ∀ keyword ∈ ["EQU".toList, "ORG".toList, "END".toList],
          mnemonic.name ++ suffix ≠ keyword := by
    decide +kernel
  obtain ⟨nonempty, letters, first, reserved, last, notData, notKeyword⟩ :=
    rows mnemonic listed instruction suffix sized
  rw [← spelled] at first reserved last notData notKeyword
  refine ⟨.of_upper spelled nonempty letters, ?_, ?_, if_neg ?_, ?_, ?_⟩
  · rw [Text.upper, List.head?_map, Option.map_map] at first
    simpa only [Function.comp_def, Char.isAlpha_toUpper_eq_isAlpha] using first
  · rwa [isReserved_upper] at reserved
  · rwa [Ne, Text.getLast?_upper_eq_some_iff (by decide)] at last
  · rwa [Directive.ofWord?_upper] at notData
  · exact fun keyword member => Text.spells_eq_false rfl (notKeyword keyword member)

/-! ### Operands -/

/-- A text that can stand behind an operator: it has no blanks at its ends, and a comment can
follow it. -/
structure IsOperand (text : Text) : Prop where
  nonempty : text ≠ []
  bare : Text.Bare text
  code : Scan.IsCode text

instance (text : Text) : Decidable (IsOperand text) :=
  decidable_of_iff (text ≠ [] ∧ Text.Bare text ∧ Scan.IsCode text)
    ⟨fun all => ⟨all.1, all.2.1, all.2.2⟩,
      fun isOperand => ⟨isOperand.nonempty, isOperand.bare, isOperand.code⟩⟩

/-- The spellings of the operands of an instruction. Two operands are parted by a comma; any other
comma stands inside quotes or parentheses. -/
inductive Operands.Spelled : Operands → Text → Prop where
  | one {operand : Text} (isOperand : IsOperand operand)
      (undivided : Scan.Undivided Option.none 0 operand) : Spelled (.one operand) operand
  | two {source destination before after : Text} (isSource : IsOperand source)
      (sourceItem : Scan.IsItem source) (isDestination : IsOperand destination)
      (destinationItem : Scan.IsItem destination) (beforeBlank : Text.Blanks before)
      (afterBlank : Text.Blanks after) :
      Spelled (.two source destination) (source ++ before ++ ',' :: (after ++ destination))

theorem Scan.isCode_comma : Scan.IsCode [','] := by
  refine ⟨rfl, fun before after split => ?_⟩
  have member : ';' ∈ [','] := split ▸ List.mem_append_right _ List.mem_cons_self
  exact absurd member (by decide)

theorem Operands.Spelled.isOperand {operands : Operands} {field : Text}
    (spelled : operands.Spelled field) : IsOperand field := by
  cases spelled with
  | one isOperand _ => exact isOperand
  | @two source destination before after isSource _ isDestination _ beforeBlank afterBlank =>
      refine ⟨by simp, ⟨fun c first => ?_, fun c last => ?_⟩, ?_⟩
      · rw [List.append_assoc, List.head?_append_of_ne_nil _ isSource.nonempty] at first
        exact isSource.bare.1 c first
      · rw [← List.cons_append, ← List.append_assoc,
          List.getLast?_append_of_ne_nil _ isDestination.nonempty] at last
        exact isDestination.bare.2 c last
      · exact (isSource.code.append (.of_blanks beforeBlank)).append
          (Scan.isCode_comma.append ((Scan.IsCode.of_blanks afterBlank).append isDestination.code))

/-- The operands of an instruction are read as they were meant. -/
theorem Operands.Spelled.operands_eq {operands : Operands} {field : Text}
    (spelled : operands.Spelled field) : Columns.operands field = .ok operands := by
  cases spelled with
  | one isOperand undivided =>
      have whole : Scan.splitList field = [field] := by
        rw [Scan.splitList, Scan.cutList_undivided undivided, List.map_singleton,
          isOperand.bare.trim_eq]
      have visible : field.isEmpty = false := by simp [isOperand.nonempty]
      simp only [Columns.operands, whole, visible, Bool.false_eq_true, ↓reduceIte]
  | @two source destination before after isSource sourceItem isDestination destinationItem
      beforeBlank afterBlank =>
      have left : Scan.IsItem (source ++ before) := sourceItem.padded Text.Blanks.nil beforeBlank
      have right : Scan.IsItem (after ++ destination) := by
        have padded := destinationItem.padded afterBlank Text.Blanks.nil
        rwa [List.append_nil] at padded
      have trimmedSource : Text.trim (source ++ before) = source :=
        Text.trim_append Text.Blanks.nil isSource.bare beforeBlank
      have trimmedDestination : Text.trim (after ++ destination) = destination := by
        have padded := Text.trim_append afterBlank isDestination.bare Text.Blanks.nil
        rwa [List.append_nil] at padded
      have parts : Scan.splitList (source ++ before ++ ',' :: (after ++ destination)) =
          [source, destination] := by
        rw [Scan.splitList, left.cutList_append, Scan.cutList_undivided right.undivided,
          List.map_cons, List.map_singleton, trimmedSource, trimmedDestination]
      have sourceVisible : source.isEmpty = false := by simp [isSource.nonempty]
      have destinationVisible : destination.isEmpty = false := by simp [isDestination.nonempty]
      simp only [Columns.operands, parts, sourceVisible, destinationVisible, Bool.false_eq_true,
        ↓reduceIte]

/-! ### Statements -/

/-- A text whose first word does not declare a constant. -/
def Undeclaring (field : Text) : Prop :=
  Text.spells (Text.splitWord field).1 "EQU".toList = false

/-- What a line states behind its label, if it has one. Behind blanks the operator could be taken
for the name of a constant, so that there the first word of the operands must not declare one. -/
inductive Statement.Stated : Option Text → Text → Statement → Prop where
  | constant {name operator gap value : Text} (keyword : Text.upper operator = "EQU".toList)
      (parted : Text.Gap gap) (isOperand : IsOperand value) :
      Stated (some name) (operator ++ gap ++ value) (.constant name value)
  | data {label? : Option Text} {directive : Directive} {operator gap items : Text}
      (keyword : Text.upper operator = directive.keyword) (parted : Text.Gap gap)
      (isOperand : IsOperand items) (undeclaring : label? = none → Undeclaring items) :
      Stated label? (operator ++ gap ++ items) (.data label? directive items)
  | origin {label? : Option Text} {operator gap address : Text}
      (keyword : Text.upper operator = "ORG".toList) (parted : Text.Gap gap)
      (isOperand : IsOperand address) (undeclaring : label? = none → Undeclaring address) :
      Stated label? (operator ++ gap ++ address) (.origin label? address)
  | plain {label? : Option Text} {operator : Text} (isOperator : Mnemonic.IsOperator operator) :
      Stated label? operator (.instruction label? operator .none)
  | instruction {label? : Option Text} {operator gap field : Text} {operands : Operands}
      (isOperator : Mnemonic.IsOperator operator) (parted : Text.Gap gap)
      (spelled : operands.Spelled field) (undeclaring : label? = none → Undeclaring field) :
      Stated label? (operator ++ gap ++ field) (.instruction label? operator operands)

/-- An operator and its operands: how they look from outside, and how they fall apart. -/
structure Splits (body operator field : Text) : Prop where
  nonempty : body ≠ []
  bare : Text.Bare body
  code : Scan.IsCode body
  split : Text.splitWord body = (operator, field)

theorem IsOperatorWord.splits {operator : Text} (isWord : IsOperatorWord operator) :
    Splits operator operator [] := by
  refine ⟨isWord.nonempty, isWord.bare, isWord.isCode, ?_⟩
  have alone : Text.splitWord (operator ++ [] ++ []) = (operator, []) :=
    Text.splitWord_append isWord.nonempty isWord.isBlank_eq_false Text.Blanks.nil
      ⟨nofun, nofun⟩ fun _ => rfl
  rwa [List.append_nil, List.append_nil] at alone

theorem IsOperatorWord.splits_operand {operator gap field : Text}
    (isWord : IsOperatorWord operator) (parted : Text.Gap gap) (isOperand : IsOperand field) :
    Splits (operator ++ gap ++ field) operator field := by
  refine ⟨by simp [isWord.nonempty], ⟨fun c first => ?_, fun c last => ?_⟩, ?_, ?_⟩
  · rw [List.append_assoc, List.head?_append_of_ne_nil _ isWord.nonempty] at first
    exact isWord.bare.1 c first
  · rw [List.getLast?_append_of_ne_nil _ isOperand.nonempty] at last
    exact isOperand.bare.2 c last
  · exact (isWord.isCode.append (.of_blanks parted.blank)).append isOperand.code
  · exact Text.splitWord_append isWord.nonempty isWord.isBlank_eq_false parted.blank
      isOperand.bare fun none => absurd none parted.nonempty

namespace Columns

variable {label? : Option Text} {body operator field : Text}

theorem constant?_eq_none (split : Text.splitWord body = (operator, field))
    (other : Text.spells operator "EQU".toList = false)
    (undeclaring : label? = none → Undeclaring field) :
    (Columns.mk label? body).constant? = none := by
  cases label? with
  | some name => simp only [constant?, split, other, Bool.false_eq_true, ↓reduceIte]
  | none =>
      have plain : Text.spells (Text.splitWord field).1 "EQU".toList = false := undeclaring rfl
      simp only [constant?, split, plain, Bool.false_eq_true, ↓reduceIte]

/-- A line with the operator of an instruction is an instruction with whatever operands it has. -/
theorem statement_of_instructs (splits : Splits body operator field)
    (instructs : Mnemonic.Instructs operator) (undeclaring : label? = none → Undeclaring field) :
    (Columns.mk label? body).statement =
      (operands field).map (Statement.instruction label? operator) := by
  have notEqu := instructs.notKeyword _ (List.mem_cons_self)
  have notOrg := instructs.notKeyword "ORG".toList (by simp)
  have noFault : operatorFault? label?.isNone operator field = none := by
    simp only [operatorFault?, instructs.uncolonned, instructs.reserved, instructs.letter,
      ite_self, Bool.not_true, Bool.and_false, Bool.false_and, Bool.false_eq_true, ↓reduceIte]
  obtain ⟨first, rest, rfl⟩ := List.exists_cons_of_ne_nil splits.nonempty
  rw [statement, constant?_eq_none splits.split notEqu undeclaring]
  simp only [splits.split, instructs.notData, notOrg, noFault, Bool.false_eq_true, ↓reduceIte]

end Columns

theorem Directive.ofWord?_of_keyword {directive : Directive} {word : Text}
    (keyword : Text.upper word = directive.keyword) : ofWord? word = some directive := by
  rw [← ofWord?_upper, keyword]
  cases directive <;> rfl

namespace Statement.Stated

variable {label? : Option Text} {body : Text} {statement : Statement}

/-- What is stated opens with an operator, which is not the end mark. -/
theorem exists_splits (stated : Stated label? body statement) :
    ∃ operator field, Splits body operator field ∧
      Text.spells operator "END".toList = false := by
  cases stated with
  | constant keyword parted isOperand =>
      have isWord : IsOperatorWord _ := .of_upper keyword (by decide) (by decide)
      exact ⟨_, _, isWord.splits_operand parted isOperand,
        Text.spells_eq_false keyword (by decide)⟩
  | @data _ directive _ _ _ keyword parted isOperand _ =>
      have isWord : IsOperatorWord _ :=
        .of_upper keyword (by cases directive <;> decide) (by cases directive <;> decide)
      exact ⟨_, _, isWord.splits_operand parted isOperand,
        Text.spells_eq_false keyword (by cases directive <;> decide)⟩
  | origin keyword parted isOperand _ =>
      have isWord : IsOperatorWord _ := .of_upper keyword (by decide) (by decide)
      exact ⟨_, _, isWord.splits_operand parted isOperand,
        Text.spells_eq_false keyword (by decide)⟩
  | plain isOperator =>
      have instructs := isOperator.instructs
      exact ⟨_, _, instructs.isWord.splits, instructs.notKeyword _ (by simp)⟩
  | instruction isOperator parted spelled _ =>
      have instructs := isOperator.instructs
      exact ⟨_, _, instructs.isWord.splits_operand parted spelled.isOperand,
        instructs.notKeyword _ (by simp)⟩

/-- **The text behind a label states one thing.** -/
theorem statement_eq (stated : Stated label? body statement) :
    (Columns.mk label? body).statement = .ok statement := by
  have visible : ∀ {text : Text}, IsOperand text → text.isEmpty = false := by
    intro text isOperand
    simp [isOperand.nonempty]
  cases stated with
  | @constant name operator gap value keyword parted isOperand =>
      have isWord : IsOperatorWord operator := .of_upper keyword (by decide) (by decide)
      have declares := Text.spells_eq_true keyword
      simp only [Columns.statement, Columns.constant?,
        (isWord.splits_operand parted isOperand).split, declares, visible isOperand,
        Option.isNone_some, Bool.false_eq_true, ↓reduceIte]
  | @data _ directive operator gap items keyword parted isOperand undeclaring =>
      have isWord : IsOperatorWord operator :=
        .of_upper keyword (by cases directive <;> decide) (by cases directive <;> decide)
      have split := (isWord.splits_operand parted isOperand).split
      have notEqu : Text.spells operator "EQU".toList = false :=
        Text.spells_eq_false keyword (by cases directive <;> decide)
      rw [Columns.statement, Columns.constant?_eq_none split notEqu undeclaring]
      simp only [split, Directive.ofWord?_of_keyword keyword, visible isOperand,
        Bool.false_eq_true, ↓reduceIte]
  | @origin _ operator gap address keyword parted isOperand undeclaring =>
      have isWord : IsOperatorWord operator := .of_upper keyword (by decide) (by decide)
      have split := (isWord.splits_operand parted isOperand).split
      have notEqu : Text.spells operator "EQU".toList = false :=
        Text.spells_eq_false keyword (by decide)
      have moves := Text.spells_eq_true keyword
      have notData : Directive.ofWord? operator = none := by
        rw [← Directive.ofWord?_upper, keyword]
        rfl
      rw [Columns.statement, Columns.constant?_eq_none split notEqu undeclaring]
      simp only [split, notData, moves, visible isOperand, Bool.false_eq_true, ↓reduceIte]
  | plain isOperator =>
      have instructs := isOperator.instructs
      exact Columns.statement_of_instructs instructs.isWord.splits instructs fun _ => rfl
  | instruction isOperator parted spelled undeclaring =>
      have instructs := isOperator.instructs
      rw [Columns.statement_of_instructs
        (instructs.isWord.splits_operand parted spelled.isOperand) instructs undeclaring,
        spelled.operands_eq]
      rfl

end Statement.Stated

/-- The lines that a statement can be written as. -/
inductive Statement.Written : Statement → Text → Prop where
  | label {name colon trailer : Text} (isLabel : IsLabel name)
      (marked : colon = [] ∨ colon = [':']) (trails : Trailer trailer) :
      Written (.label name) (name ++ colon ++ trailer)
  | labelled {name colon gap body trailer : Text} {statement : Statement} (isLabel : IsLabel name)
      (marked : colon = [] ∨ colon = [':']) (parted : Text.Gap gap)
      (stated : Stated (some name) body statement) (trails : Trailer trailer) :
      Written statement (name ++ colon ++ gap ++ body ++ trailer)
  | indented {gap body trailer : Text} {statement : Statement} (parted : Text.Gap gap)
      (stated : Stated none body statement) (trails : Trailer trailer) :
      Written statement (gap ++ body ++ trailer)

/-- **Classification undoes writing a statement down.** A label in the first column, with or without
a colon, or no label and blanks; an operator in any letter case; its operands; blanks between these
parts, and a comment behind them: the line is taken apart into the statement that it was written
for, with the texts of its label, operator and operands as they were written. -/
theorem Statement.classify_written {statement : Statement} {line : Text}
    (written : statement.Written line) : classify line = .ok statement := by
  have labelPasses : ∀ {name : Text}, IsLabel name → (some name).bind labelFault? = none :=
    fun isLabel => labelFault?_eq_none_iff.mpr ⟨isLabel.unreserved, isLabel.identifier⟩
  cases written with
  | @label name colon trailer isLabel marked trails =>
      -- A bare label is a label with an empty text behind it.
      have noBody : Text.Bare [] := ⟨nofun, nofun⟩
      have columns := isLabel.ofCode_append marked Text.Blanks.nil noBody fun _ => rfl
      have goesOn := isLabel.spells_splitWord marked Text.Blanks.nil noBody fun _ => rfl
      rw [List.append_nil, List.append_nil] at columns goesOn
      have solid : ∀ c ∈ (name ++ colon).getLast?, Text.isBlank c = false := fun c last =>
        isLabel.isBlank_eq_false marked c (List.mem_of_getLast? last)
      rw [classify_of_code (by simp [isLabel.nonempty]) (isLabel.isCode marked) solid trails goesOn
        (columns ▸ labelPasses isLabel), columns]
      rfl
  | @labelled name colon gap body trailer _ isLabel marked parted stated trails =>
      obtain ⟨operator, field, splits, -⟩ := stated.exists_splits
      have apart : gap = [] → body = [] := fun none => absurd none parted.nonempty
      have columns := isLabel.ofCode_append marked parted.blank splits.bare apart
      have goesOn := isLabel.spells_splitWord marked parted.blank splits.bare apart
      have code : Scan.IsCode (name ++ colon ++ gap ++ body) :=
        ((isLabel.isCode marked).append (.of_blanks parted.blank)).append splits.code
      have solid : ∀ c ∈ (name ++ colon ++ gap ++ body).getLast?, Text.isBlank c = false := by
        rw [List.getLast?_append_of_ne_nil _ splits.nonempty]
        exact splits.bare.2
      rw [classify_of_code (by simp [splits.nonempty]) code solid trails goesOn
        (columns ▸ labelPasses isLabel), columns]
      exact stated.statement_eq
  | @indented gap body trailer _ parted stated trails =>
      obtain ⟨operator, field, splits, goesOn⟩ := stated.exists_splits
      have columns : Columns.ofCode (gap ++ body) = ⟨none, body⟩ := by
        have trimmed := Text.trim_append parted.blank splits.bare Text.Blanks.nil
        obtain ⟨first, others, rfl⟩ := List.exists_cons_of_ne_nil parted.nonempty
        rw [List.append_nil, List.cons_append] at trimmed
        rw [List.cons_append, Columns.ofCode, if_pos (parted.blank first List.mem_cons_self),
          trimmed]
      have code : Scan.IsCode (gap ++ body) :=
        (Scan.IsCode.of_blanks parted.blank).append splits.code
      have solid : ∀ c ∈ (gap ++ body).getLast?, Text.isBlank c = false := by
        rw [List.getLast?_append_of_ne_nil _ splits.nonempty]
        exact splits.bare.2
      have opening : (Text.splitWord (gap ++ body)).1 = operator := by
        rw [Text.splitWord, Text.trimStart_append parted.blank, ← Text.splitWord, splits.split]
      rw [classify_of_code (by simp [splits.nonempty]) code solid trails (opening ▸ goesOn)
        (columns ▸ rfl), columns]
      exact stated.statement_eq

/-- A semicolon and a comma in quotes, a colon at the label, blanks of several kinds, and a comment
that opens a quote and declares a constant. -/
theorem Statement.classify_written_quoted :
    let line := "Loop:\t mov.B #';' , ','(R5)\t;'x EQU 5".toList
    let statement := Statement.instruction (some "Loop".toList) "mov.B".toList
      (.two "#';'".toList "','(R5)".toList)
    statement.Written line ∧ classify line = .ok statement := by
  intro line statement
  have spelled : (Operands.two "#';'".toList "','(R5)".toList).Spelled
      ("#';'".toList ++ " ".toList ++ ',' :: (" ".toList ++ "','(R5)".toList)) :=
    .two (by decide +kernel) (by decide +kernel) (by decide +kernel) (by decide +kernel)
      (by decide +kernel) (by decide +kernel)
  have isOperator : Mnemonic.IsOperator "mov.B".toList :=
    ⟨⟨"MOV".toList, .double 0x4, true⟩, by decide +kernel, by decide, ".B".toList, by decide,
      by decide +kernel⟩
  have parts : line = "Loop".toList ++ ":".toList ++ "\t ".toList ++
      ("mov.B".toList ++ " ".toList ++
        ("#';'".toList ++ " ".toList ++ ',' :: (" ".toList ++ "','(R5)".toList))) ++
      ("\t".toList ++ ';' :: "'x EQU 5".toList) := by
    decide +kernel
  have written : statement.Written line := by
    rw [parts]
    exact .labelled ⟨by decide +kernel, by decide +kernel⟩ (.inr rfl) ⟨by decide, by decide +kernel⟩
      (.instruction isOperator ⟨by decide, by decide +kernel⟩ spelled nofun)
      (.comment (by decide +kernel) _)
  exact ⟨written, classify_written written⟩

end Msp430
