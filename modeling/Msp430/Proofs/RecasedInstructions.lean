import Msp430.Proofs.ExpressionGrammar
import Msp430.Proofs.ObjectReader
import Msp430.Proofs.StatementForms

/-! # Letter case in instructions

What is read from a text in upper case is what is read from the text, with its names
in upper case; that is so for every text without quotes, where a character stands for
itself. A resolver that ignores letter case gives both the same values, so an
instruction and its upper-case spelling are encoded alike (`encode_upper`): in what
they produce only the texts that are kept for messages and for later look-ups differ,
and these in letter case alone.
-/

namespace Msp430

/-! ### Texts without quotes -/

/-- No quotation mark of either kind. -/
def Text.Quoteless (text : Text) : Prop :=
  ∀ c ∈ text, Scan.isQuoteMark c = false

instance (text : Text) : Decidable text.Quoteless :=
  decidable_of_iff (text.all fun c => !Scan.isQuoteMark c) (by simp [Text.Quoteless])

namespace Text

/-- What is cut out of a text without quotes has none. -/
theorem Quoteless.mono {text part : Text} (quoteless : text.Quoteless) (inside : part ⊆ text) :
    part.Quoteless :=
  fun c member => quoteless c (inside member)

/-- Upper case brings in no quotes. -/
theorem Quoteless.upper {text : Text} (quoteless : text.Quoteless) : (upper text).Quoteless := by
  intro c member
  obtain ⟨old, inText, rfl⟩ := List.mem_map.mp member
  rw [Scan.isQuoteMark_toUpper]
  exact quoteless old inText

end Text

/-! ### Faults and outcomes -/

/-- The fault with the text that it shows in upper case. -/
def Fault.upper : Fault → Fault
  | duplicateSymbol name kind => duplicateSymbol (Text.upper name) kind
  | labelPosition name => labelPosition (Text.upper name)
  | labelCharacter name => labelCharacter (Text.upper name)
  | reservedLabel name => reservedLabel (Text.upper name)
  | missing part => missing part
  | malformedOperator operator => malformedOperator (Text.upper operator)
  | byteOperation operator => byteOperation (Text.upper operator)
  | unknownInstruction mnemonic => unknownInstruction (Text.upper mnemonic)
  | operandSyntax part => operandSyntax part
  | valueRange text => valueRange (Text.upper text)
  | jumpRange target => jumpRange (Text.upper target)
  | undefinedName name => undefinedName (Text.upper name)
  | unrecognized => unrecognized

namespace Outcome

variable {α β γ δ : Type}

/-- An outcome with its result changed, or with the text of its fault in upper case. -/
def upper (change : α → β) : Except Fault α → Except Fault β
  | .ok result => .ok (change result)
  | .error fault => .error fault.upper

/-- Two steps that each commute with upper case commute with it one after the other. -/
theorem upper_bind {first : Except Fault α} {next : α → Except Fault β}
    {nextUpper : γ → Except Fault δ} {change : α → γ} {changeLast : β → δ}
    (commutes : ∀ result, first = .ok result →
      nextUpper (change result) = upper changeLast (next result)) :
    (upper change first >>= nextUpper) = upper changeLast (first >>= next) := by
  cases first with
  | error fault => rfl
  | ok result => exact commutes result rfl

/-- A step that commutes with upper case on every item of a list does so over the list, up to the
first fault. -/
theorem upper_mapM {items : List α} {action : α → Except Fault β}
    {actionUpper : γ → Except Fault δ} {change : α → γ} {changeLast : β → δ}
    (commutes : ∀ item ∈ items, actionUpper (change item) = upper changeLast (action item)) :
    (items.map change).mapM actionUpper = upper (List.map changeLast) (items.mapM action) := by
  induction items with
  | nil => rfl
  | cons item rest ih =>
      obtain ⟨first, others⟩ := List.forall_mem_cons.mp commutes
      rw [List.map_cons, List.mapM_cons, List.mapM_cons, first]
      apply upper_bind
      intro result _
      rw [ih others]
      exact upper_bind fun _ _ => rfl

end Outcome

/-! ### Values -/

/-- A resolver that gives both spellings of a name one value. -/
def Resolver.Caseless (resolver : Resolver) : Prop :=
  ∀ name, resolver (Text.upper name) = resolver name

/-- Falling back on the peripheral registers keeps a resolver caseless: their names are looked up in
upper case. -/
theorem Resolver.Caseless.orPeripheral {resolver : Resolver} (caseless : resolver.Caseless) :
    resolver.orPeripheral.Caseless := by
  intro name
  rw [Resolver.orPeripheral, caseless, Peripheral.value?, Text.upper_upper]
  rfl

/-- The name in upper case. -/
def Mention.upper (mention : Mention) : Mention :=
  ⟨Text.upper mention.name, mention.sign⟩

/-- The reference with its names in upper case. -/
def Reference.upper (reference : Reference) : Reference :=
  ⟨reference.offset, reference.mentions.map Mention.upper⟩

/-- The value with its names in upper case. -/
def Value.upper : Value → Value
  | known word => known word
  | pending reference => pending reference.upper

/-- The field with its names, and the text of a jump, in upper case. -/
def Field.upper : Field → Field
  | word value => word value.upper
  | byte value => byte value.upper
  | jump condition source target text => jump condition source target.upper (Text.upper text)
  | reserve count => reserve count

@[simp] theorem Value.isPending_upper (value : Value) :
    value.upper.isPending = value.isPending := by
  cases value <;> rfl

@[simp] theorem Value.known?_upper (value : Value) : value.upper.known? = value.known? := by
  cases value <;> rfl

@[simp] theorem Field.isPending_upper (field : Field) :
    field.upper.isPending = field.isPending := by
  cases field with
  | word value => exact value.isPending_upper
  | byte value => exact value.isPending_upper
  | jump condition source target text => rfl
  | reserve count => rfl

@[simp] theorem Field.size_upper (field : Field) : field.upper.size = field.size := by
  cases field <;> rfl

/-- A field that waits for no name has no letters to change. -/
theorem Field.upper_of_ready {field : Field} (ready : field.isPending = false) :
    field.upper = field := by
  have known : ∀ {value : Value}, value.isPending = false → value.upper = value := by
    intro value settled
    cases value with
    | known word => rfl
    | pending reference => cases settled
  cases field with
  | word value => exact congrArg Field.word (known ready)
  | byte value => exact congrArg Field.byte (known ready)
  | jump condition source target text => cases ready
  | reserve count => rfl

/-- A caseless resolver adds the names of either spelling to one sum, or misses the same name. -/
theorem Reference.addMentions_upper {resolver : Resolver} (caseless : resolver.Caseless) (sum : Int)
    (mentions : List Mention) :
    addMentions resolver sum (mentions.map Mention.upper) =
      (addMentions resolver sum mentions).mapError Text.upper := by
  induction mentions generalizing sum with
  | nil => rfl
  | cons mention rest ih =>
      simp only [List.map_cons, addMentions, Mention.upper, caseless mention.name]
      cases resolver mention.name with
      | none => rfl
      | some value => exact ih _

/-- A reference has one sum in both spellings, or misses the same name. -/
theorem Reference.resolve_upper {resolver : Resolver} (caseless : resolver.Caseless)
    (reference : Reference) :
    reference.upper.resolve resolver = (reference.resolve resolver).mapError Text.upper := by
  rw [resolve, Reference.upper, addMentions_upper caseless.orPeripheral, resolve]
  cases addMentions resolver.orPeripheral reference.offset reference.mentions <;> rfl

/-- A value settles to one word in both spellings. -/
theorem Value.settle_upper {resolver : Resolver} (caseless : resolver.Caseless) (value : Value) :
    value.upper.settle resolver = Outcome.upper id (value.settle resolver) := by
  cases value with
  | known word => rfl
  | pending reference =>
      rw [Value.upper, settle, Reference.resolve_upper caseless, settle]
      cases reference.resolve resolver <;> rfl

/-- A field is resolved alike in any letter case, faults included: a value out of range is shown in
digits, which are in upper case already. -/
theorem Field.resolve_upper {resolver : Resolver} (caseless : resolver.Caseless) (field : Field) :
    field.upper.resolve resolver = Outcome.upper Field.upper (field.resolve resolver) := by
  cases field with
  | word value =>
      rw [Field.upper, resolve, Value.settle_upper caseless, resolve]
      exact Outcome.upper_bind fun _ _ => rfl
  | byte value =>
      rw [Field.upper, resolve, Value.settle_upper caseless, resolve]
      apply Outcome.upper_bind
      intro datum _
      rw [id]
      split
      case isTrue => rfl
      case isFalse => exact congrArg (Except.error ∘ Fault.valueRange) datum.upper_hex.symm
  | jump condition source target text =>
      rw [Field.upper, resolve, Reference.resolve_upper caseless, resolve]
      cases target.resolve resolver with
      | error name => rfl
      | ok reached =>
          dsimp only [Except.mapError, bind, Except.bind]
          cases Jump.encode? condition source reached <;> rfl
  | reserve count => rfl

/-! ### Expressions -/

/-- The term with its name in upper case. -/
def Term.upper : Term → Term
  | .here => .here
  | .literal word => .literal word
  | .name text => .name (Text.upper text)

/-- The term with its name in upper case, under its sign. -/
def SignedTerm.upper (signed : SignedTerm) : SignedTerm :=
  ⟨signed.sign, signed.term.upper⟩

/-- The expression with its names in upper case. -/
def Expr.upper (expr : Expr) : Expr :=
  expr.map SignedTerm.upper

/-- A term without quotes is read alike in any letter case. -/
theorem Term.read?_upper {text : Text} (quoteless : text.Quoteless) :
    read? (Text.upper text) = (read? text).map Term.upper := by
  cases text with
  | nil => rfl
  | cons first rest =>
      by_cases dollar : first :: rest = ['$']
      · rw [dollar]
        rfl
      have noDollar : Text.upper (first :: rest) ≠ ['$'] := by
        intro same
        obtain ⟨isDollar, nothing⟩ := List.cons.inj same
        rw [(toUpper_eq_iff rfl first).mp isDollar, List.map_eq_nil_iff.mp nothing] at dollar
        exact dollar rfl
      have unquoted : first ≠ '\'' := by
        rintro rfl
        exact absurd (quoteless _ List.mem_cons_self) (by decide)
      have unquotedUpper : first.toUpper ≠ '\'' :=
        fun same => unquoted ((toUpper_eq_iff rfl first).mp same)
      rw [Text.upper_cons] at noDollar ⊢
      rw [read?, if_neg noDollar, character?_eq_none unquotedUpper, read?, if_neg dollar,
        character?_eq_none unquoted]
      dsimp only
      rw [isDigit_toUpper, beq_toUpper rfl, ← Text.upper_cons, Numeral.read?_upper,
        Text.isIdentifier_upper]
      split
      case isTrue => cases Numeral.read? (first :: rest) <;> rfl
      case isFalse => split <;> rfl

namespace Expr

theorem sign?_toUpper (c : Char) : sign? c.toUpper = sign? c := by
  rw [sign?, beq_toUpper rfl, beq_toUpper rfl, sign?]

/-- Cutting the first term off a text can be done before or after the change to upper case. -/
theorem cutTerm_upper (text : Text) :
    cutTerm (Text.upper text) = (Text.upper (cutTerm text).1, Text.upper (cutTerm text).2) := by
  have plain : ∀ c : Char, isPlain c.toUpper = isPlain c := by
    intro c
    rw [isPlain, sign?_toUpper, isPlain]
  have taken : ∀ count (part : Text), (Text.upper part).take count = Text.upper (part.take count) :=
    fun _ _ => List.map_take.symm
  have dropped : ∀ count (part : Text),
      (Text.upper part).drop count = Text.upper (part.drop count) :=
    fun _ _ => List.map_drop.symm
  have cut := fun part => Text.span_upper plain part
  simp only [cutTerm, Text.trimStart_upper, @Text.head?_upper_eq_some_iff '\'' rfl, taken, dropped,
    (cut _).1, (cut _).2, Text.upper_append]

/-- The first term and the text behind it bring in no characters. -/
theorem cutTerm_subset (text : Text) : (cutTerm text).1 ⊆ text ∧ (cutTerm text).2 ⊆ text := by
  obtain ⟨left, _, whole, _⟩ := exists_cutTerm text
  constructor <;> intro c member <;> rw [whole] <;> simp [member]

/-- The terms of a text without quotes are read alike in any letter case. -/
theorem readTerms?_upper {sign : Sign} {text : Text} (quoteless : text.Quoteless) :
    readTerms? sign (Text.upper text) = (readTerms? sign text).map upper := by
  have term : ∀ {part : Text}, part.Quoteless →
      Term.read? (Text.trim (cutTerm (Text.upper part)).1) =
        (Term.read? (Text.trim (cutTerm part).1)).map Term.upper := by
    intro part quoteless
    rw [cutTerm_upper, Text.trim_upper]
    exact Term.read?_upper
      (quoteless.mono (List.Subset.trans (Text.trim_subset _) (cutTerm_subset part).1))
  fun_induction readTerms? sign text with
  | case1 sign text failed =>
      have failedUpper := term quoteless
      rw [failed, Option.map_none] at failedUpper
      rw [readTerms?, failedUpper]
      rfl
  | case2 sign text read found cut =>
      have foundUpper := term quoteless
      rw [found, Option.map_some] at foundUpper
      exact readTerms?_of_nil sign foundUpper (by rw [cutTerm_upper, cut]; rfl)
  | case3 sign text read found mark rest cut shorter ih =>
      have foundUpper := term quoteless
      rw [found, Option.map_some] at foundUpper
      have inside : rest ⊆ text := by
        refine List.Subset.trans ?_ (cutTerm_subset text).2
        rw [cut]
        exact List.subset_cons_self mark rest
      have cutUpper : (cutTerm (Text.upper text)).2 = mark.toUpper :: Text.upper rest := by
        rw [cutTerm_upper, cut]
        rfl
      rw [readTerms?_of_cons sign foundUpper cutUpper, sign?_toUpper, ih (quoteless.mono inside)]
      cases readTerms? ((sign? mark).getD .plus) rest <;> rfl

/-- An expression without quotes is read alike in any letter case. -/
theorem read?_upper {text : Text} (quoteless : text.Quoteless) :
    read? (Text.upper text) = (read? text).map upper := by
  have trimmed : (Text.trim text).Quoteless := quoteless.mono (Text.trim_subset text)
  rw [read?, Text.trim_upper, read?]
  cases shape : Text.trim text with
  | nil => rfl
  | cons first rest =>
      rw [shape] at trimmed
      rw [Text.upper_cons]
      dsimp only
      rw [sign?_toUpper]
      cases sign? first with
      | some sign => exact readTerms?_upper (trimmed.mono (List.subset_cons_self first rest))
      | none => exact readTerms?_upper trimmed

variable {resolver : Resolver} (caseless : resolver.Caseless)

include caseless

/-- The known part of an expression is one number in both spellings. -/
theorem offset_upper (here : Word) (expr : Expr) :
    expr.upper.offset here resolver = expr.offset here resolver := by
  rw [offset_eq_sum, offset_eq_sum, upper, List.map_map]
  congr 1
  apply List.map_congr_left
  rintro ⟨sign, term⟩ _
  cases term with
  | here => rfl
  | literal word => rfl
  | name text =>
      simp only [Function.comp_apply, SignedTerm.upper, Term.upper, SignedTerm.contribution,
        Term.word?, caseless text]

/-- An expression waits for the same names in both spellings. -/
theorem unresolved_upper (expr : Expr) :
    expr.upper.unresolved resolver = (expr.unresolved resolver).map Mention.upper := by
  rw [unresolved, upper, List.filterMap_map, unresolved, List.map_filterMap]
  apply List.filterMap_congr
  rintro ⟨sign, term⟩ _
  cases term with
  | here => rfl
  | literal word => rfl
  | name text =>
      simp only [Function.comp_apply, SignedTerm.upper, Term.upper, caseless text]
      cases resolver text <;> rfl

/-- An expression has one value in both spellings, up to the letter case of the names in it. -/
theorem value_upper (here : Word) (expr : Expr) :
    expr.upper.value here resolver = (expr.value here resolver).upper := by
  rw [value, unresolved_upper caseless, offset_upper caseless, value]
  cases expr.unresolved resolver <;> rfl

/-- A text without quotes is evaluated alike in any letter case. -/
theorem evaluate_upper {text : Text} (quoteless : text.Quoteless) (here : Word) :
    evaluate (Text.upper text) here resolver =
      Outcome.upper Value.upper (evaluate text here resolver) := by
  rw [evaluate, read?_upper quoteless, evaluate]
  cases read? text with
  | none => rfl
  | some expr => exact congrArg Except.ok (value_upper caseless here expr)

end Expr

/-! ### Operands -/

namespace Operand

/-- Cutting an operand into offset and base can be done before or after the change to upper case. -/
theorem cutIndex?_upper (text : Text) :
    cutIndex? (Text.upper text) =
      (cutIndex? text).map fun cut => (Text.upper cut.1, Text.upper cut.2) := by
  have contains : ∀ part : Text, (Text.upper part).contains ')' = part.contains ')' := by
    intro part
    rw [Bool.eq_iff_iff, List.contains_iff_mem, List.contains_iff_mem, Text.upper, List.mem_map]
    simp only [@toUpper_eq_iff ')' rfl, exists_eq_right]
  have closed : ∀ part : Text, ((Text.upper part).getLast? == some ')') =
      (part.getLast? == some ')') := by
    intro part
    rw [Bool.eq_iff_iff, beq_iff_eq, beq_iff_eq, Text.getLast?_upper_eq_some_iff rfl]
  rw [cutIndex?, (Text.cutAt_upper rfl text).1, (Text.cutAt_upper rfl text).2, cutIndex?]
  cases text.dropWhile (· != '(') with
  | nil => rfl
  | cons mark rest =>
      rw [Text.upper_cons]
      dsimp only
      rw [Text.isEmpty_upper, contains, closed, Text.upper_dropLast]
      split <;> rfl

/-- The offset of an indexed operand brings in no characters. -/
theorem cutIndex?_subset {text offset base : Text} (cut : cutIndex? text = some (offset, base)) :
    offset ⊆ text := by
  unfold cutIndex? at cut
  dsimp only at cut
  split at cut
  case h_1 => cases cut
  case h_2 =>
    split at cut
    case isTrue =>
      cases cut
      exact (List.takeWhile_prefix _).subset
    case isFalse => cases cut

/-- Behind an at sign there are only the names of registers, which are read in any letter case. -/
theorem readIndirect?_upper (text : Text) :
    readIndirect? (Text.upper text) = (readIndirect? text : Option (Operand Expr)) := by
  rw [readIndirect?, Register.ofWord?_upper, readIndirect?]
  simp only [@Text.getLast?_upper_eq_some_iff '+' rfl, Text.upper_dropLast,
    Register.ofWord?_upper]

/-- An indirect operand has no expression to change. -/
theorem map_upper_of_readIndirect? {text : Text} {operand : Operand Expr}
    (read : readIndirect? text = some operand) : operand.map Expr.upper = operand := by
  unfold readIndirect? at read
  split at read
  case h_1 =>
    cases read
    rfl
  case h_2 =>
    split at read
    case isTrue =>
      obtain ⟨base, _, rfl⟩ := Option.map_eq_some_iff.mp read
      rfl
    case isFalse => cases read

/-- An operand without a mark, an index or a register is a name. -/
theorem read?_of_unmarked {text : Text} (noRegister : Register.ofWord? (Text.trim text) = none)
    (noIndex : cutIndex? (Text.trim text) = none)
    (unmarked : ∀ mark ∈ ['@', '&', '#'], (Text.trim text).head? ≠ some mark) :
    read? text =
      if Text.isIdentifier (Text.trim text) then (Expr.read? (Text.trim text)).map symbolic
      else none := by
  unfold read?
  dsimp only
  rw [noRegister]
  dsimp only
  rw [noIndex]
  dsimp only
  split
  case h_1 starts => exact (unmarked '@' (by simp) (by rw [starts]; rfl)).elim
  case h_2 starts => exact (unmarked '&' (by simp) (by rw [starts]; rfl)).elim
  case h_3 starts => exact (unmarked '#' (by simp) (by rw [starts]; rfl)).elim
  case h_4 => rfl

/-- An operand without quotes is read alike in any letter case. -/
theorem read?_upper {text : Text} (quoteless : text.Quoteless) :
    read? (Text.upper text) = (read? text).map (map Expr.upper) := by
  have trimmed : (Text.trim text).Quoteless := quoteless.mono (Text.trim_subset text)
  have trimUpper := Text.trim_upper text
  have registerUpper := Register.ofWord?_upper (Text.trim text)
  have cutUpper := cutIndex?_upper (Text.trim text)
  rw [← trimUpper] at registerUpper cutUpper
  have inner : ∀ {mark : Char} {rest : Text}, Text.trim text = mark :: rest → rest.Quoteless := by
    intro mark rest shape
    rw [shape] at trimmed
    exact trimmed.mono (List.subset_cons_self mark rest)
  cases register : Register.ofWord? (Text.trim text) with
  | some base =>
      simp only [read?, registerUpper, register]
      rfl
  | none =>
      rw [register] at registerUpper
      cases cut : cutIndex? (Text.trim text) with
      | some parts =>
          obtain ⟨offset, base⟩ := parts
          have unquoted := trimmed.mono (cutIndex?_subset cut)
          simp only [read?, registerUpper, register, cutUpper, cut, Option.map_some,
            Expr.read?_upper unquoted, Register.read?_upper]
          cases Expr.read? offset with
          | none => rfl
          | some offset => cases Register.read? base <;> rfl
      | none =>
          rw [cut, Option.map_none] at cutUpper
          -- The marks are no letters, so both spellings are read by the same branch.
          by_cases unmarked : ∀ mark ∈ ['@', '&', '#'], (Text.trim text).head? ≠ some mark
          · have unmarkedUpper : ∀ mark ∈ ['@', '&', '#'],
                (Text.trim (Text.upper text)).head? ≠ some mark := by
              intro mark member same
              have plain : mark.isAlpha = false := by
                simp only [List.mem_cons, List.not_mem_nil, or_false] at member
                rcases member with rfl | rfl | rfl <;> rfl
              rw [trimUpper, Text.head?_upper_eq_some_iff plain] at same
              exact unmarked mark member same
            rw [read?_of_unmarked registerUpper cutUpper unmarkedUpper,
              read?_of_unmarked register cut unmarked, trimUpper, Text.isIdentifier_upper,
              Expr.read?_upper trimmed]
            split
            case isTrue => cases Expr.read? (Text.trim text) <;> rfl
            case isFalse => rfl
          · push Not at unmarked
            obtain ⟨mark, member, marked⟩ := unmarked
            obtain ⟨rest, shape⟩ := List.head?_eq_some_iff.mp marked
            have shapeUpper : Text.trim (Text.upper text) = mark.toUpper :: Text.upper rest := by
              rw [trimUpper, shape, Text.upper_cons]
            simp only [List.mem_cons, List.not_mem_nil, or_false] at member
            simp only [read?, registerUpper, register, cutUpper, cut]
            rw [shape, shapeUpper]
            rcases member with rfl | rfl | rfl
            · change readIndirect? (Text.upper rest) = (readIndirect? rest).map (map Expr.upper)
              rw [readIndirect?_upper]
              cases read : readIndirect? rest with
              | none => rfl
              | some operand => rw [Option.map_some, map_upper_of_readIndirect? read]
            · change (Expr.read? (Text.upper rest)).map absolute =
                ((Expr.read? rest).map absolute).map (map Expr.upper)
              rw [Expr.read?_upper (inner shape)]
              cases Expr.read? rest <;> rfl
            · change (Expr.read? (Text.upper rest)).map immediate =
                ((Expr.read? rest).map immediate).map (map Expr.upper)
              rw [Expr.read?_upper (inner shape)]
              cases Expr.read? rest <;> rfl

/-- A source without quotes is read alike in any letter case. -/
theorem readSource_upper {text : Text} (quoteless : text.Quoteless) :
    readSource (Text.upper text) = Outcome.upper (map Expr.upper) (readSource text) := by
  rw [readSource, read?_upper quoteless, readSource]
  cases read? text <;> rfl

/-- Whether an operand can be a destination does not depend on the expression in it. -/
theorem destinationMode?_map (change : Expr → Expr) (operand : Operand Expr) :
    (operand.map change).destinationMode? = operand.destinationMode? := by
  cases operand <;> rfl

/-- A destination without quotes is read alike in any letter case. -/
theorem readDestination_upper {text : Text} (quoteless : text.Quoteless) :
    readDestination (Text.upper text) = Outcome.upper (map Expr.upper) (readDestination text) := by
  rw [readDestination, read?_upper quoteless, readDestination]
  cases read? text with
  | none => rfl
  | some operand =>
      rw [Option.map_some, Option.filter_some, Option.filter_some, destinationMode?_map]
      by_cases allowed : operand.destinationMode?.isSome
      · rw [if_pos allowed, if_pos allowed]
        rfl
      · rw [if_neg allowed, if_neg allowed]
        rfl

end Operand

/-! ### Instructions -/

/-- The operand texts in upper case. -/
def Operands.upper : Operands → Operands
  | none => none
  | one text => one (Text.upper text)
  | two source destination => two (Text.upper source) (Text.upper destination)

/-- The operator with its letters in upper case. -/
def Operator.upper (operator : Operator) : Operator :=
  ⟨Text.upper operator.letters, operator.isByte⟩

/-- The source with the names of its extension word in upper case. -/
def Source.upper (source : Source) : Source :=
  ⟨source.register, source.mode, source.extension?.map Expr.upper⟩

/-- The instruction with its names, and the text of a jump, in upper case. -/
def Image.upper : Image → Image
  | words first extensions => words first (extensions.map Expr.upper)
  | jump condition target text => jump condition target.upper (Text.upper text)

/-- The letters of an operator and its size are cut apart alike in any letter case. -/
theorem Operator.read?_upper (text : Text) :
    read? (Text.upper text) = (read? text).map Operator.upper := by
  have alpha : ∀ part : Text, (Text.upper part).all Char.isAlpha = part.all Char.isAlpha := by
    intro part
    rw [Text.upper, List.all_map]
    simp only [Function.comp_def, Char.isAlpha_toUpper_eq_isAlpha]
  rw [read?, (Text.cutAt_upper rfl text).1, (Text.cutAt_upper rfl text).2, read?]
  simp only [alpha, Text.length_upper]
  split
  case isFalse => rfl
  case isTrue =>
    rcases text.dropWhile (· != '.') with _ | ⟨point, _ | ⟨size, _ | ⟨next, rest⟩⟩⟩
    · rfl
    · rfl
    · rw [Text.upper_cons, Text.upper_cons]
      change (if size.toUpper == 'B' || size.toUpper == 'b' then _ else
        if size.toUpper == 'W' || size.toUpper == 'w' then _ else _) = _
      rw [beq_letter_toUpper (by decide), beq_letter_toUpper (by decide)]
      dsimp only
      split
      case isTrue => rfl
      case isFalse => split <;> rfl
    · rfl

/-- Whether there is exactly one operand, and what is wrong otherwise, does not depend on its text. -/
theorem Operands.only_upper (role : Part) (operands : Operands) :
    operands.upper.only role = Outcome.upper Text.upper (operands.only role) := by
  cases operands <;> rfl

/-- The only operand is one of the operands. -/
theorem Operands.mem_texts_of_only {role : Part} {operands : Operands} {text : Text}
    (only : operands.only role = .ok text) : text ∈ operands.texts := by
  cases operands with
  | none => cases only
  | one text =>
      cases only
      exact List.mem_singleton_self _
  | two source destination => cases only

/-- The source of an operand in upper case is the source in upper case. -/
theorem Source.ofOperand_upper (operand : Operand Expr) :
    ofOperand (operand.map Expr.upper) = (ofOperand operand).upper := by
  cases operand <;> rfl

/-- An implied source has no names but those of the destination. -/
theorem Source.ofImplied_upper (destination : Operand Expr) (implied : Implied) :
    ofImplied (destination.map Expr.upper) implied = (ofImplied destination implied).upper := by
  cases implied with
  | constant register mode => rfl
  | destination => exact ofOperand_upper destination
  | popStack => rfl

namespace Image

/-- The extension words of a two-operand instruction keep their places in upper case. -/
theorem double_upper (opcode : BitVec 4) (size : BitVec 1) (source : Source)
    (destination : Operand Expr) :
    double opcode size source.upper (destination.map Expr.upper) =
      (double opcode size source destination).upper := by
  obtain ⟨register, mode, extension?⟩ := source
  cases extension? <;> cases destination <;> rfl

/-- The extension word of a one-operand instruction keeps its place in upper case. -/
theorem single_upper (opcode : BitVec 3) (size : BitVec 1) (source : Source) :
    single opcode size source.upper = (single opcode size source).upper := by
  obtain ⟨register, mode, extension?⟩ := source
  cases extension? <;> rfl

/-- Operands without quotes fit a format alike in any letter case, with the same faults. -/
theorem ofFormat_upper (size : BitVec 1) {operands : Operands}
    (quoteless : ∀ text ∈ operands.texts, text.Quoteless) (format : Format) :
    ofFormat size operands.upper format =
      Outcome.upper Image.upper (ofFormat size operands format) := by
  have only : ∀ {role : Part} {text : Text}, operands.only role = .ok text → text.Quoteless :=
    fun taken => quoteless _ (Operands.mem_texts_of_only taken)
  cases format with
  | double opcode =>
      cases operands with
      | none => rfl
      | one text => rfl
      | two source destination =>
          have first := quoteless source (by simp [Operands.texts])
          have second := quoteless destination (by simp [Operands.texts])
          simp only [ofFormat, Operands.upper]
          rw [Operand.readSource_upper first]
          apply Outcome.upper_bind
          intro source _
          rw [Operand.readDestination_upper second]
          apply Outcome.upper_bind
          intro destination _
          rw [Source.ofOperand_upper, double_upper]
          rfl
  | emulated opcode implied =>
      simp only [ofFormat]
      rw [Operands.only_upper]
      apply Outcome.upper_bind
      intro text taken
      rw [Operand.readDestination_upper (only taken)]
      apply Outcome.upper_bind
      intro destination _
      rw [Source.ofImplied_upper, double_upper]
      rfl
  | branch =>
      simp only [ofFormat]
      rw [Operands.only_upper]
      apply Outcome.upper_bind
      intro text taken
      rw [Operand.readSource_upper (only taken)]
      apply Outcome.upper_bind
      intro source _
      rw [Source.ofOperand_upper]
      exact congrArg Except.ok (double_upper _ _ _ (.register Register.pc))
  | single opcode =>
      simp only [ofFormat]
      rw [Operands.only_upper]
      apply Outcome.upper_bind
      intro text taken
      rw [Operand.readSource_upper (only taken)]
      apply Outcome.upper_bind
      intro source _
      rw [Source.ofOperand_upper, single_upper]
      rfl
  | jump condition =>
      simp only [ofFormat]
      rw [Operands.only_upper]
      apply Outcome.upper_bind
      intro text taken
      rw [Text.trim_upper, Expr.read?_upper ((only taken).mono (Text.trim_subset text))]
      cases Expr.read? (Text.trim text) <;> rfl
  | fixed word => rfl
  | directive => rfl

/-- An instruction whose operands have no quotes is read alike in any letter case. -/
theorem read_upper (operator : Text) {operands : Operands}
    (quoteless : ∀ text ∈ operands.texts, text.Quoteless) :
    read (Text.upper operator) operands.upper =
      Outcome.upper Image.upper (read operator operands) := by
  rw [read, Operator.read?_upper, read]
  cases Operator.read? operator with
  | none => rfl
  | some parsed =>
      obtain ⟨letters, isByte⟩ := parsed
      dsimp only [Option.map_some, Operator.upper]
      rw [Mnemonic.find?_upper]
      cases Mnemonic.find? letters with
      | none => rfl
      | some mnemonic =>
          dsimp only
          split
          case isTrue => rfl
          case isFalse => exact ofFormat_upper _ quoteless mnemonic.format

/-- The fields of an instruction are the same in both spellings, up to the letter case of the names
in them. -/
theorem fields_upper {resolver : Resolver} (caseless : resolver.Caseless) (address : Word)
    (image : Image) :
    image.upper.fields address resolver =
      Outcome.upper (List.map Field.upper) (image.fields address resolver) := by
  cases image with
  | words first extensions =>
      simp only [Image.upper, fields, Outcome.upper, List.map_cons, List.map_map, Except.ok.injEq,
        List.cons.injEq]
      refine ⟨rfl, List.map_congr_left fun extension _ => ?_⟩
      exact congrArg Field.word (Expr.value_upper caseless address extension)
  | jump condition target text =>
      simp only [Image.upper, fields]
      rw [Expr.value_upper caseless]
      cases target.value address resolver with
      | known target =>
          dsimp only [Value.upper]
          cases Jump.encode? condition address target <;> rfl
      | pending reference => rfl

end Image

/-- **Instructions are encoded alike in any letter case.** -/
theorem encode_upper {resolver : Resolver} (caseless : resolver.Caseless) (operator : Text)
    {operands : Operands} (quoteless : ∀ text ∈ operands.texts, text.Quoteless) (address : Word) :
    encode (Text.upper operator) operands.upper address resolver =
      Outcome.upper (List.map Field.upper) (encode operator operands address resolver) := by
  rw [encode, Image.read_upper operator quoteless, encode]
  exact Outcome.upper_bind fun image _ => image.fields_upper caseless address

end Msp430
