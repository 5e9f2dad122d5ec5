import Msp430.Proofs.ExpressionEnds
import Msp430.Proofs.LayoutRun
import Msp430.Proofs.WrittenStatements

/-! # Lists of words

A line that stores words has expressions with commas between them and perhaps a
comment behind them. Three readers pass over it: the comment is cut off, the rest is
cut at its commas, and each part is read as an expression. The first two count quotes
and know nothing of expressions; a list that they cut where it is meant to be cut is
legible (`Scan.Legible`). A list of expressions is legible exactly if all that it is
cut into can be read (`Scan.legible_iff`), since no other cut leaves expressions. So a
legible list is stored with one word for each expression, and any other is refused
(`Layout.step_wordList`). Lists in which no apostrophe is quoted are legible
(`Scan.legible_of_padded`).
-/

namespace Msp430

namespace Scan

variable {open? : Option Char} {depth : Int} {text comment left right : Text} {parts : List Text}

/-! ### Where a scan stops -/

/-- A comment begins at a semicolon outside quotes, and there is none in front of it. -/
theorem exists_cutComment (open? : Option Char) (text : Text) :
    ∃ tail, text = cutComment open? text ++ tail ∧ Uncommented open? (cutComment open? text) ∧
      (tail = [] ∨ tail.head? = some ';' ∧ quoteOver open? (cutComment open? text) = none) := by
  induction text generalizing open? with
  | nil => exact ⟨[], rfl, cutComment_eq_self_iff.mp rfl, .inl rfl⟩
  | cons c rest ih =>
      rw [cutComment]
      split
      case isTrue stops =>
        rw [Bool.and_eq_true, Option.isNone_iff_eq_none, beq_iff_eq] at stops
        obtain ⟨rfl, rfl⟩ := stops
        exact ⟨';' :: rest, rfl, cutComment_eq_self_iff.mp rfl, .inr ⟨rfl, rfl⟩⟩
      case isFalse goesOn =>
        obtain ⟨tail, whole, uncommented, ends⟩ := ih (quoteAfter open? c)
        exact ⟨tail, congrArg (c :: ·) whole, uncommented_cons.mpr ⟨goesOn, uncommented⟩, ends⟩

theorem cutList_ne_nil (open? : Option Char) (depth : Int) (text : Text) :
    cutList open? depth text ≠ [] := by
  cases text with
  | nil => exact List.cons_ne_nil _ _
  | cons c rest =>
      rw [cutList]
      split
      · exact List.cons_ne_nil _ _
      · cases cutList (quoteAfter open? c) (depthAfter open? depth c) rest <;>
          exact List.cons_ne_nil _ _

/-- The first part of a list is all of it, or ends at a comma outside quotes and parentheses. -/
theorem cutList_cases {first : Text} {others : List Text}
    (cut : cutList open? depth text = first :: others) :
    Undivided open? depth first ∧
      (text = first ∧ others = [] ∨
        ∃ rest, text = first ++ ',' :: rest ∧ others = cutList none 0 rest ∧
          quoteOver open? first = none ∧ depthOver open? depth first = 0) := by
  induction text generalizing open? depth first with
  | nil =>
      cases cut
      exact ⟨fun _ _ split => by simp at split, .inl ⟨rfl, rfl⟩⟩
  | cons c rest ih =>
      rw [cutList] at cut
      split at cut
      case isTrue stops =>
        simp only [Bool.and_eq_true, Option.isNone_iff_eq_none, beq_iff_eq] at stops
        obtain ⟨⟨rfl, rfl⟩, rfl⟩ := stops
        cases cut
        exact ⟨fun _ _ split => by simp at split, .inr ⟨rest, rfl, rfl, rfl, rfl⟩⟩
      case isFalse goesOn =>
        obtain ⟨part, parts, later⟩ := List.exists_cons_of_ne_nil
          (cutList_ne_nil (quoteAfter open? c) (depthAfter open? depth c) rest)
        rw [later] at cut
        cases cut
        obtain ⟨undivided, ends⟩ := ih later
        refine ⟨undivided_cons.mpr ⟨goesOn, undivided⟩, ?_⟩
        rcases ends with ⟨rfl, nothing⟩ | ⟨tail, rfl, others, closed, level⟩
        · exact .inl ⟨rfl, nothing⟩
        · exact .inr ⟨tail, rfl, others, closed, level⟩

theorem undivided_of_blanks (blank : Text.Blanks text) : Undivided open? depth text := by
  rintro before after rfl
  exact absurd (blank ',' (by simp)) (by decide)

/-- Blanks behind a list belong to its last part. -/
theorem exists_cutList_append (blank : Text.Blanks right) (open? : Option Char) (depth : Int)
    (text : Text) : ∃ front last, cutList open? depth text = front ++ [last] ∧
      cutList open? depth (text ++ right) = front ++ [last ++ right] := by
  induction text generalizing open? depth with
  | nil =>
      have undivided : Undivided open? depth right := undivided_of_blanks blank
      have whole : cutList open? depth (right ++ []) = [right ++ []] := cutList_append undivided rfl
      rw [List.append_nil] at whole
      exact ⟨[], [], rfl, whole⟩
  | cons c rest ih =>
      rw [List.cons_append, cutList, cutList]
      split
      case isTrue =>
        obtain ⟨front, last, whole, padded⟩ := ih none 0
        exact ⟨[] :: front, last, by rw [whole]; rfl, by rw [padded]; rfl⟩
      case isFalse =>
        obtain ⟨front, last, whole, padded⟩ := ih (quoteAfter open? c) (depthAfter open? depth c)
        rw [whole, padded]
        cases front with
        | nil => exact ⟨[], c :: last, rfl, rfl⟩
        | cons first others => exact ⟨(c :: first) :: others, last, rfl, rfl⟩

/-- Blanks around a list do not matter to its parts. -/
theorem splitList_trim (text : Text) : splitList (Text.trim text) = splitList text := by
  obtain ⟨left, right, leftBlank, rightBlank, whole⟩ := Text.exists_trim text
  generalize Text.trim text = word at whole
  subst whole
  obtain ⟨front, last, cut, padded⟩ := exists_cutList_append rightBlank none 0 word
  have behind : splitList (word ++ right) = splitList word := by
    have trimmed := Text.trim_padded Text.Blanks.nil rightBlank last
    rw [splitList, splitList, cut, padded, List.map_append, List.map_append]
    simpa using trimmed
  obtain ⟨first, others, cut⟩ := List.exists_cons_of_ne_nil (cutList_ne_nil none 0 (word ++ right))
  have neutral := over_of_isNeutral (isNeutral_of_blanks leftBlank) 0
  have kept : cutList none 0 (left ++ (word ++ right)) = (left ++ first) :: others :=
    cutList_append (undivided_of_blanks leftBlank) (by rw [neutral.1, neutral.2]; exact cut)
  have trimmed := Text.trim_padded leftBlank Text.Blanks.nil first
  rw [List.append_nil] at trimmed
  rw [← behind, List.append_assoc, splitList, splitList, kept, cut, List.map_cons, List.map_cons,
    trimmed]

/-! ### Legible lists -/

/-- The parts of a list that a scan cuts where they end: all but the last are closed in front of
their commas, and the last one is closed in front of a comment. -/
def Legible (comment : Text) : List Text → Prop
  | [] => True
  | [last] => Uncommented none last ∧ Undivided none 0 last ∧
      (comment = [] ∨ quoteOver none last = none)
  | part :: next :: others => IsCode part ∧ IsItem part ∧ Legible comment (next :: others)

instance decidableLegible (comment : Text) : ∀ parts, Decidable (Legible comment parts)
  | [] => isTrue trivial
  | [last] => inferInstanceAs (Decidable (Uncommented none last ∧ Undivided none 0 last ∧
      (comment = [] ∨ quoteOver none last = none)))
  | part :: next :: others =>
    have := decidableLegible comment (next :: others)
    inferInstanceAs (Decidable (IsCode part ∧ IsItem part ∧ Legible comment (next :: others)))

/-- The parts with commas between them. -/
def joinList (parts : List Text) : Text :=
  [','].intercalate parts

theorem joinList_cons_append (part next : Text) (others : List Text) (rest : Text) :
    joinList (part :: next :: others) ++ rest =
      part ++ ',' :: (joinList (next :: others) ++ rest) := by
  simp [joinList, List.intercalate_cons_cons]

/-- What the scans make of a list and the comment behind it. -/
def cuts (comment : Text) (parts : List Text) : List Text :=
  cutList none 0 (cutComment none (joinList parts ++ comment))

theorem cutComment_code (code : IsCode text) (rest : Text) :
    cutComment none (text ++ ',' :: rest) = text ++ ',' :: cutComment none rest := by
  rw [cutComment_append code.uncommented, code.closed]
  rfl

theorem cuts_cons {part next : Text} {others : List Text} (code : IsCode part)
    (item : IsItem part) :
    cuts comment (part :: next :: others) = part :: cuts comment (next :: others) := by
  rw [cuts, joinList_cons_append, cutComment_code code, item.cutList_append]
  rfl

/-- A legible list is cut into its parts. -/
theorem Legible.cuts_eq (legible : Legible comment parts) (nonempty : parts ≠ [])
    (trails : ∀ c ∈ comment.head?, c = ';') : cuts comment parts = parts := by
  induction parts with
  | nil => exact absurd rfl nonempty
  | cons part others ih =>
      cases others with
      | nil =>
          obtain ⟨uncommented, undivided, ends⟩ := legible
          have stops : cutComment (quoteOver none part) comment = [] := by
            cases comment with
            | nil => rfl
            | cons c rest =>
                obtain rfl := trails c rfl
                rw [ends.resolve_left (List.cons_ne_nil _ _)]
                rfl
          rw [cuts, joinList, List.intercalate_singleton, cutComment_append uncommented, stops,
            List.append_nil, cutList_undivided undivided]
      | cons next others =>
          obtain ⟨code, item, later⟩ := legible
          rw [cuts_cons code item, ih later (List.cons_ne_nil _ _)]

/-- If the first cut of a text that begins with an expression is an expression, it is that one. -/
theorem scanned_of_cut {part back : Text} {expr : Expr} (read : Expr.read? part = some expr)
    (ends : ∀ c ∈ back.head?, Expr.isForeign c = true)
    (readable : ∀ cut ∈ cutList none 0 (cutComment none (part ++ back)),
      (Expr.read? cut).isSome = true) :
    Uncommented none part ∧ Undivided none 0 part ∧
      ((back = [] ∨ back.head? = some ';' ∧ quoteOver none part = none) ∨
        back.head? = some ',' ∧ quoteOver none part = none ∧ depthOver none 0 part = 0) := by
  obtain ⟨tail, whole, uncommented, stops⟩ := exists_cutComment none (part ++ back)
  generalize cutComment none (part ++ back) = code at readable whole uncommented stops
  obtain ⟨first, others, cut⟩ := List.exists_cons_of_ne_nil (cutList_ne_nil none 0 code)
  obtain ⟨undivided, divides⟩ := cutList_cases cut
  obtain ⟨other, otherRead⟩ := Option.isSome_iff_exists.mp (readable first (by simp [cut]))
  -- The cut ends at a comma or a semicolon, or where the text ends, and so does the expression.
  rcases divides with ⟨rfl, _⟩ | ⟨rest, rfl, _, closed, level⟩
  · have tailEnds : ∀ c ∈ tail.head?, Expr.isForeign c = true := by
      rcases stops with rfl | ⟨semicolon, _⟩
      · nofun
      · rw [semicolon]
        rintro _ ⟨⟩
        decide
    obtain ⟨rfl, rfl⟩ := Expr.eq_of_read?_of_append_eq read otherRead ends tailEnds whole
    exact ⟨uncommented, undivided, .inl stops⟩
  · rw [List.append_assoc, List.cons_append] at whole
    obtain ⟨rfl, rfl⟩ := Expr.eq_of_read?_of_append_eq read otherRead ends
      (by rintro _ ⟨⟩; decide) whole
    refine ⟨?_, undivided, .inr ⟨rfl, closed, level⟩⟩
    rintro before after rfl
    exact uncommented before (after ++ ',' :: rest) (by simp)

/-- **A list of expressions is legible exactly if it is cut into expressions.** -/
theorem legible_iff (trails : ∀ c ∈ comment.head?, c = ';') (nonempty : parts ≠ [])
    (readable : ∀ part ∈ parts, (Expr.read? part).isSome = true) :
    Legible comment parts ↔ ∀ cut ∈ cuts comment parts, (Expr.read? cut).isSome = true := by
  constructor
  · intro legible
    rw [legible.cuts_eq nonempty trails]
    exact readable
  · intro cutReadable
    induction parts with
    | nil => trivial
    | cons part others ih =>
        obtain ⟨first, later⟩ := List.forall_mem_cons.mp readable
        obtain ⟨expr, read⟩ := Option.isSome_iff_exists.mp first
        cases others with
        | nil =>
            have ends : ∀ c ∈ comment.head?, Expr.isForeign c = true := by
              intro c first
              rw [trails c first]
              decide
            rw [cuts, joinList, List.intercalate_singleton] at cutReadable
            obtain ⟨uncommented, undivided, closed | ⟨comma, _⟩⟩ :=
              scanned_of_cut read ends cutReadable
            · exact ⟨uncommented, undivided, closed.imp_right And.right⟩
            · exact absurd (trails ',' comma) (by decide)
        | cons next others =>
            have scanned := cutReadable
            rw [cuts, joinList_cons_append] at scanned
            obtain ⟨uncommented, undivided, (⟨⟨⟩⟩ | ⟨⟨⟩, _⟩) | ⟨_, closed, level⟩⟩ :=
              scanned_of_cut read (by rintro _ ⟨⟩; decide) scanned
            have code : IsCode part := ⟨closed, uncommented⟩
            have item : IsItem part := ⟨closed, level, undivided⟩
            rw [cuts_cons code item, List.forall_mem_cons] at cutReadable
            exact ⟨code, item, ih (List.cons_ne_nil _ _) later cutReadable.2⟩

/-- Parts that are closed and hide their marks are legible in front of any comment. -/
theorem legible_of_scanned (scanned : ∀ part ∈ parts, IsItem part ∧ IsCode part) (comment : Text) :
    Legible comment parts := by
  induction parts with
  | nil => trivial
  | cons part others ih =>
      obtain ⟨⟨item, code⟩, later⟩ := List.forall_mem_cons.mp scanned
      cases others with
      | nil => exact ⟨code.uncommented, item.undivided, .inr code.closed⟩
      | cons next others => exact ⟨code, item, ih later⟩

end Scan

/-! ### Words -/

/-- A text with blanks around it. -/
def Text.Padded (word text : Text) : Prop :=
  ∃ left right, Blanks left ∧ Blanks right ∧ text = left ++ word ++ right

theorem Expr.read?_of_padded {word text : Text} (padded : Text.Padded word text) :
    read? text = read? word := by
  obtain ⟨left, right, leftBlank, rightBlank, rfl⟩ := padded
  rw [read?, Text.trim_padded leftBlank rightBlank, ← read?]

theorem Scan.scanned_of_padded {word text : Text} (padded : Text.Padded word text)
    (item : IsItem word) (code : IsCode word) : IsItem text ∧ IsCode text := by
  obtain ⟨left, right, leftBlank, rightBlank, rfl⟩ := padded
  exact ⟨item.padded leftBlank rightBlank,
    ((IsCode.of_blanks leftBlank).append code).append (.of_blanks rightBlank)⟩

theorem forall_mem_of_forall₂ {α β : Type} {R : α → β → Prop} {p : α → Prop}
    (weaker : ∀ a b, R a b → p a) {first : List α} {second : List β}
    (related : List.Forall₂ R first second) : ∀ a ∈ first, p a :=
  ((List.forall₂_and_left first second).mp
    (related.imp fun a b holds => ⟨weaker a b holds, holds⟩)).1

/-- Blanks around the expressions of a list do not change their values. -/
theorem Expr.evaluate?_of_padded {here? : Option Word} {resolver : Resolver}
    {items parts : List Text} {values : List Value}
    (padded : List.Forall₂ Text.Padded items parts)
    (evaluated : List.Forall₂ (fun item value => evaluate? item here? resolver = some value)
      items values) :
    List.Forall₂ (fun part value => evaluate? part here? resolver = some value) parts values := by
  induction padded generalizing values with
  | nil =>
      cases evaluated
      exact .nil
  | cons blanks _ ih =>
      cases evaluated with
      | cons first others =>
          refine .cons ?_ (ih others)
          rw [evaluate?, read?_of_padded blanks, ← evaluate?, first]

theorem Expr.isSome_read?_of_evaluate? {here? : Option Word} {resolver : Resolver}
    {parts : List Text} {values : List Value}
    (evaluated : List.Forall₂ (fun part value => evaluate? part here? resolver = some value)
      parts values) : ∀ part ∈ parts, (read? part).isSome = true := by
  refine forall_mem_of_forall₂ (fun part value found => ?_) evaluated
  obtain ⟨expr, read, _⟩ := Option.bind_eq_some_iff.mp found
  rw [read]
  rfl

/-- Expressions that quote no apostrophe make a legible list. -/
theorem Scan.legible_of_padded {items parts : List Text}
    (padded : List.Forall₂ Text.Padded items parts)
    (readable : ∀ part ∈ parts, (Expr.read? part).isSome = true)
    (plain : ∀ item ∈ items, ¬ "'''".toList <:+: item) (comment : Text) :
    Legible comment parts := by
  refine legible_of_scanned ?_ comment
  induction padded with
  | nil => nofun
  | cons blanks _ ih =>
      rw [List.forall_mem_cons] at readable plain ⊢
      obtain ⟨expr, read⟩ := Option.isSome_iff_exists.mp readable.1
      rw [Expr.read?_of_padded blanks] at read
      obtain ⟨item, code⟩ := Expr.scanned_of_read? read plain.1
      exact ⟨scanned_of_padded blanks item code, ih readable.2 plain.2⟩

/-- A comment does not swallow the expression in front of it whole. -/
theorem Scan.trim_cutComment_ne_nil {part : Text} {expr : Expr} (read : Expr.read? part = some expr)
    (back : Text) : Text.trim (cutComment none (part ++ back)) ≠ [] := by
  intro nothing
  have blank : Text.Blanks (cutComment none (part ++ back)) :=
    Text.blanks_of_trim (by rw [nothing]; rfl)
  have visible : ¬ Text.Blanks part := by
    intro partBlank
    have padded : Text.Padded [] part := ⟨part, [], partBlank, Text.Blanks.nil, by simp⟩
    rw [Expr.read?_of_padded padded] at read
    cases read
  obtain ⟨tail, whole, _, stops⟩ := exists_cutComment none (part ++ back)
  generalize cutComment none (part ++ back) = code at blank whole stops
  rcases List.append_eq_append_iff.mp whole with ⟨between, rfl, _⟩ | ⟨between, rfl, rest⟩
  · exact visible fun c member => blank c (List.mem_append_left _ member)
  · cases between with
    | nil => exact visible (by rwa [List.append_nil])
    | cons mark later =>
        rw [rest] at stops
        obtain ⟨⟨⟩⟩ | ⟨⟨⟩, _⟩ := stops
        -- No expression begins with a semicolon.
        have padded : Text.Padded (';' :: later) (code ++ ';' :: later) :=
          ⟨code, [], blank, Text.Blanks.nil, (List.append_nil _).symm⟩
        rw [Expr.read?_of_padded padded] at read
        exact absurd ((Expr.Woven.of_read? read).head?_isForeign ';' rfl) (by decide)

theorem Scan.trim_cutComment_joinList {parts : List Text} (nonempty : parts ≠ [])
    (readable : ∀ part ∈ parts, (Expr.read? part).isSome = true) (comment : Text) :
    Text.trim (cutComment none (joinList parts ++ comment)) ≠ [] := by
  obtain ⟨part, others, rfl⟩ := List.exists_cons_of_ne_nil nonempty
  obtain ⟨expr, read⟩ := Option.isSome_iff_exists.mp (readable part List.mem_cons_self)
  cases others with
  | nil =>
      rw [joinList, List.intercalate_singleton]
      exact trim_cutComment_ne_nil read comment
  | cons next others =>
      rw [joinList_cons_append]
      exact trim_cutComment_ne_nil read _

namespace Data

variable {here : Word} {resolver : Resolver} {parts : List Text} {values : List Value}

theorem wordItem_trim (part : Text) :
    wordItem here resolver (Text.trim part) =
      match Expr.read? part with
      | some expr => .ok (.word (expr.value here resolver))
      | none => .error (.operandSyntax .source) := by
  have same : Expr.read? (Text.trim part) = Expr.read? part := by
    rw [Expr.read?, (Text.bare_trim part).trim_eq, ← Expr.read?]
  rw [wordItem, Expr.evaluate, same]
  cases Expr.read? part <;> rfl

/-- A list of words fails with the fault of an expression that cannot be read. -/
theorem mapM_wordItem_cases (cuts : List Text) :
    (∀ cut ∈ cuts, (Expr.read? cut).isSome = true) ∨
      (cuts.map Text.trim).mapM (wordItem here resolver) = .error (.operandSyntax .source) := by
  cases result : (cuts.map Text.trim).mapM (wordItem here resolver) with
  | ok fields =>
      rw [mapM_eq_ok_iff, List.forall₂_map_left_iff] at result
      refine .inl (forall_mem_of_forall₂ (fun cut field made => ?_) result)
      rw [wordItem_trim] at made
      cases read : Expr.read? cut with
      | some expr => rfl
      | none =>
          rw [read] at made
          cases made
  | error failure =>
      obtain ⟨_, member, failing⟩ := exists_of_mapM_eq_error result
      obtain ⟨cut, _, rfl⟩ := List.mem_map.mp member
      rw [wordItem_trim] at failing
      cases read : Expr.read? cut with
      | some expr =>
          rw [read] at failing
          cases failing
      | none =>
          rw [read] at failing
          cases failing
          exact .inr rfl

/-- **One word for each expression,** if the list is legible. Otherwise the list is refused. -/
theorem fields_word {comment : Text} (trails : ∀ c ∈ comment.head?, c = ';')
    (evaluated : List.Forall₂ (fun part value =>
      Expr.evaluate? part (some here) resolver = some value) parts values)
    (nonempty : parts ≠ []) :
    fields .word (Text.trim (Scan.cutComment none (Scan.joinList parts ++ comment))) here resolver =
      if Scan.Legible comment parts then .ok (values.map .word)
      else .error (.operandSyntax .source) := by
  have split : Scan.splitList (Text.trim (Scan.cutComment none (Scan.joinList parts ++ comment))) =
      (Scan.cuts comment parts).map Text.trim := Scan.splitList_trim _
  change (Scan.splitList _).mapM _ = _
  rw [split]
  split_ifs with legible
  · rw [legible.cuts_eq nonempty trails, mapM_eq_ok_iff, List.forall₂_map_left_iff,
      List.forall₂_map_right_iff]
    refine evaluated.imp fun part value found => ?_
    obtain ⟨expr, read, same⟩ := Option.bind_eq_some_iff.mp found
    cases same
    rw [wordItem_trim, read]
  · refine (mapM_wordItem_cases _).resolve_left fun readable => legible ?_
    exact (Scan.legible_iff trails nonempty (Expr.isSome_read?_of_evaluate? evaluated)).mpr readable

end Data

/-! ### Lines -/

/-- A directive behind a label, and what stands behind the directive. -/
theorem Columns.statement_data {name operator gap field : Text} {directive : Directive}
    (keyword : Text.upper operator = directive.keyword) (parted : Text.Gap gap)
    (bare : Text.Bare field) (visible : field ≠ []) :
    (Columns.mk (some name) (operator ++ gap ++ field)).statement =
      .ok (.data (some name) directive field) := by
  have isWord : IsOperatorWord operator :=
    .of_upper keyword (by cases directive <;> decide) (by cases directive <;> decide)
  have split : Text.splitWord (operator ++ gap ++ field) = (operator, field) :=
    Text.splitWord_append isWord.nonempty isWord.isBlank_eq_false parted.blank bare
      fun none => absurd none parted.nonempty
  have notEqu : Text.spells operator "EQU".toList = false :=
    Text.spells_eq_false keyword (by cases directive <;> decide)
  have unmatched : (Columns.mk (some name) (operator ++ gap ++ field)).constant? = none :=
    constant?_eq_none split notEqu nofun
  have shown : field.isEmpty = false := by simp [visible]
  rw [statement, unmatched]
  simp only [split, Directive.ofWord?_of_keyword keyword, shown, Bool.false_eq_true, ↓reduceIte]

/-- A labelled line of data holds what stands between its directive and its comment. -/
theorem Statement.classify_data {name colon gap operator between text : Text}
    {directive : Directive} (isLabel : IsLabel name) (marked : colon = [] ∨ colon = [':'])
    (parted : Text.Gap gap) (keyword : Text.upper operator = directive.keyword)
    (apart : Text.Gap between) (visible : Text.trim (Scan.cutComment none text) ≠ []) :
    classify (name ++ colon ++ gap ++ operator ++ between ++ text) =
      .ok (.data (some name) directive (Text.trim (Scan.cutComment none text))) := by
  have isWord : IsOperatorWord operator :=
    .of_upper keyword (by cases directive <;> decide) (by cases directive <;> decide)
  have front : Scan.IsCode (name ++ colon ++ gap ++ operator ++ between) :=
    (((isLabel.isCode marked).append (.of_blanks parted.blank)).append isWord.isCode).append
      (.of_blanks apart.blank)
  obtain ⟨left, right, leftBlank, rightBlank, whole⟩ := Text.exists_trim (Scan.cutComment none text)
  have bare := Text.bare_trim (Scan.cutComment none text)
  generalize Text.trim (Scan.cutComment none text) = field at visible whole bare
  -- The blanks in front of the field widen the gap behind the operator.
  have wide : Text.Gap (between ++ left) :=
    ⟨by simp [apart.nonempty], apart.blank.append leftBlank⟩
  have body : Text.Bare (operator ++ (between ++ left) ++ field) := by
    constructor
    · rw [List.append_assoc, List.head?_append_of_ne_nil _ isWord.nonempty]
      exact isWord.bare.1
    · rw [List.getLast?_append_of_ne_nil _ visible]
      exact bare.2
  have together : gap = [] → operator ++ (between ++ left) ++ field = [] :=
    fun none => absurd none parted.nonempty
  have columns := isLabel.ofCode_append marked parted.blank body together
  have goesOn := isLabel.spells_splitWord marked parted.blank body together
  have passed := labelFault?_eq_none_iff.mpr ⟨isLabel.unreserved, isLabel.identifier⟩
  have shown := Text.isEmpty_trim_append (show name ++ colon ≠ [] by simp [isLabel.nonempty])
    fun c last => isLabel.isBlank_eq_false marked c (List.mem_of_getLast? last)
  have lineShown := shown (gap ++ operator ++ between ++ text)
  have codeShown := shown (gap ++ (operator ++ (between ++ left) ++ field))
  have code :
      Text.trimEnd (Scan.stripComment (name ++ colon ++ gap ++ operator ++ between ++ text)) =
        name ++ colon ++ gap ++ (operator ++ (between ++ left) ++ field) := by
    have solid : ∀ c ∈ (name ++ colon ++ gap ++ (operator ++ (between ++ left) ++ field)).getLast?,
        Text.isBlank c = false := by
      rw [← List.append_assoc, List.getLast?_append_of_ne_nil _ visible]
      exact bare.2
    have regroup : name ++ colon ++ gap ++ operator ++ between ++ (left ++ field ++ right) =
        name ++ colon ++ gap ++ (operator ++ (between ++ left) ++ field) ++ right := by
      simp only [List.append_assoc]
    rw [Scan.stripComment, Scan.cutComment_append front.uncommented, front.closed, whole, regroup,
      Text.trimEnd_append rightBlank, Text.trimEnd_of_getLast? solid]
  rw [← List.append_assoc] at codeShown
  simp only [← List.append_assoc] at lineShown
  rw [classify, code, lineShown]
  simp only [Bool.false_eq_true, ↓reduceIte, codeShown, goesOn, Bool.or_self, columns,
    Option.bind_some, passed]
  exact Columns.statement_data keyword wide bare visible

namespace Layout

variable {layout : Layout} {symbols : SymbolTable} {number : Nat}
  {name colon gap operator between comment : Text} {items parts : List Text} {values : List Value}

/-- A line of data under a label that is accepted holds the fields of its data, if it has any. -/
theorem step_of_data {source field : Text} {directive : Directive}
    (classified : Statement.classify source = .ok (.data (some name) directive field))
    (defined : layout.symbols.define ⟨name, some layout.counter, number⟩ .label = .ok symbols) :
    (layout.step number source).1.symbols = symbols ∧
      (layout.step number source).2 = ⟨number, layout.counter, source, Content.ofResult
        ((Data.fields directive field layout.counter symbols.value?).map .code)⟩ := by
  have labelled : layout.label (some name) number = .ok { layout with symbols } :=
    label_eq_ok_iff.mpr (.inr ⟨name, symbols, rfl, defined, rfl⟩)
  have placed : layout.outcome number source = ({ layout with symbols },
      (Data.fields directive field layout.counter symbols.value?).map .code) := by
    simp only [outcome, classified, place, labelThen, labelled]
    cases Data.fields directive field layout.counter symbols.value? <;> rfl
  rw [step_eq, placed]
  exact ⟨rfl, rfl⟩

/-- **A list of words has one word for each expression, if it is legible.** Let a line have a new
label, the directive for words in any letter case, one or more expressions, commas between them and
blanks around them, and perhaps a comment. If the list is legible, the line holds as many words as
there are expressions, each with the value of its expression at the address of the line, where the
label is defined already. If it is not, the line is a fault. A list in which no apostrophe is quoted
is legible, whatever else is. -/
theorem step_wordList (isLabel : IsLabel name) (marked : colon = [] ∨ colon = [':'])
    (parted : Text.Gap gap) (keyword : Text.upper operator = "DW".toList)
    (apart : Text.Gap between)
    (defined : layout.symbols.define ⟨name, some layout.counter, number⟩ .label = .ok symbols)
    (evaluated : List.Forall₂ (fun item value =>
      Expr.evaluate? item (some layout.counter) symbols.value? = some value) items values)
    (nonempty : items ≠ []) (padded : List.Forall₂ Text.Padded items parts)
    (trails : ∀ c ∈ comment.head?, c = ';') :
    let line := name ++ colon ++ gap ++ operator ++ between ++ (Scan.joinList parts ++ comment)
    let next := layout.step number line
    next.1.symbols = symbols ∧ next.2.address = layout.counter ∧
      next.2.content = (if Scan.Legible comment parts then .code (values.map .word)
        else .fault (.operandSyntax .source)) ∧
      ((∀ item ∈ items, ¬ "'''".toList <:+: item) → Scan.Legible comment parts) := by
  intro line next
  have kept := Expr.evaluate?_of_padded padded evaluated
  have readable := Expr.isSome_read?_of_evaluate? kept
  have partsNonempty : parts ≠ [] := by
    rintro rfl
    cases padded
    exact nonempty rfl
  have visible : Text.trim (Scan.cutComment none (Scan.joinList parts ++ comment)) ≠ [] :=
    Scan.trim_cutComment_joinList partsNonempty readable comment
  have classified : Statement.classify line = .ok (.data (some name) .word _) :=
    Statement.classify_data isLabel marked parted keyword apart visible
  obtain ⟨table, placed⟩ := step_of_data classified defined
  rw [Data.fields_word trails kept partsNonempty] at placed
  refine ⟨table, congrArg Line.address placed, ?_, ?_⟩
  · rw [show next.2 = _ from placed]
    split <;> rfl
  · exact fun plain => Scan.legible_of_padded padded readable plain comment

/-- A list with all marks between quotes but the apostrophe, in front of a comment with an
apostrophe; and a list that quotes the apostrophe in front of a comma. -/
theorem step_wordList_quoted :
    let content (source : String) := ((start 0x0200).step 1 source.toList).2.content
    content "T:\tdw ',' , ';',\t'('-'\"' ,$-T,LATER ; it's" =
        .code [.word (.known 44), .word (.known 59), .word (.known 6), .word (.known 0),
          .word (.pending ⟨0, [⟨"LATER".toList, .plus⟩]⟩)] ∧
      content "T DW ''',1" = .fault (.operandSyntax .source) := by
  intro content
  have isLabel : IsLabel "T".toList := ⟨by decide +kernel, by decide +kernel⟩
  have defined : (start 0x0200).symbols.define ⟨"T".toList, some 0x0200, 1⟩ .label =
      .ok ⟨[⟨"T".toList, some 0x0200, 1⟩]⟩ := by decide +kernel
  have blank : Text.Gap [' '] := ⟨by decide, by decide⟩
  have tab : Text.Gap ['\t'] := ⟨by decide, by decide⟩
  have nothing := Text.Blanks.nil
  have marksPadded : List.Forall₂ Text.Padded
      ["','".toList, "';'".toList, "'('-'\"'".toList, "$-T".toList, "LATER".toList]
      ["',' ".toList, " ';'".toList, "\t'('-'\"' ".toList, "$-T".toList, "LATER ".toList] :=
    .cons ⟨[], [' '], nothing, blank.blank, rfl⟩ (.cons ⟨[' '], [], blank.blank, nothing, rfl⟩
      (.cons ⟨['\t'], [' '], tab.blank, blank.blank, rfl⟩ (.cons ⟨[], [], nothing, nothing, rfl⟩
        (.cons ⟨[], [' '], nothing, blank.blank, rfl⟩ .nil))))
  have apostrophePadded : List.Forall₂ Text.Padded ["'''".toList, "1".toList]
      ["'''".toList, "1".toList] :=
    .cons ⟨[], [], nothing, nothing, rfl⟩ (.cons ⟨[], [], nothing, nothing, rfl⟩ .nil)
  obtain ⟨_, _, stored, legible⟩ := @step_wordList (start 0x0200) _ 1 "T".toList [':'] ['\t']
    "dw".toList [' '] (';' :: " it's".toList) _ _
    [.known 44, .known 59, .known 6, .known 0, .pending ⟨0, [⟨"LATER".toList, .plus⟩]⟩]
    isLabel (.inr rfl) tab (by decide +kernel) blank defined (by decide +kernel) (by simp)
    marksPadded (by rintro _ ⟨⟩; rfl)
  obtain ⟨_, _, refused, _⟩ := @step_wordList (start 0x0200) _ 1 "T".toList [] [' '] "DW".toList
    [' '] [] _ _ [.known 39, .known 1] isLabel (.inl rfl) blank (by decide +kernel) blank defined
    (by decide +kernel) (by simp) apostrophePadded nofun
  rw [if_pos (legible (by decide +kernel))] at stored
  rw [if_neg (by decide +kernel)] at refused
  exact ⟨stored, refused⟩

end Layout

end Msp430
