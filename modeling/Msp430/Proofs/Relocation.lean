import Msp430.Proofs.RelocatedFields
import Msp430.Proofs.StatementForms
import Msp430.Proofs.StatementYield

/-! # Moving a program

A source whose lines do not fix addresses can be assembled anywhere
(`assemble_relocated`). The first pass from another origin goes through the same
states, moved by the distance between the origins (`Layout.step_moved`); the second
pass then completes matching fields with tables that lie apart by that distance.
-/

namespace Msp430

/-! ### Symbols -/

/-- The symbol with its value moved. -/
def Symbol.shift (distance : Word) (symbol : Symbol) : Symbol :=
  { symbol with value? := symbol.value?.map (· + distance) }

theorem Symbol.key_shift (distance : Word) (symbol : Symbol) :
    (symbol.shift distance).key = symbol.key :=
  rfl

namespace SymbolTable

/-- The table with all values moved. -/
def shift (distance : Word) (table : SymbolTable) : SymbolTable :=
  ⟨table.symbols.map (Symbol.shift distance)⟩

theorem find?_shift (distance : Word) (table : SymbolTable) (name : Text) :
    (table.shift distance).find? name = (table.find? name).map (Symbol.shift distance) :=
  find?_map (Symbol.key_shift distance) table name

theorem value?_shift (distance : Word) (table : SymbolTable) :
    table.value?.Moved distance (table.shift distance).value? := by
  intro name
  rw [value?, find?_shift, value?]
  cases table.find? name <;> rfl

theorem define_shift (distance : Word) (table : SymbolTable) (symbol : Symbol)
    (kind : SymbolKind) :
    (table.shift distance).define (symbol.shift distance) kind =
      (table.define symbol kind).map (shift distance) := by
  rw [define, find?_shift, Option.isSome_map, define]
  change (if !Text.isIdentifier symbol.name then _ else
    if (table.find? symbol.name).isSome then _ else _) = _
  split
  case isTrue => rfl
  case isFalse =>
    split
    case isTrue => rfl
    case isFalse =>
      exact congrArg (Except.ok ∘ SymbolTable.mk)
        (Symbol.insertByKey_map (Symbol.key_shift distance) symbol _)

end SymbolTable

/-! ### Sources that may move -/

/-- A statement that may move with its program: it fixes no address and defines no constant, and
its data or its instruction may move. -/
def Statement.Movable (keys : List Text) : Statement → Prop
  | .blank | .comment | .label _ => True
  | .constant _ _ | .origin _ _ => False
  | .data _ directive items => Data.Movable items directive
  | .instruction _ operator operands =>
    ∀ image, Image.read operator operands = .ok image → image.Movable keys

/-- A source that may stand anywhere. -/
def Relocatable (source : List Text) : Prop :=
  ∀ text ∈ source, ∀ statement, Statement.classify text = .ok statement →
    statement.Movable (source.filterMap definedKey?)

instance (keys : List Text) : (statement : Statement) → Decidable (statement.Movable keys)
  | .blank | .comment | .label _ => inferInstanceAs (Decidable True)
  | .constant _ _ | .origin _ _ => inferInstanceAs (Decidable False)
  | .data _ directive items => inferInstanceAs (Decidable (Data.Movable items directive))
  | .instruction _ operator operands => inferInstanceAs
      (Decidable (∀ image, Image.read operator operands = .ok image → image.Movable keys))

instance (source : List Text) : Decidable (Relocatable source) :=
  inferInstanceAs (Decidable (∀ text ∈ source, ∀ statement,
    Statement.classify text = .ok statement → statement.Movable (source.filterMap definedKey?)))

/-! ### The first pass -/

section Matches

variable (distance : Word) (keys : List Text) (early earlyMoved : Resolver)

/-- What a statement becomes in the first pass of a program and of the program moved. -/
inductive Content.Matches : Statement → Content → Content → Prop where
  | blank : Matches .blank .blank .blank
  | comment : Matches .comment .text .text
  | label (name : Text) : Matches (.label name) .text .text
  | data {label? : Option Text} {directive : Directive} {items : Text}
      {fields moved : List Field}
      (each : List.Forall₂ (Field.Matches distance keys early earlyMoved Field.SameSize)
        fields moved) :
      Matches (.data label? directive items) (.code fields) (.code moved)
  | instruction {label? : Option Text} {operator : Text} {operands : Operands}
      {fields moved : List Field}
      (each : Field.InstructionMatches distance keys early earlyMoved fields moved) :
      Matches (.instruction label? operator operands) (.code fields) (.code moved)

variable {distance keys early earlyMoved}

theorem Content.Matches.size {statement : Statement} {content moved : Content}
    (same : Matches distance keys early earlyMoved statement content moved) :
    moved.size = content.size := by
  cases same with
  | blank => rfl
  | comment => rfl
  | label name => rfl
  | data each => exact size_code_of_forall₂ (each.imp fun _ _ same => same.size)
  | instruction each => exact size_code_of_forall₂ (each.forall₂.imp fun _ _ same => same.size)

end Matches

namespace Layout

variable {distance : Word} {keys : List Text}

/-- The state with the location counter and all values moved. -/
def shift (distance : Word) (layout : Layout) : Layout :=
  ⟨layout.counter + distance, layout.symbols.shift distance⟩

theorem label_shift (layout : Layout) (label? : Option Text) (number : Nat) :
    (layout.shift distance).label label? number =
      (layout.label label? number).map (shift distance) := by
  cases label? with
  | none => rfl
  | some name =>
      have defined := layout.symbols.define_shift distance ⟨name, some layout.counter, number⟩
        .label
      change ((layout.symbols.shift distance).define _ _ >>= _) = _
      rw [show (⟨name, some (layout.shift distance).counter, number⟩ : Symbol) =
        Symbol.shift distance ⟨name, some layout.counter, number⟩ from rfl, defined]
      rw [label, define]
      cases layout.symbols.define ⟨name, some layout.counter, number⟩ .label <;> rfl

/-- Defining a label and going on, in a program and in the program moved. -/
theorem labelThen_moved (layout : Layout) (label? : Option Text) (number : Nat)
    {related : Resolver → Resolver → Content → Content → Prop}
    {rest : Layout → Except Fault Content}
    (alike : ∀ labelled : Layout, Outcome.Alike
      (related labelled.symbols.value? (labelled.symbols.shift distance).value?)
      (rest labelled) (rest (labelled.shift distance))) :
    ((layout.shift distance).labelThen label? number rest).1 =
        (layout.labelThen label? number rest).1.shift distance ∧
      Outcome.Alike (related (layout.labelThen label? number rest).1.symbols.value?
          ((layout.labelThen label? number rest).1.symbols.shift distance).value?)
        (layout.labelThen label? number rest).2
        ((layout.shift distance).labelThen label? number rest).2 := by
  unfold labelThen
  rw [label_shift]
  cases layout.label label? number with
  | error fault => exact ⟨rfl, .error fault⟩
  | ok labelled => exact ⟨rfl, alike labelled⟩

/-- **A statement moves with its program.** Placing it at a moved counter does to a moved table
what placing it does to the table, and yields matching content or the same fault. -/
theorem place_moved (layout : Layout) (number : Nat) {statement : Statement}
    (movable : statement.Movable keys) :
    ((layout.shift distance).place number statement).1 =
        (layout.place number statement).1.shift distance ∧
      Outcome.Alike
        (Content.Matches distance keys (layout.place number statement).1.symbols.value?
          ((layout.place number statement).1.symbols.shift distance).value? statement)
        (layout.place number statement).2 ((layout.shift distance).place number statement).2 := by
  cases statement with
  | blank => exact ⟨rfl, .ok .blank⟩
  | comment => exact ⟨rfl, .ok .comment⟩
  | constant name operand => exact movable.elim
  | origin label? address => exact movable.elim
  | label name =>
      exact @labelThen_moved distance layout (some name) number
        (fun early earlyMoved => Content.Matches distance keys early earlyMoved (.label name)) _
        fun _ => .ok (.label name)
  | data label? directive items =>
      refine @labelThen_moved distance layout label? number
        (fun early earlyMoved =>
          Content.Matches distance keys early earlyMoved (.data label? directive items)) _
        fun labelled => ?_
      have fields := @Data.fields_matches distance keys labelled.symbols.value?
        (labelled.symbols.shift distance).value? directive items movable labelled.counter
        (labelled.counter + distance)
      exact fields.bind fun _ _ each => .ok (.data each)
  | instruction label? operator operands =>
      refine @labelThen_moved distance layout label? number
        (fun early earlyMoved =>
          Content.Matches distance keys early earlyMoved (.instruction label? operator operands)) _
        fun labelled => ?_
      have fields : Outcome.Alike (Field.InstructionMatches distance keys labelled.symbols.value?
          (labelled.symbols.shift distance).value?)
          (encode operator operands labelled.counter labelled.symbols.value?)
          (encode operator operands (labelled.counter + distance)
            (labelled.symbols.shift distance).value?) := by
        rw [encode, encode]
        cases read : Image.read operator operands with
        | error fault => exact .error fault
        | ok image =>
            exact Image.fields_matches (movable image read)
              (labelled.symbols.value?_shift distance) labelled.counter
      exact fields.bind fun _ _ each => .ok (.instruction each)

/-- What a line comes to moves with its program: the state, and matching content or the same
fault. -/
theorem outcome_moved (layout : Layout) (number : Nat) {text : Text}
    (movable : ∀ statement, Statement.classify text = .ok statement → statement.Movable keys) :
    ((layout.shift distance).outcome number text).1 =
        (layout.outcome number text).1.shift distance ∧
      Outcome.Alike
        (fun content moved => ∃ statement, Statement.classify text = .ok statement ∧
          Content.Matches distance keys (layout.outcome number text).1.symbols.value?
            ((layout.outcome number text).1.symbols.shift distance).value? statement content moved)
        (layout.outcome number text).2 ((layout.shift distance).outcome number text).2 := by
  unfold Layout.outcome
  cases classified : Statement.classify text with
  | error fault => exact ⟨rfl, .error fault⟩
  | ok statement =>
      obtain ⟨placed, alike⟩ := @place_moved distance keys layout number statement
        (movable statement classified)
      exact ⟨placed, alike.imp fun _ _ same => ⟨statement, rfl, same⟩⟩

/-- **A step of the first pass moves with its program.** -/
theorem step_moved (layout : Layout) (number : Nat) {text : Text}
    (movable : ∀ statement, Statement.classify text = .ok statement → statement.Movable keys) :
    ((layout.shift distance).step number text).1 = (layout.step number text).1.shift distance ∧
      ((layout.shift distance).step number text).2.address =
        (layout.step number text).2.address + distance ∧
      ((∃ cause, (layout.step number text).2.content = .fault cause ∧
          ((layout.shift distance).step number text).2.content = .fault cause) ∨
        ∃ statement, Statement.classify text = .ok statement ∧
          Content.Matches distance keys (layout.step number text).1.symbols.value?
            ((layout.step number text).1.symbols.shift distance).value? statement
            (layout.step number text).2.content
            ((layout.shift distance).step number text).2.content) := by
  obtain ⟨state, result⟩ := @outcome_moved distance keys layout number text movable
  rw [step_eq, step_eq, state]
  rcases result.cases with ⟨fault, own, moved⟩ |
    ⟨content, moved, own, ownMoved, statement, classified, same⟩
  · rw [own, moved]
    refine ⟨?_, rfl, .inl ⟨fault, rfl, rfl⟩⟩
    simp [shift, Content.ofResult, Content.size]
  · rw [own, ownMoved]
    refine ⟨?_, rfl, .inr ⟨statement, classified, same⟩⟩
    have sizes : (Content.ofResult (.ok moved)).size = (Content.ofResult (.ok content)).size :=
      same.size
    rw [sizes]
    simp only [shift, Layout.mk.injEq, and_true]
    ac_rfl

end Layout

/-! ### Both passes -/

/-- Where no constant waits for a name, a run settles nothing. -/
theorem Settlement.Run.eq_of_forall_none {lines : List Line} {table final : SymbolTable}
    {readings : List Reading} (run : Run lines table readings final)
    (plain : ∀ line ∈ lines, line.waiting? = none) : final = table := by
  cases run with
  | done => rfl
  | settle member waits unsettled resolved rest =>
      rw [plain _ member] at waits
      cases waits

section Assembled

variable {source : List Text} {first second : Word}

/-- The states of the first pass from two origins lie apart by their distance. -/
theorem before_moved (movable : Relocatable source) {index : Nat}
    (bounded : index ≤ source.length) :
    Layout.before second source index =
      (Layout.before first source index).shift (second - first) := by
  induction index with
  | zero =>
      have reached : second = first + (second - first) := by grind
      exact congrArg (Layout.mk · .empty) reached
  | succ index ih =>
      have present : source[index]? = some source[index] := List.getElem?_eq_getElem (by omega)
      rw [Layout.before_succ present, Layout.before_succ present, ih (by omega)]
      exact (Layout.step_moved _ _ (movable _ (List.getElem_mem _))).1

/-- A program without constants has its symbols from the first pass. -/
theorem symbols_of_relocatable (movable : Relocatable source) (origin : Word) :
    (assemble origin source).symbols = (Layout.ofSource origin source).1.symbols := by
  apply (assemble_run origin source).eq_of_forall_none
  intro line member
  cases waits : line.waiting? with
  | none => rfl
  | some constant =>
      obtain ⟨_, text, operand, _, _, inSource, classified, _⟩ := exists_of_waiting member waits
      exact (movable text inSource _ classified).elim

/-- A program without constants has a value for each of its symbols. -/
theorem isSome_of_relocatable (movable : Relocatable source) {origin : Word} {symbol : Symbol}
    (member : symbol ∈ (assemble origin source).symbols.symbols) : symbol.value?.isSome := by
  rw [symbols_of_relocatable movable] at member
  cases value : symbol.value? with
  | some word => rfl
  | none =>
      obtain ⟨line, inLines, reference, content, _⟩ :=
        (Layout.registered_ofSource origin source).unsettled symbol member value
      obtain ⟨_, text, operand, _, _, inSource, classified, _⟩ :=
        exists_of_waiting inLines (Line.waiting?_eq_some_iff.mpr content)
      exact (movable text inSource _ classified).elim

/-- A name that a line has as its label is defined after the line, there or on an earlier line. -/
theorem isSome_find?_step (layout : Layout) (number : Nat) {text name : Text}
    {statement : Statement} {keys : List Text}
    (classified : Statement.classify text = .ok statement) (movable : statement.Movable keys)
    (named : statement.name? = some name) :
    ((layout.step number text).1.symbols.find? name).isSome := by
  have identifier := (Statement.name?_sound classified named).2.2
  have labelled : ∀ rest,
      ((layout.labelThen (some name) number rest).1.symbols.find? name).isSome := by
    intro rest
    rw [Layout.labelThen]
    cases accepted : layout.label (some name) number with
    | ok after =>
        dsimp only
        rw [Layout.find?_of_label accepted]
        rfl
    | error fault =>
        cases found : layout.symbols.find? name with
        | some symbol => rfl
        | none =>
            have defined : layout.symbols.define ⟨name, some layout.counter, number⟩ .label =
                .ok _ := SymbolTable.define_eq_ok_iff.mpr ⟨identifier, found, rfl⟩
            rw [Layout.label, Layout.define, defined] at accepted
            cases accepted
  rw [Layout.step_symbols, Layout.outcome, classified]
  cases statement with
  | blank => cases named
  | comment => cases named
  | constant other operand => exact movable.elim
  | origin label? address => exact movable.elim
  | label other =>
      cases named
      exact labelled _
  | data label? directive items =>
      cases named
      exact labelled _
  | instruction label? operator operands =>
      cases named
      exact labelled _

/-- A name that some line of the source defines has a value in the program. -/
theorem isSome_value?_of_key (movable : Relocatable source) (origin : Word) {name : Text}
    (defined : Text.upper name ∈ source.filterMap definedKey?) :
    ((assemble origin source).symbols.value? name).isSome := by
  obtain ⟨text, member, key⟩ := List.mem_filterMap.mp defined
  obtain ⟨index, present⟩ := List.mem_iff_getElem?.mp member
  have bounded : index + 1 ≤ source.length := (List.getElem?_eq_some_iff.mp present).1
  cases classified : Statement.classify text with
  | error fault =>
      rw [definedKey?, classified] at key
      cases key
  | ok statement =>
      rw [definedKey?_of_classify classified] at key
      obtain ⟨own, named, sameKey⟩ := Option.map_eq_some_iff.mp key
      have placed := isSome_find?_step (Layout.before origin source index) (index + 1) classified
        (movable text member statement classified) named
      rw [← Layout.before_succ present] at placed
      obtain ⟨early, found⟩ := Option.isSome_iff_exists.mp placed
      obtain ⟨symbol, foundFinal, _⟩ := assemble_grows origin source bounded found
      rw [← SymbolTable.value?_congr _ sameKey, SymbolTable.value?, foundFinal]
      exact isSome_of_relocatable movable (List.mem_of_find?_eq_some foundFinal)

/-- The final tables from two origins lie apart by their distance. -/
theorem symbols_moved (movable : Relocatable source) (first second : Word) :
    (assemble second source).symbols =
      (assemble first source).symbols.shift (second - first) := by
  rw [symbols_of_relocatable movable, symbols_of_relocatable movable, ← Layout.before_length,
    ← Layout.before_length, before_moved movable (Nat.le_refl _)]
  rfl

/-- The tables at the end complete what was known after a line, from both origins. -/
theorem later_of_relocatable (movable : Relocatable source) (first second : Word) {index : Nat}
    (bounded : index ≤ source.length) :
    Resolver.Later (second - first) (source.filterMap definedKey?)
      (Layout.before first source index).symbols.value?
      ((Layout.before first source index).symbols.shift (second - first)).value?
      (assemble first source).symbols.value? (assemble second source).symbols.value? := by
  refine ⟨(assemble_grows first source bounded).value?_extends, ?_, ?_, ?_⟩
  · have grows := (assemble_grows second source bounded).value?_extends
    rwa [@before_moved source first second movable index bounded] at grows
  · rw [symbols_moved movable first second]
    exact SymbolTable.value?_shift _ _
  · intro name defined
    exact isSome_value?_of_key movable first defined

end Assembled

/-! ### Finished lines -/

section Finished

variable {distance : Word} {keys : List Text} {early earlyMoved : Resolver}
  {table tableMoved : SymbolTable} {line moved : Line}

/-- Code whose fields are completed alike ends as related code, or as the same fault. -/
theorem finished_of_alike {fields fieldsMoved : List Field}
    {related : List Field → List Field → Prop} (code : line.content = .code fields)
    (codeMoved : moved.content = .code fieldsMoved)
    (alike : Outcome.Alike related (fields.mapM (Settlement.completeField table.value?))
      (fieldsMoved.mapM (Settlement.completeField tableMoved.value?))) :
    (∃ cause, (line.finished table).content = .fault cause ∧
        (moved.finished tableMoved).content = .fault cause) ∨
      ∃ resolved resolvedMoved, (line.finished table).content = .code resolved ∧
        (moved.finished tableMoved).content = .code resolvedMoved ∧
        related resolved resolvedMoved := by
  rw [Line.finished_of_code code, Line.finished_of_code codeMoved]
  rcases alike.cases with ⟨fault, own, other⟩ | ⟨resolved, resolvedMoved, own, other, same⟩
  · rw [own, other]
    exact .inl ⟨fault, rfl, rfl⟩
  · rw [own, other]
    exact .inr ⟨resolved, resolvedMoved, rfl, rfl, same⟩

/-- The code of an instruction that moved: it has the same sizes and starts with the same word. -/
def SameStart (fields moved : List Field) : Prop :=
  ∃ word rest others, fields = .word (.known word) :: rest ∧
    moved = .word (.known word) :: others ∧ List.Forall₂ Field.SameSize rest others

theorem Field.InstructionMatches.completed {fields fieldsMoved : List Field}
    (same : InstructionMatches distance keys early earlyMoved fields fieldsMoved)
    (later : Resolver.Later distance keys early earlyMoved table.value? tableMoved.value?) :
    Outcome.Alike SameStart (fields.mapM (Settlement.completeField table.value?))
      (fieldsMoved.mapM (Settlement.completeField tableMoved.value?)) := by
  obtain ⟨first, firstMoved, rest, restMoved, rfl, rfl, head, tail⟩ := same
  rw [List.mapM_cons, List.mapM_cons]
  refine (head.completed _ _ later).bind ?_
  rintro _ _ ⟨word, rfl, rfl⟩
  refine (Outcome.Alike.mapM (tail.imp fun _ _ each => each.completed _ _ later)).bind ?_
  intro resolved resolvedMoved sizes
  exact .ok ⟨word, resolved, resolvedMoved, rfl, rfl, sizes⟩

/-- A line without code stays as it is in both programs. -/
theorem finished_of_codeless {content : Content} (plain : content = .blank ∨ content = .text)
    (own : line.content = content) (other : moved.content = content) :
    (line.finished table).isFault = false ∧ (moved.finished tableMoved).isFault = false ∧
      (moved.finished tableMoved).content.size = (line.finished table).content.size := by
  have noConstant : ∀ name value, content ≠ .constant name value := by
    rcases plain with rfl | rfl <;> exact fun _ _ => Content.noConfusion
  have noCode : ∀ fields, content ≠ .code fields := by
    rcases plain with rfl | rfl <;> exact fun _ => Content.noConfusion
  rw [Line.isFault, Line.isFault, Line.finished_of_plain own noConstant noCode,
    Line.finished_of_plain other noConstant noCode]
  rcases plain with rfl | rfl <;> exact ⟨rfl, rfl, rfl⟩

/-- What a line ends as in a program and in the program moved: the same fault, or content of the
same size, which for an instruction starts with the same word. -/
theorem finished_moved {statement : Statement}
    (same : Content.Matches distance keys early earlyMoved statement line.content moved.content)
    (later : Resolver.Later distance keys early earlyMoved table.value? tableMoved.value?) :
    (∃ cause, (line.finished table).content = .fault cause ∧
        (moved.finished tableMoved).content = .fault cause) ∨
      ((line.finished table).isFault = false ∧ (moved.finished tableMoved).isFault = false ∧
        (moved.finished tableMoved).content.size = (line.finished table).content.size ∧
        ∀ label? operator operands, statement = .instruction label? operator operands →
          ∃ fields fieldsMoved, (line.finished table).content = .code fields ∧
            (moved.finished tableMoved).content = .code fieldsMoved ∧
            SameStart fields fieldsMoved) := by
  generalize own : line.content = content, other : moved.content = contentMoved at same
  cases same with
  | blank =>
      obtain ⟨clean, cleanMoved, size⟩ := finished_of_codeless (.inl rfl) own other
      exact .inr ⟨clean, cleanMoved, size, fun _ _ _ => Statement.noConfusion⟩
  | comment =>
      obtain ⟨clean, cleanMoved, size⟩ := finished_of_codeless (.inr rfl) own other
      exact .inr ⟨clean, cleanMoved, size, fun _ _ _ => Statement.noConfusion⟩
  | label name =>
      obtain ⟨clean, cleanMoved, size⟩ := finished_of_codeless (.inr rfl) own other
      exact .inr ⟨clean, cleanMoved, size, fun _ _ _ => Statement.noConfusion⟩
  | data each =>
      have alike := Outcome.Alike.mapM (each.imp fun _ _ same => same.completed _ _ later)
      refine (finished_of_alike own other alike).imp_right ?_
      rintro ⟨resolved, resolvedMoved, final, finalMoved, sizes⟩
      rw [Line.isFault, Line.isFault, final, finalMoved]
      exact ⟨rfl, rfl, size_code_of_forall₂ sizes, fun _ _ _ => Statement.noConfusion⟩
  | instruction each =>
      refine (finished_of_alike own other (each.completed later)).imp_right ?_
      rintro ⟨resolved, resolvedMoved, final, finalMoved, start⟩
      rw [Line.isFault, Line.isFault, final, finalMoved]
      refine ⟨rfl, rfl, ?_, fun _ _ _ _ => ⟨resolved, resolvedMoved, rfl, rfl, start⟩⟩
      obtain ⟨word, rest, others, rfl, rfl, sizes⟩ := start
      exact size_code_of_forall₂ (.cons rfl sizes)

end Finished

/-! ### The program as a whole -/

/-- A line of a program and the same line of the program moved by a distance. The address moves by
the distance; size and fault are the same, and an instruction starts with the same word. -/
structure Line.Relocated (distance : Word) (line moved : Line) : Prop where
  number : moved.number = line.number
  source : moved.source = line.source
  address : moved.address = line.address + distance
  size : moved.content.size = line.content.size
  fault : ∀ cause, line.content = .fault cause ↔ moved.content = .fault cause
  start : ∀ label? operator operands fields,
    Statement.classify line.source = .ok (.instruction label? operator operands) →
      line.content = .code fields →
      ∃ word rest others, fields = .word (.known word) :: rest ∧
        moved.content = .code (.word (.known word) :: others)

theorem Line.relocated_of_fault {distance : Word} {line moved : Line} {cause : Fault}
    (number : moved.number = line.number) (source : moved.source = line.source)
    (address : moved.address = line.address + distance) (own : line.content = .fault cause)
    (other : moved.content = .fault cause) : line.Relocated distance moved := by
  refine ⟨number, source, address, by rw [own, other], fun _ => by rw [own, other], ?_⟩
  intro label? operator operands fields _ code
  rw [own] at code
  cases code

theorem Line.relocated_of_clean {distance : Word} {line moved : Line}
    (number : moved.number = line.number) (source : moved.source = line.source)
    (address : moved.address = line.address + distance) (own : line.isFault = false)
    (other : moved.isFault = false) (size : moved.content.size = line.content.size)
    (start : ∀ label? operator operands,
      Statement.classify line.source = .ok (.instruction label? operator operands) →
        ∃ fields fieldsMoved, line.content = .code fields ∧ moved.content = .code fieldsMoved ∧
          SameStart fields fieldsMoved) : line.Relocated distance moved := by
  have faultless : ∀ {clean : Line} {cause : Fault}, clean.isFault = false →
      clean.content ≠ .fault cause := by
    intro clean cause isClean same
    rw [isFault, same] at isClean
    cases isClean
  refine ⟨number, source, address, size, fun cause => ?_, ?_⟩
  · exact ⟨fun same => (faultless own same).elim, fun same => (faultless other same).elim⟩
  · intro label? operator operands fields classified code
    obtain ⟨resolved, resolvedMoved, final, finalMoved, word, rest, others, rfl, rfl, _⟩ :=
      start label? operator operands classified
    rw [final] at code
    cases code
    exact ⟨word, rest, others, rfl, finalMoved⟩

/-- Each line of a program moves with it. -/
theorem getElem?_relocated {source : List Text} (movable : Relocatable source)
    (first second : Word) {index : Nat} {text : Text} (present : source[index]? = some text) :
    ∃ line moved, (assemble first source).lines[index]? = some line ∧
      (assemble second source).lines[index]? = some moved ∧
      line.Relocated (second - first) moved := by
  have bounded : index + 1 ≤ source.length := (List.getElem?_eq_some_iff.mp present).1
  have later := later_of_relocatable movable first second bounded
  rw [Layout.before_succ present] at later
  refine ⟨_, _, assemble_getElem? first source present, assemble_getElem? second source present, ?_⟩
  rw [@before_moved source first second movable index (by omega)]
  obtain ⟨_, address, contents⟩ := @Layout.step_moved (second - first) _
    (Layout.before first source index) (index + 1) text
    (movable text (List.mem_of_getElem? present))
  rcases contents with ⟨cause, own, other⟩ | ⟨statement, classified, same⟩
  · exact Line.relocated_of_fault rfl rfl address (Line.finished_of_fault own _)
      (Line.finished_of_fault other _)
  · rcases finished_moved same later with ⟨cause, own, other⟩ | ⟨own, other, size, start⟩
    · exact Line.relocated_of_fault rfl rfl address own other
    · refine Line.relocated_of_clean rfl rfl address own other size ?_
      intro label? operator operands instruction
      exact start label? operator operands (Except.ok.inj (classified.symm.trans instruction))

/-- **A program may stand anywhere.** Let no line of a source set the location counter or define a
constant, let no size and no byte be given by a name or by an address, and let every jump target
count one address on balance, without a name that only the chip defines. From two origins the
source becomes programs whose lines and symbols lie apart by the distance of the origins, with the
same faults, the same sizes and the same first word of each instruction. -/
theorem assemble_relocated {source : List Text} (movable : Relocatable source)
    (first second : Word) :
    List.Forall₂ (Line.Relocated (second - first)) (assemble first source).lines
        (assemble second source).lines ∧
      List.Forall₂ (fun symbol moved : Symbol => moved.name = symbol.name ∧
          moved.line = symbol.line ∧ ∃ address, symbol.value? = some address ∧
          moved.value? = some (address + (second - first)))
        (assemble first source).symbols.symbols (assemble second source).symbols.symbols := by
  constructor
  · have sameLength : (assemble first source).lines.length =
        (assemble second source).lines.length := by
      rw [length_assemble, length_assemble]
    refine List.forall₂_iff_get.mpr ⟨sameLength, fun index inFirst inSecond => ?_⟩
    have bounded : index < source.length := length_assemble first source ▸ inFirst
    obtain ⟨line, moved, found, foundMoved, relocated⟩ := getElem?_relocated movable first second
      (List.getElem?_eq_getElem bounded)
    obtain ⟨_, rfl⟩ := List.getElem?_eq_some_iff.mp found
    obtain ⟨_, rfl⟩ := List.getElem?_eq_some_iff.mp foundMoved
    exact relocated
  · rw [symbols_moved movable first second]
    refine List.forall₂_map_right_iff.mpr (List.forall₂_same.mpr fun symbol member => ?_)
    obtain ⟨address, value⟩ := Option.isSome_iff_exists.mp (isSome_of_relocatable movable member)
    exact ⟨rfl, rfl, address, value, by rw [Symbol.shift, value]; rfl⟩

/-- A program that is moved over the end of memory. A jump forward keeps its word on its way from
`0x0206` to `0x0000`, and a label that is defined twice stays a fault. -/
theorem assemble_relocated_overEnd :
    let source := ["START MOV #START+2,R5".toList, " DB 3,'A'".toList, " JNZ DONE-2".toList,
      "start NOP".toList, " DW START-$,LOST".toList, " JMP $+5".toList, "DONE JMP START".toList]
    Relocatable source ∧
      ∃ (jump refused : Line) (others : List Field),
        (assemble 0xFFFA source).lines[2]? = some jump ∧ jump.address = 0x0000 ∧
        jump.content = .code (.word (.known 0x2001) :: others) ∧
        (assemble 0xFFFA source).lines[3]? = some refused ∧
        refused.content = .fault (.duplicateSymbol "start".toList .label) := by
  intro source
  have movable : Relocatable source := by decide +kernel
  have length : (assemble 0xFFFA source).lines.length = 7 := length_assemble 0xFFFA source
  have inJump : 2 < (assemble 0xFFFA source).lines.length := by omega
  have inRefused : 3 < (assemble 0xFFFA source).lines.length := by omega
  obtain ⟨_, lines⟩ := List.forall₂_iff_get.mp (assemble_relocated movable 0x0200 0xFFFA).1
  have jump := lines 2 (by decide +kernel) inJump
  have refused := lines 3 (by decide +kernel) inRefused
  obtain ⟨word, rest, others, shape, moved⟩ := jump.start none "JNZ".toList
    (.one "DONE-2".toList) [.word (.known 0x2001)] (by decide +kernel) (by decide +kernel)
  cases shape
  refine ⟨movable, _, _, others, List.getElem?_eq_getElem inJump, ?_, moved,
    List.getElem?_eq_getElem inRefused, ?_⟩
  · exact jump.address.trans (by decide +kernel)
  · exact (refused.fault _).mp (by decide +kernel)

end Msp430
