import Mathlib.Data.List.Nodup
import Msp430.Assembly.Layout
import Msp430.Proofs.Evaluation

/-! # Runs of the first pass

Placing a line does one of three things to the symbols (`Layout.Effect`): nothing,
the definition of a label at the address of the line, or the definition of a
constant with the value of the line. Everything that is true of the symbols of a
run follows from this by induction on the lines. What a line without a fault did
beyond that is a `Layout.Placement`. The state before a given line is
`Layout.before`; the tables of these states only grow (`Layout.before_grows`), and
the table after a line agrees with the lines placed so far
(`Layout.registered_before`): the symbols without a value are the constants that
wait for a name.
-/

namespace Msp430

namespace Layout

/-! ### One line -/

/-- A label is accepted if there is none, or if its name can be defined at the counter. -/
theorem label_eq_ok_iff {layout labelled : Layout} {label? : Option Text} {number : Nat} :
    layout.label label? number = .ok labelled ↔
      (label? = none ∧ labelled = layout) ∨
        ∃ name symbols, label? = some name ∧
          layout.symbols.define ⟨name, some layout.counter, number⟩ .label = .ok symbols ∧
          labelled = { layout with symbols } := by
  cases label? with
  | none => simp [label, eq_comm]
  | some name =>
      simp only [label, define, bind_eq_ok_iff, pure, Except.pure, Except.ok.injEq]
      constructor
      · rintro ⟨symbols, defined, rfl⟩
        exact .inr ⟨name, symbols, rfl, defined, rfl⟩
      · rintro (⟨⟨⟩, _⟩ | ⟨_, symbols, ⟨⟩, defined, rfl⟩)
        exact ⟨symbols, defined, rfl⟩

theorem counter_of_label {layout labelled : Layout} {label? : Option Text} {number : Nat}
    (accepted : layout.label label? number = .ok labelled) :
    labelled.counter = layout.counter := by
  rcases label_eq_ok_iff.mp accepted with ⟨_, rfl⟩ | ⟨name, symbols, _, _, rfl⟩ <;> rfl

/-- What placing a line with the given number does to the symbols, in terms of the address and
the content that the line gets. -/
inductive Effect (number : Nat) (before after : SymbolTable) (address : Word)
    (content : Content) : Prop where
  /-- No symbol is defined. -/
  | silent (same : after = before) (plain : ∀ name value, content ≠ .constant name value)
  /-- A label is defined; what follows it may have failed. -/
  | label (name : Text)
      (defined : before.define ⟨name, some address, number⟩ .label = .ok after)
      (plain : ∀ name value, content ≠ .constant name value)
  /-- A constant is defined, with its value if that is known. -/
  | constant (name : Text) (value : Value)
      (defined : before.define ⟨name, value.known?, number⟩ .constant = .ok after)
      (same : content = .constant name value)

theorem Effect.ordered {number : Nat} {before after : SymbolTable} {address : Word}
    {content : Content} (effect : Effect number before after address content)
    (ordered : before.Ordered) : after.Ordered := by
  cases effect with
  | silent same plain => exact same ▸ ordered
  | label name defined plain => exact ordered.define defined
  | constant name value defined same => exact ordered.define defined

theorem Effect.grows {number : Nat} {before after : SymbolTable} {address : Word}
    {content : Content} (effect : Effect number before after address content) :
    before.Grows after := by
  cases effect with
  | silent same plain => exact same ▸ .refl before
  | label name defined plain => exact SymbolTable.grows_of_define defined
  | constant name value defined same => exact SymbolTable.grows_of_define defined

/-- A name that leads to a symbol after a line led there before, or was defined on the line. -/
theorem Effect.find?_cases {number : Nat} {before after : SymbolTable} {address : Word}
    {content : Content} (effect : Effect number before after address content) {name : Text}
    {symbol : Symbol} (found : after.find? name = some symbol) :
    before.find? name = some symbol ∨ symbol.line = number := by
  have ofDefine : ∀ {fresh : Symbol} {kind : SymbolKind}, fresh.line = number →
      before.define fresh kind = .ok after →
      before.find? name = some symbol ∨ symbol.line = number := by
    intro fresh kind line defined
    rw [SymbolTable.find?_of_define defined] at found
    split at found
    · exact .inr (Option.some.inj found ▸ line)
    · exact .inl found
  cases effect with
  | silent same plain => exact .inl (same ▸ found)
  | label name defined plain => exact ofDefine rfl defined
  | constant name value defined same => exact ofDefine rfl defined

/-- The part of a step that comes before the location counter moves on. -/
def outcome (layout : Layout) (number : Nat) (source : Text) : Layout × Except Fault Content :=
  match Statement.classify source with
  | .ok statement => layout.place number statement
  | .error fault => (layout, .error fault)

theorem step_line (layout : Layout) (number : Nat) (source : Text) :
    (layout.step number source).2 =
      ⟨number, (layout.outcome number source).1.counter, source,
        Content.ofResult (layout.outcome number source).2⟩ :=
  rfl

theorem step_symbols (layout : Layout) (number : Nat) (source : Text) :
    (layout.step number source).1.symbols = (layout.outcome number source).1.symbols :=
  rfl

/-- A step in terms of its outcome: the line, and the state with the counter moved past it. -/
theorem step_eq (layout : Layout) (number : Nat) (source : Text) :
    layout.step number source =
      (⟨(layout.outcome number source).1.counter +
          (Content.ofResult (layout.outcome number source).2).size,
        (layout.outcome number source).1.symbols⟩,
        ⟨number, (layout.outcome number source).1.counter, source,
          Content.ofResult (layout.outcome number source).2⟩) :=
  rfl

/-- Defining a label and going on with something else than a constant. -/
theorem labelThen_effect (layout : Layout) (label? : Option Text) (number : Nat)
    (rest : Layout → Except Fault Content)
    (plain : ∀ labelled name value, rest labelled ≠ .ok (.constant name value)) :
    Effect number layout.symbols (layout.labelThen label? number rest).1.symbols
      (layout.labelThen label? number rest).1.counter
      (Content.ofResult (layout.labelThen label? number rest).2) := by
  unfold labelThen
  cases accepted : layout.label label? number with
  | error fault => exact .silent rfl fun _ _ => Content.noConfusion
  | ok labelled =>
      have restPlain : ∀ name value, Content.ofResult (rest labelled) ≠ .constant name value := by
        intro name value
        cases result : rest labelled with
        | error fault => exact Content.noConfusion
        | ok content => exact fun same => plain labelled name value (result.trans (same ▸ rfl))
      rcases label_eq_ok_iff.mp accepted with ⟨_, rfl⟩ | ⟨name, symbols, _, defined, rfl⟩
      · exact .silent rfl restPlain
      · exact .label name defined restPlain

/-- **What a line can do.** Every line has one of the three effects on the symbols. -/
theorem step_effect (layout : Layout) (number : Nat) (source : Text) :
    Effect number layout.symbols (layout.step number source).1.symbols
      (layout.step number source).2.address (layout.step number source).2.content := by
  rw [step_symbols, step_line]
  unfold outcome
  cases Statement.classify source with
  | error fault => exact .silent rfl fun _ _ => Content.noConfusion
  | ok statement =>
      cases statement with
      | blank => exact .silent rfl fun _ _ => Content.noConfusion
      | comment => exact .silent rfl fun _ _ => Content.noConfusion
      | label name =>
          exact layout.labelThen_effect _ number _ fun _ _ _ same => by cases same
      | constant name value =>
          simp only [place]
          cases placed : layout.constant name value number with
          | error fault => exact .silent rfl fun _ _ => Content.noConfusion
          | ok result =>
              obtain ⟨evaluated, _, rest⟩ := bind_eq_ok_iff.mp placed
              obtain ⟨defining, defined, done⟩ := bind_eq_ok_iff.mp rest
              obtain ⟨symbols, accepted, same⟩ := bind_eq_ok_iff.mp defined
              cases same
              cases done
              exact .constant name evaluated accepted rfl
      | data label? directive items =>
          apply layout.labelThen_effect
          intro labelled name value same
          obtain ⟨fields, _, done⟩ := bind_eq_ok_iff.mp same
          cases done
      | origin label? address =>
          simp only [place]
          cases Data.immediate address layout.counter layout.symbols.value? with
          | error fault => exact .silent rfl fun _ _ => Content.noConfusion
          | ok origin =>
              exact labelThen_effect { layout with counter := origin } label? number _
                fun _ _ _ same => by cases same
      | instruction label? operator operands =>
          apply layout.labelThen_effect
          intro labelled name value same
          obtain ⟨fields, _, done⟩ := bind_eq_ok_iff.mp same
          cases done

/-! ### Lines without a fault -/

/-- How a statement is placed without a fault: the state with the symbols of the line, before the
location counter moves past it, and the content of the line. -/
inductive Placement (layout : Layout) (number : Nat) : Statement → Layout → Content → Prop where
  | blank : Placement layout number .blank layout .blank
  | comment : Placement layout number .comment layout .text
  | label {name : Text} {labelled : Layout}
      (accepted : layout.label (some name) number = .ok labelled) :
      Placement layout number (.label name) labelled .text
  | constant {name value : Text} {evaluated : Value} {defining : Layout}
      (evaluation : Expr.evaluate value layout.counter layout.symbols.value? = .ok evaluated)
      (defined : layout.define ⟨name, evaluated.known?, number⟩ .constant = .ok defining) :
      Placement layout number (.constant name value) defining (.constant name evaluated)
  | origin {label? : Option Text} {address : Text} {origin : Word} {labelled : Layout}
      (evaluation : Data.immediate address layout.counter layout.symbols.value? = .ok origin)
      (accepted : label { layout with counter := origin } label? number = .ok labelled) :
      Placement layout number (.origin label? address) labelled (.origin origin)
  | data {label? : Option Text} {directive : Directive} {items : Text} {labelled : Layout}
      {fields : List Field} (accepted : layout.label label? number = .ok labelled)
      (produced : Data.fields directive items labelled.counter labelled.symbols.value? =
        .ok fields) :
      Placement layout number (.data label? directive items) labelled (.code fields)
  | instruction {label? : Option Text} {operator : Text} {operands : Operands}
      {labelled : Layout} {fields : List Field}
      (accepted : layout.label label? number = .ok labelled)
      (produced : encode operator operands labelled.counter labelled.symbols.value? =
        .ok fields) :
      Placement layout number (.instruction label? operator operands) labelled (.code fields)

theorem labelThen_eq_ok_iff {layout placed : Layout} {label? : Option Text} {number : Nat}
    {rest : Layout → Except Fault Content} {content : Content} :
    layout.labelThen label? number rest = (placed, .ok content) ↔
      layout.label label? number = .ok placed ∧ rest placed = .ok content := by
  unfold labelThen
  cases layout.label label? number with
  | error fault => simp
  | ok labelled =>
      simp only [Prod.mk.injEq, Except.ok.injEq]
      constructor
      · rintro ⟨rfl, done⟩
        exact ⟨rfl, done⟩
      · rintro ⟨rfl, done⟩
        exact ⟨rfl, done⟩

theorem placement_of_place {layout placed : Layout} {number : Nat} {statement : Statement}
    {content : Content} (result : layout.place number statement = (placed, .ok content)) :
    Placement layout number statement placed content := by
  cases statement with
  | blank =>
      cases result
      exact .blank
  | comment =>
      cases result
      exact .comment
  | label name =>
      obtain ⟨accepted, done⟩ := labelThen_eq_ok_iff.mp result
      cases done
      exact .label accepted
  | constant name value =>
      simp only [place] at result
      cases placing : layout.constant name value number with
      | error fault => rw [placing] at result; cases result
      | ok produced =>
          rw [placing] at result
          cases result
          obtain ⟨evaluated, evaluation, rest⟩ := bind_eq_ok_iff.mp placing
          obtain ⟨defining, defined, done⟩ := bind_eq_ok_iff.mp rest
          cases done
          exact .constant evaluation defined
  | origin label? address =>
      simp only [place] at result
      cases evaluation : Data.immediate address layout.counter layout.symbols.value? with
      | error fault => rw [evaluation] at result; cases result
      | ok origin =>
          rw [evaluation] at result
          obtain ⟨accepted, done⟩ := labelThen_eq_ok_iff.mp result
          cases done
          exact .origin evaluation accepted
  | data label? directive items =>
      obtain ⟨accepted, rest⟩ := labelThen_eq_ok_iff.mp result
      obtain ⟨fields, produced, done⟩ := bind_eq_ok_iff.mp rest
      cases done
      exact .data accepted produced
  | instruction label? operator operands =>
      obtain ⟨accepted, rest⟩ := labelThen_eq_ok_iff.mp result
      obtain ⟨fields, produced, done⟩ := bind_eq_ok_iff.mp rest
      cases done
      exact .instruction accepted produced

/-- **What a line without a fault did.** It was classified, and its statement was placed. -/
theorem step_placement {layout : Layout} {number : Nat} {source : Text}
    (clean : (layout.step number source).2.isFault = false) :
    ∃ statement placed, Statement.classify source = .ok statement ∧
      Placement layout number statement placed (layout.step number source).2.content ∧
      (layout.step number source).2.address = placed.counter ∧
      (layout.step number source).1.symbols = placed.symbols := by
  rw [step_line] at clean
  rw [step_symbols, step_line]
  unfold outcome at clean ⊢
  cases classified : Statement.classify source with
  | error fault => rw [classified] at clean; cases clean
  | ok statement =>
      rw [classified] at clean
      cases result : layout.place number statement with
      | mk placed produced =>
          simp only [result] at clean ⊢
          cases produced with
          | error fault => cases clean
          | ok content =>
              exact ⟨statement, placed, rfl, placement_of_place result, rfl, rfl⟩

/-! ### All lines -/

theorem steps_append (layout : Layout) (number : Nat) (first second : List Text) :
    layout.steps number (first ++ second) =
      let middle := layout.steps number first
      let final := middle.1.steps (number + first.length) second
      (final.1, middle.2 ++ final.2) := by
  induction first generalizing layout number with
  | nil => rfl
  | cons source rest ih =>
      have moved : number + 1 + rest.length = number + (source :: rest).length := by
        simp only [List.length_cons]
        omega
      simp only [List.cons_append, steps, ih, moved]

theorem length_steps (layout : Layout) (number : Nat) (source : List Text) :
    (layout.steps number source).2.length = source.length := by
  induction source generalizing layout number with
  | nil => rfl
  | cons text rest ih => simp only [steps, List.length_cons, ih]

/-- The state of the first pass before the line at a position, counted from zero. -/
def before (origin : Word) (source : List Text) (index : Nat) : Layout :=
  ((start origin).steps 1 (source.take index)).1

variable {origin : Word} {source : List Text} {index : Nat} {text : Text}

theorem before_length : before origin source source.length = (ofSource origin source).1 := by
  rw [before, List.take_length, ofSource]

/-- A step leads from the state before a line to the state before the next one. -/
theorem before_succ (present : source[index]? = some text) :
    before origin source (index + 1) = ((before origin source index).step (index + 1) text).1 := by
  obtain ⟨below, rfl⟩ := List.getElem?_eq_some_iff.mp present
  have counted : 1 + (source.take index).length = index + 1 := by
    rw [List.length_take]
    omega
  rw [before, List.take_succ_eq_append_getElem below, steps_append]
  simp only [steps, counted, before]

/-- The line at a position is the one that the step from the state before it yields. -/
theorem ofSource_getElem? (origin : Word) (source : List Text) (index : Nat) :
    (ofSource origin source).2[index]? =
      source[index]?.map fun text => ((before origin source index).step (index + 1) text).2 := by
  cases present : source[index]? with
  | none =>
      rw [Option.map_none, List.getElem?_eq_none_iff, ofSource, length_steps]
      exact List.getElem?_eq_none_iff.mp present
  | some text =>
      obtain ⟨below, rfl⟩ := List.getElem?_eq_some_iff.mp present
      have counted : 1 + (source.take index).length = index + 1 := by
        rw [List.length_take]
        omega
      have placed : ((start origin).steps 1 (source.take index)).2.length = index := by
        rw [length_steps, List.length_take]
        omega
      have whole : (ofSource origin source).2 =
          ((start origin).steps 1 (source.take index)).2 ++
            ((before origin source index).steps (index + 1) (source.drop index)).2 := by
        conv_lhs => rw [ofSource, ← List.take_append_drop index source, steps_append, counted]
        rfl
      rw [whole, List.getElem?_append_right (by omega), placed, Nat.sub_self,
        List.drop_eq_getElem_cons below]
      rfl

theorem length_ofSource (origin : Word) (source : List Text) :
    (ofSource origin source).2.length = source.length :=
  length_steps _ _ _

/-- A property of the state that holds at the start and that every step preserves holds before
every line. -/
theorem before_induction {motive : Nat → Layout → Prop} (base : motive 0 (start origin))
    (advance : ∀ index text layout, source[index]? = some text →
      layout = before origin source index → motive index layout →
      motive (index + 1) (layout.step (index + 1) text).1)
    (bounded : index ≤ source.length) : motive index (before origin source index) := by
  induction index with
  | zero => exact base
  | succ index ih =>
      have present : source[index]? = some source[index] := List.getElem?_eq_getElem (by omega)
      rw [before_succ present]
      exact advance index _ _ present rfl (ih (by omega))

/-- Symbols are never lost or changed in the course of the first pass. -/
theorem before_grows {first second : Nat} (inOrder : first ≤ second)
    (bounded : second ≤ source.length) :
    (before origin source first).symbols.Grows (before origin source second).symbols := by
  induction second, inOrder using Nat.le_induction with
  | base => exact .refl _
  | succ second _ ih =>
      have present : source[second]? = some source[second] := List.getElem?_eq_getElem (by omega)
      have last := (step_effect (before origin source second) (second + 1) source[second]).grows
      rw [← before_succ present] at last
      exact (ih (by omega)).trans last

/-- The symbols before a line were defined on earlier lines. -/
theorem line_le_of_find?_before (bounded : index ≤ source.length) {name : Text} {symbol : Symbol}
    (found : (before origin source index).symbols.find? name = some symbol) :
    symbol.line ≤ index := by
  refine before_induction (motive := fun index layout =>
    ∀ name symbol, layout.symbols.find? name = some symbol → symbol.line ≤ index)
    ?_ ?_ bounded name symbol found
  · intro name symbol found
    cases found
  · intro index text layout _ _ ih name symbol found
    rcases (layout.step_effect (index + 1) text).find?_cases found with old | new
    · exact Nat.le_succ_of_le (ih name symbol old)
    · exact Nat.le_of_eq new

/-- A symbol that was defined on a line is found in every state after that line. -/
theorem find?_before_of_line_le {first second : Nat} (inOrder : first ≤ second)
    (bounded : second ≤ source.length) {name : Text} {symbol : Symbol}
    (found : (before origin source second).symbols.find? name = some symbol)
    (early : symbol.line ≤ first) :
    (before origin source first).symbols.find? name = some symbol := by
  induction second, inOrder using Nat.le_induction with
  | base => exact found
  | succ second reached ih =>
      have present : source[second]? = some source[second] := List.getElem?_eq_getElem (by omega)
      rw [before_succ present] at found
      rcases (step_effect _ _ _).find?_cases found with old | new
      · exact ih (by omega) old
      · omega

/-! ### Symbols and lines -/

/-- The symbols agree with the lines placed so far: a constant that waits for a name is a symbol
without a value, defined on its line, and every symbol without a value is such a constant. -/
structure Registered (table : SymbolTable) (lines : List Line) : Prop where
  ordered : table.Ordered
  numbered : (lines.map Line.number).Nodup
  waiting : ∀ line ∈ lines, ∀ name reference,
    line.content = .constant name (.pending reference) →
      table.find? name = some ⟨name, none, line.number⟩
  unsettled : ∀ symbol ∈ table.symbols, symbol.value? = none →
    ∃ line ∈ lines, ∃ reference,
      line.content = .constant symbol.name (.pending reference) ∧ line.number = symbol.line

/-- Two constants that wait for names, on different lines, have different keys. -/
theorem Registered.eq_of_key_eq {table : SymbolTable} {lines : List Line}
    (registered : Registered table lines) {first second : Line} (inFirst : first ∈ lines)
    (inSecond : second ∈ lines) {firstName secondName : Text} {firstRef secondRef : Reference}
    (firstWaits : first.content = .constant firstName (.pending firstRef))
    (secondWaits : second.content = .constant secondName (.pending secondRef))
    (same : Text.upper firstName = Text.upper secondName) : first = second := by
  have firstFound := registered.waiting first inFirst _ _ firstWaits
  have secondFound := registered.waiting second inSecond _ _ secondWaits
  rw [table.find?_congr same, secondFound] at firstFound
  have sameNumber : first.number = second.number :=
    (congrArg Symbol.line (Option.some.inj firstFound)).symm
  exact List.inj_on_of_nodup_map registered.numbered inFirst inSecond sameNumber

/-- Placing one more line keeps the symbols in agreement with the lines. -/
theorem Registered.append {table next : SymbolTable} {lines : List Line} {line : Line}
    (registered : Registered table lines)
    (effect : Effect line.number table next line.address line.content)
    (last : ∀ earlier ∈ lines, earlier.number < line.number) :
    Registered next (lines ++ [line]) := by
  have kept : ∀ {name symbol}, table.find? name = some symbol →
      next.find? name = some symbol := by
    intro name symbol found
    cases effect with
    | silent same plain => exact same ▸ found
    | label name defined plain => exact SymbolTable.find?_of_define_of_some defined found
    | constant name value defined same => exact SymbolTable.find?_of_define_of_some defined found
  have distinct : line.number ∉ lines.map Line.number := by
    intro member
    obtain ⟨earlier, inLines, same⟩ := List.mem_map.mp member
    exact (last earlier inLines).ne same
  refine ⟨effect.ordered registered.ordered, ?_, ?_, ?_⟩
  · rw [List.map_append, List.map_singleton]
    exact List.nodup_append.mpr ⟨registered.numbered, List.nodup_singleton _, by
      intro number inLines other isLast same
      rw [List.mem_singleton.mp isLast] at same
      exact distinct (same ▸ inLines)⟩
  · intro other member name reference waits
    rcases List.mem_append.mp member with old | new
    · exact kept (registered.waiting other old name reference waits)
    · rw [List.mem_singleton] at new
      subst new
      cases effect with
      | silent same plain => exact (plain _ _ waits).elim
      | label label defined plain => exact (plain _ _ waits).elim
      | constant constant value defined same =>
          rw [same] at waits
          cases waits
          exact SymbolTable.find?_of_define_self defined
  · intro symbol member missing
    have fromOld : symbol ∈ table.symbols → ∃ other ∈ lines ++ [line], ∃ reference,
        other.content = .constant symbol.name (.pending reference) ∧
          other.number = symbol.line := by
      intro old
      obtain ⟨other, inLines, found⟩ := registered.unsettled symbol old missing
      exact ⟨other, List.mem_append_left _ inLines, found⟩
    cases effect with
    | silent same plain => exact fromOld (same ▸ member)
    | label label defined plain =>
        rcases (SymbolTable.mem_symbols_of_define defined).mp member with rfl | old
        · cases missing
        · exact fromOld old
    | constant constant value defined same =>
        rcases (SymbolTable.mem_symbols_of_define defined).mp member with rfl | old
        · cases value with
          | known word => cases missing
          | pending reference =>
              exact ⟨line, List.mem_append_right _ List.mem_cons_self, reference, same, rfl⟩
        · exact fromOld old

theorem number_of_getElem? {line : Line}
    (present : (ofSource origin source).2[index]? = some line) : line.number = index + 1 := by
  rw [ofSource_getElem?] at present
  obtain ⟨text, _, rfl⟩ := Option.map_eq_some_iff.mp present
  rfl

/-- Before each line the symbols agree with the lines in front of it. -/
theorem registered_before (bounded : index ≤ source.length) :
    Registered (before origin source index).symbols ((ofSource origin source).2.take index) := by
  refine before_induction (motive := fun index layout =>
    Registered layout.symbols ((ofSource origin source).2.take index)) ?_ ?_ bounded
  · exact ⟨SymbolTable.ordered_empty, List.nodup_nil, by simp,
      by simp [start, SymbolTable.empty]⟩
  · intro index text layout present same registered
    subst same
    have placed := ofSource_getElem? origin source index
    rw [present, Option.map_some] at placed
    rw [List.take_add_one, placed, Option.toList_some]
    apply registered.append (step_effect _ _ _)
    intro earlier member
    obtain ⟨position, inFront, rfl⟩ := List.mem_iff_getElem.mp member
    rw [List.length_take] at inFront
    have found : (ofSource origin source).2[position]? =
        some ((ofSource origin source).2.take index)[position] := by
      rw [List.getElem_take, List.getElem?_eq_getElem (by omega)]
    rw [number_of_getElem? found]
    change position + 1 < index + 1
    omega

/-- **The first pass registers what it defers.** After the first pass the symbols without a value
are the constants that wait for a name. -/
theorem registered_ofSource (origin : Word) (source : List Text) :
    Registered (ofSource origin source).1.symbols (ofSource origin source).2 := by
  have registered := @registered_before origin source source.length (Nat.le_refl _)
  rwa [before_length, List.take_of_length_le (length_ofSource origin source).le] at registered

end Layout

end Msp430
