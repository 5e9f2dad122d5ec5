import Msp430.Proofs.Addressing

/-! # Names that lines define

A line without a fault defines the name that its statement gives it, as a label at
its address or as a constant, and no other (`Layout.step_definition`). Whether a
source can be placed without a refused definition is therefore a matter of its
names alone: they have to be different, and free at the start (`Layout.Room`).
Placing a line keeps that true of the lines after it (`Layout.Room.step`), and a
source that was placed without a fault satisfied it (`Layout.room_of_clean`).
-/

namespace Msp430

/-- The name that a statement defines, as a label or as a constant. -/
def Statement.name? : Statement → Option Text
  | .constant name _ => some name
  | statement => statement.label?

/-- The key of the name that a source line defines. -/
def definedKey? (text : Text) : Option Text :=
  match Statement.classify text with
  | .ok statement => statement.name?.map Text.upper
  | .error _ => none

theorem definedKey?_of_classify {text : Text} {statement : Statement}
    (classified : Statement.classify text = .ok statement) :
    definedKey? text = statement.name?.map Text.upper := by
  rw [definedKey?, classified]

namespace Layout

variable {layout : Layout} {number : Nat} {text : Text}

/-- **What a line without a fault defines:** nothing, a label at its address, or a constant with
the value that its expression has before the line. -/
theorem step_definition (clean : (layout.step number text).2.isFault = false) :
    ∃ statement, Statement.classify text = .ok statement ∧
      ((statement.name? = none ∧ (layout.step number text).1.symbols = layout.symbols) ∨
        (∃ name, statement.name? = some name ∧ statement.label? = some name ∧
          layout.symbols.define ⟨name, some (layout.step number text).2.address, number⟩ .label =
            .ok (layout.step number text).1.symbols) ∨
        ∃ name operand expr, statement = .constant name operand ∧
          Expr.read? operand = some expr ∧
          (layout.step number text).2.content =
            .constant name (expr.value layout.counter layout.symbols.value?) ∧
          layout.symbols.define
            ⟨name, (expr.value layout.counter layout.symbols.value?).known?, number⟩ .constant =
              .ok (layout.step number text).1.symbols) := by
  obtain ⟨statement, placed, classified, placement, address, symbols⟩ := step_placement clean
  refine ⟨statement, classified, ?_⟩
  rw [address, symbols]
  have ofLabel : ∀ {start : Layout} {label? : Option Text}, start.symbols = layout.symbols →
      start.label label? number = .ok placed → statement.name? = label? →
      statement.label? = label? →
      (statement.name? = none ∧ placed.symbols = layout.symbols) ∨
        ∃ name, statement.name? = some name ∧ statement.label? = some name ∧
          layout.symbols.define ⟨name, some placed.counter, number⟩ .label =
            .ok placed.symbols := by
    rintro start label? sameSymbols accepted rfl sameLabel
    rcases label_eq_ok_iff.mp accepted with ⟨unnamed, rfl⟩ | ⟨name, symbols, named, defined, rfl⟩
    · exact .inl ⟨unnamed, sameSymbols⟩
    · rw [sameSymbols] at defined
      exact .inr ⟨name, named, sameLabel.trans named, defined⟩
  generalize (layout.step number text).2.content = content at placement
  cases placement with
  | blank => exact .inl ⟨rfl, rfl⟩
  | comment => exact .inl ⟨rfl, rfl⟩
  | label accepted => exact (ofLabel rfl accepted rfl rfl).imp_right .inl
  | @origin label? address word labelled evaluation accepted =>
      exact (@ofLabel { layout with counter := word } label? rfl accepted rfl rfl).imp_right .inl
  | data accepted produced => exact (ofLabel rfl accepted rfl rfl).imp_right .inl
  | instruction accepted produced => exact (ofLabel rfl accepted rfl rfl).imp_right .inl
  | @constant name operand evaluated defining evaluation defined =>
      obtain ⟨expr, read, rfl⟩ := Expr.evaluate_eq_ok_iff.mp evaluation
      obtain ⟨symbols, accepted, done⟩ := bind_eq_ok_iff.mp defined
      cases done
      exact .inr (.inr ⟨name, operand, expr, rfl, read, rfl, accepted⟩)

/-- What becomes of the definition of a constant. -/
theorem step_constant {name operand : Text}
    (classified : Statement.classify text = .ok (.constant name operand))
    (clean : (layout.step number text).2.isFault = false) :
    ∃ expr, Expr.read? operand = some expr ∧
      (layout.step number text).2.content =
        .constant name (expr.value layout.counter layout.symbols.value?) ∧
      layout.symbols.define
        ⟨name, (expr.value layout.counter layout.symbols.value?).known?, number⟩ .constant =
          .ok (layout.step number text).1.symbols := by
  obtain ⟨statement, same, kinds⟩ := step_definition clean
  rw [classified] at same
  cases same
  rcases kinds with ⟨⟨⟩, _⟩ | ⟨_, _, ⟨⟩, _⟩ | ⟨_, _, expr, ⟨⟩, defined⟩
  exact ⟨expr, defined⟩

/-- Only a line that says so becomes a constant. -/
theorem exists_of_constant {name : Text} {value : Value}
    (constant : (layout.step number text).2.content = .constant name value) :
    ∃ operand expr, Statement.classify text = .ok (.constant name operand) ∧
      Expr.read? operand = some expr ∧
      value = expr.value layout.counter layout.symbols.value? := by
  have clean : (layout.step number text).2.isFault = false := by
    rw [Line.isFault, constant]
    rfl
  obtain ⟨statement, placed, classified, placement, _⟩ := step_placement clean
  rw [constant] at placement
  cases placement with
  | constant evaluation defined =>
      obtain ⟨expr, read, same⟩ := Expr.evaluate_eq_ok_iff.mp evaluation
      exact ⟨_, expr, classified, read, same⟩

/-- A line without a fault defines the name that it says it does, and nothing else. -/
theorem step_defines (clean : (layout.step number text).2.isFault = false) :
    (definedKey? text = none ∧ (layout.step number text).1.symbols = layout.symbols) ∨
      ∃ symbol kind, definedKey? text = some symbol.key ∧
        layout.symbols.define symbol kind = .ok (layout.step number text).1.symbols := by
  obtain ⟨statement, classified, kinds⟩ := step_definition clean
  rw [definedKey?_of_classify classified]
  rcases kinds with ⟨unnamed, same⟩ | ⟨name, named, _, defined⟩ |
    ⟨name, operand, expr, rfl, _, _, defined⟩
  · exact .inl ⟨by rw [unnamed]; rfl, same⟩
  · exact .inr ⟨_, _, by rw [named]; rfl, defined⟩
  · exact .inr ⟨_, _, rfl, defined⟩

/-- There is room in a state of the first pass for the names that lines define: they are different
from each other, and none of them is taken. -/
structure Room (layout : Layout) (source : List Text) : Prop where
  distinct : (source.filterMap definedKey?).Nodup
  free : ∀ name, Text.upper name ∈ source.filterMap definedKey? →
    layout.symbols.find? name = none

/-- A line takes its own name only. -/
theorem Room.step {rest : List Text} (room : layout.Room (text :: rest))
    (clean : (layout.step number text).2.isFault = false) :
    (layout.step number text).1.Room rest := by
  rcases step_defines clean with ⟨unnamed, same⟩ | ⟨symbol, kind, named, defined⟩
  · obtain ⟨distinct, free⟩ := room
    rw [List.filterMap_cons_none unnamed] at distinct free
    exact ⟨distinct, same.symm ▸ free⟩
  · obtain ⟨distinct, free⟩ := room
    rw [List.filterMap_cons_some named] at distinct free
    obtain ⟨different, restDistinct⟩ := List.nodup_cons.mp distinct
    refine ⟨restDistinct, ?_⟩
    intro name member
    rw [SymbolTable.find?_of_define defined, if_neg]
    · exact free name (List.mem_cons_of_mem _ member)
    · intro same
      exact different (same ▸ member)

/-- Lines that were placed without a fault had room for their names. -/
theorem room_of_clean {source : List Text}
    (clean : ∀ line ∈ (layout.steps number source).2, line.isFault = false) :
    layout.Room source := by
  induction source generalizing layout number with
  | nil => exact ⟨List.nodup_nil, fun _ member => by cases member⟩
  | cons text rest ih =>
      have head : (layout.step number text).2.isFault = false := clean _ List.mem_cons_self
      have room : (layout.step number text).1.Room rest :=
        ih fun line member => clean line (List.mem_cons_of_mem _ member)
      rcases step_defines head with ⟨unnamed, same⟩ | ⟨symbol, kind, named, defined⟩
      · obtain ⟨distinct, free⟩ := room
        refine ⟨?_, ?_⟩
        · rwa [List.filterMap_cons_none unnamed]
        · rwa [List.filterMap_cons_none unnamed, ← same]
      · -- What is free after the line was free before it, and the line took its own name.
        have taken := SymbolTable.find?_of_define_self defined
        refine ⟨?_, ?_⟩
        · rw [List.filterMap_cons_some named, List.nodup_cons]
          refine ⟨fun again => ?_, room.distinct⟩
          rw [room.free symbol.name again] at taken
          cases taken
        · intro name member
          rw [List.filterMap_cons_some named, List.mem_cons] at member
          rcases member with own | later
          · rw [layout.symbols.find?_congr own]
            exact (SymbolTable.define_eq_ok_iff.mp defined).2.1
          · cases found : layout.symbols.find? name with
            | none => rfl
            | some old =>
                have kept := SymbolTable.find?_of_define_of_some defined found
                rw [room.free name later] at kept
                cases kept

end Layout

end Msp430
