import Msp430.Proofs.DefiningLines

/-! # Lines with a fault

A line that ends as a fault in the first pass should leave no trace but its label.
What it leaves is a `Layout.Remnant`: nothing, the label that stood in front of the
fault, or a moved counter. The last happens on one kind of line only, an origin
whose address is known and whose label is taken (`Layout.Strays`), because the
counter moves before the label is defined. Every fault leaves one of the three
(`Layout.step_remnant`), and a straying line leaves the moved counter
(`Layout.step_of_strays`). So faults keep the counter and all symbols but the label
of the line, with that exception (`Layout.step_isFault`).
-/

namespace Msp430

namespace Layout

variable {layout placed : Layout} {number : Nat} {source : Text} {origin : Word}

/-! ### Straying lines -/

/-- A line that moves the counter before its label is refused: an origin with a known address, under
a name that is defined already. -/
def Strays (layout : Layout) (source : Text) (origin : Word) : Prop :=
  ∃ name address, Statement.classify source = .ok (.origin (some name) address) ∧
    Data.immediate address layout.counter layout.symbols.value? = .ok origin ∧
    (layout.symbols.find? name).isSome = true

/-- The label of a line is refused exactly if its name is defined already. -/
theorem label_eq_error_iff (layout : Layout) (number : Nat) {statement : Statement} {name : Text}
    (classified : Statement.classify source = .ok statement) (named : statement.name? = some name) :
    (∃ fault, layout.label (some name) number = .error fault) ↔
      (layout.symbols.find? name).isSome = true := by
  have identifier := (Statement.name?_sound classified named).2.2
  simp only [label, define, SymbolTable.define, identifier]
  cases found : layout.symbols.find? name <;> simp [bind, Except.bind, pure, Except.pure]

theorem step_of_outcome {fault : Fault}
    (failed : layout.outcome number source = (placed, .error fault)) :
    layout.step number source = (placed, ⟨number, placed.counter, source, .fault fault⟩) := by
  have unmoved : placed.counter + (0 : Word) = placed.counter := BitVec.add_zero _
  rw [step_eq, failed]
  simp only [Content.ofResult, Content.size, unmoved]

/-- **A straying line** is a fault that leaves the symbols alone and the counter at its origin. -/
theorem step_of_strays (number : Nat) (strays : layout.Strays source origin) :
    (layout.step number source).2.isFault = true ∧
      (layout.step number source).1 = { layout with counter := origin } := by
  obtain ⟨name, address, classified, evaluated, taken⟩ := strays
  obtain ⟨fault, refused⟩ :=
    (label_eq_error_iff { layout with counter := origin } number classified rfl).mpr taken
  have moved : layout.outcome number source =
      ({ layout with counter := origin }, .error fault) := by
    simp only [outcome, classified, place, evaluated, labelThen, refused]
  rw [step_of_outcome moved]
  exact ⟨rfl, rfl⟩

/-! ### What a fault leaves -/

/-- The state that a line with a fault leaves behind. -/
inductive Remnant (layout : Layout) (number : Nat) (source : Text) : Layout → Prop where
  /-- The line left nothing. -/
  | nothing : Remnant layout number source layout
  /-- The label was defined before the rest of the line failed. -/
  | label {name : Text} {symbols : SymbolTable} (carried : firstColumn? source = some name)
      (defined : layout.symbols.define ⟨name, some layout.counter, number⟩ .label = .ok symbols) :
      Remnant layout number source { layout with symbols }
  /-- The counter was moved before the label was refused. -/
  | counter {origin : Word} (strays : layout.Strays source origin) :
      Remnant layout number source { layout with counter := origin }

/-- A line that goes on behind its label can fail at the label or after it. -/
theorem remnant_of_labelThen {statement : Statement} {rest : Layout → Except Fault Content}
    (classified : Statement.classify source = .ok statement) :
    Remnant layout number source (layout.labelThen statement.label? number rest).1 := by
  unfold labelThen
  cases accepted : layout.label statement.label? number with
  | error refused => exact .nothing
  | ok labelled =>
      rcases label_eq_ok_iff.mp accepted with ⟨_, rfl⟩ | ⟨name, symbols, named, defined, rfl⟩
      · exact .nothing
      · have carried := (Statement.name?_sound classified (Statement.name?_of_label? named)).1
        exact .label carried defined

/-- An origin can fail at its address, and it strays if it fails at its label. -/
theorem remnant_of_origin {label? : Option Text} {address : Text} {fault : Fault}
    (classified : Statement.classify source = .ok (.origin label? address))
    (failed : layout.place number (.origin label? address) = (placed, .error fault)) :
    Remnant layout number source placed := by
  simp only [place] at failed
  cases evaluated : Data.immediate address layout.counter layout.symbols.value? with
  | error cause =>
      rw [evaluated] at failed
      cases failed
      exact .nothing
  | ok origin =>
      rw [evaluated] at failed
      simp only [labelThen] at failed
      cases accepted : label { layout with counter := origin } label? number with
      | ok labelled =>
          rw [accepted] at failed
          cases failed
      | error refused =>
          rw [accepted] at failed
          cases failed
          cases label? with
          | none => cases accepted
          | some name =>
              have taken := (label_eq_error_iff _ number classified rfl).mp ⟨_, accepted⟩
              exact .counter ⟨name, address, classified, evaluated, taken⟩

theorem isFault_of_placement {statement : Statement} {content : Content}
    (placement : Placement layout number statement placed content) : content.isFault = false := by
  cases placement <;> rfl

/-- **What a fault leaves.** Nothing, the label of the line, or, after a straying origin, a moved
counter. -/
theorem step_remnant (fault : (layout.step number source).2.isFault = true) :
    Remnant layout number source (layout.step number source).1 := by
  cases classified : Statement.classify source with
  | error cause =>
      rw [step_of_outcome (show layout.outcome number source = (layout, .error cause) by
        rw [outcome, classified])]
      exact .nothing
  | ok statement =>
      cases result : layout.place number statement with
      | mk placed produced =>
          have placing : layout.outcome number source = (placed, produced) := by
            rw [outcome, classified]
            exact result
          cases produced with
          | ok content =>
              have clean := isFault_of_placement (placement_of_place result)
              rw [step_line, placing] at fault
              change content.isFault = true at fault
              rw [clean] at fault
              cases fault
          | error cause =>
              rw [step_of_outcome placing]
              obtain rfl : (layout.place number statement).1 = placed := congrArg Prod.fst result
              cases statement with
              | blank => exact .nothing
              | comment => exact .nothing
              | label name => exact remnant_of_labelThen classified
              | data label? directive items => exact remnant_of_labelThen classified
              | instruction label? operator operands => exact remnant_of_labelThen classified
              | constant name value =>
                  simp only [place] at result ⊢
                  cases evaluated : layout.constant name value number with
                  | error _ => exact .nothing
                  | ok defined =>
                      rw [evaluated] at result
                      cases result
              | origin label? address =>
                  exact remnant_of_origin classified result

/-- **A fault leaves the counter and the symbols alone, except under a straying origin.** Let a line
end as a fault, in any state of the first pass. The counter stays where it was, unless the line is
an origin with a known address and its label is taken; then the counter is at that address and the
symbols are as they were. Of the symbols none is lost or changed, and the only one that can be new
is the label in the first column of the line, at the counter. -/
theorem step_isFault (fault : (layout.step number source).2.isFault = true) :
    let next := (layout.step number source).1
    (next.counter = layout.counter ↔
        ∀ origin, layout.Strays source origin → origin = layout.counter) ∧
      (∀ origin, layout.Strays source origin →
        next.counter = origin ∧ next.symbols = layout.symbols) ∧
      (∀ symbol ∈ layout.symbols.symbols, symbol ∈ next.symbols.symbols) ∧
      ∀ symbol ∈ next.symbols.symbols, symbol ∈ layout.symbols.symbols ∨
        firstColumn? source = some symbol.name ∧ layout.symbols.find? symbol.name = none ∧
          symbol.value? = some layout.counter ∧ symbol.line = number := by
  intro next
  have moved : ∀ origin, layout.Strays source origin →
      next.counter = origin ∧ next.symbols = layout.symbols := by
    intro origin strays
    have left : next = { layout with counter := origin } := (step_of_strays number strays).2
    rw [left]
    exact ⟨rfl, rfl⟩
  have remnant : Remnant layout number source next := step_remnant fault
  clear_value next
  refine ⟨⟨fun same origin strays => (moved origin strays).1.symm.trans same, fun still => ?_⟩,
    moved, ?_⟩
  · cases remnant with
    | nothing => rfl
    | label carried defined => rfl
    | counter strays => exact still _ strays
  · cases remnant with
    | nothing => exact ⟨fun _ member => member, fun _ member => .inl member⟩
    | counter strays => exact ⟨fun _ member => member, fun _ member => .inl member⟩
    | label carried defined =>
        refine ⟨fun symbol member => (SymbolTable.mem_symbols_of_define defined).mpr (.inr member),
          fun symbol member => ?_⟩
        rcases (SymbolTable.mem_symbols_of_define defined).mp member with rfl | old
        · exact .inr ⟨carried, (SymbolTable.define_eq_ok_iff.mp defined).2.1, rfl, rfl⟩
        · exact .inl old

/-- A byte that does not fit leaves its label. An origin under a label that is taken moves the
counter of the lines behind it. -/
theorem step_isFault_origin :
    let layout := (ofSource 0x0200 ["X NOP".toList]).1
    let short := layout.step 2 "Y DB 300".toList
    let stray := layout.step 2 "X ORG 0x0300".toList
    (short.2.isFault = true ∧ layout.counter = 0x0202 ∧ short.1.counter = 0x0202 ∧
        short.1.symbols.find? "Y".toList = some ⟨"Y".toList, some 0x0202, 2⟩) ∧
      stray.2.isFault = true ∧ stray.1.counter = 0x0300 ∧ stray.1.symbols = layout.symbols := by
  intro layout short stray
  have shortFault : short.2.isFault = true := by decide +kernel
  have strayFault : stray.2.isFault = true := by decide +kernel
  have strays : layout.Strays "X ORG 0x0300".toList 0x0300 :=
    ⟨"X".toList, "0x0300".toList, by decide +kernel, by decide +kernel, by decide +kernel⟩
  have settled : ∀ origin, layout.Strays "Y DB 300".toList origin → origin = layout.counter := by
    rintro origin ⟨name, address, classified, _⟩
    rw [show Statement.classify "Y DB 300".toList =
      .ok (.data (some "Y".toList) .byte "300".toList) by decide +kernel] at classified
    cases classified
  obtain ⟨moved, unchanged⟩ := (step_isFault strayFault).2.1 0x0300 strays
  exact ⟨⟨shortFault, by decide +kernel, (step_isFault shortFault).1.mpr settled,
    by decide +kernel⟩, strayFault, moved, unchanged⟩

end Layout

end Msp430
