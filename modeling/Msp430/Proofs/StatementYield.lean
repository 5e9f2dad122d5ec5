import Msp430.Proofs.ConstantValues

/-! # What a statement yields

A line is placed with the symbols of the first pass and finished with those of the
second. What comes of it depends on much less: on the final values of the names in
its operands and, for an origin or reserved space, on the values that its names
have at the line (`Statement.Yields`). A line without a fault yields its final
address and content (`Statement.yields_of_step`), and a line whose statement yields
something, and whose label can be defined, becomes that (`Statement.step_of_yields`).
How much of the operands the first pass could resolve does not show.
-/

namespace Msp430

/-! ### Items of data lists -/

namespace Data

variable {item : Text} {here : Word} {early final : Resolver}

/-- An item of a word list that has a value in the end is read early and completed to it. -/
theorem exists_wordItem (grown : final.Extends early) {word : Word}
    (denoted : Expr.Denotes item here final.orPeripheral word) :
    ∃ field, wordItem here early item = .ok field ∧
      Settlement.completeField final field = .ok (.word (.known word)) := by
  obtain ⟨expr, read, outcome⟩ := denoted
  rw [← Expr.outcome_eq_ok_iff] at outcome
  refine ⟨.word (expr.value here early), ?_, ?_⟩
  · rw [wordItem, Expr.evaluate_eq_ok_iff.mpr ⟨expr, read, rfl⟩]
    rfl
  · rw [Settlement.completeField_eq_resolve (fun _ => Field.noConfusion),
      Field.resolve_word_value grown, outcome]
    rfl

/-- An item of a byte list that has bytes in the end is read early and completed to them. -/
theorem exists_byteItem (grown : final.Extends early) {resolved : List Field}
    (denoted : ByteItem here final.orPeripheral item resolved) :
    ∃ fields, byteItem here early item = .ok fields ∧
      fields.mapM (Settlement.completeField final) = .ok resolved := by
  unfold ByteItem at denoted
  unfold byteItem
  cases quoted : unquote? item with
  | some text =>
      rw [quoted] at denoted
      subst denoted
      refine ⟨_, rfl, Settlement.mapM_completeField_of_ready ?_ final⟩
      intro field member
      obtain ⟨byte, _, rfl⟩ := List.mem_map.mp member
      rfl
  | none =>
      rw [quoted] at denoted
      obtain ⟨word, ⟨expr, read, outcome⟩, small, rfl⟩ := denoted
      rw [← Expr.outcome_eq_ok_iff] at outcome
      have known : ∀ datum, expr.value here early = .known datum → datum.toNat < 256 := by
        intro datum value
        rw [Expr.outcome_of_value_eq_known grown value] at outcome
        cases outcome
        exact small
      refine ⟨[.byte (expr.value here early)], ?_, ?_⟩
      · have fits : fitsByte (expr.value here early) = true := by
          cases value : expr.value here early with
          | known datum => simpa [fitsByte, Value.known?] using known datum value
          | pending reference => rfl
        simp only [Expr.evaluate_eq_ok_iff.mpr ⟨expr, read, rfl⟩, bind, Except.bind, fits,
          ↓reduceIte]
        rfl
      · have completed : Settlement.completeField final (.byte (expr.value here early)) =
            .ok (.byte (.known word)) := by
          rw [Settlement.completeField_eq_resolve
              (fun datum same => known datum (Field.byte.inj same)), Field.resolve,
            Expr.settle_value grown, outcome]
          simp only [bind, Except.bind, small, ↓reduceIte]
          rfl
        rw [List.mapM_cons, completed]
        rfl

/-- A word list is read and completed exactly to the words that its items denote in the end. -/
theorem words_complete_iff (grown : final.Extends early) {items : Text} {resolved : List Field} :
    (∃ fields, Data.fields .word items here early = .ok fields ∧
        fields.mapM (Settlement.completeField final) = .ok resolved) ↔
      List.Forall₂ (fun item field => ∃ word, Expr.Denotes item here final.orPeripheral word ∧
          field = .word (.known word)) (Scan.splitList items) resolved := by
  constructor
  · rintro ⟨fields, read, completed⟩
    refine (forall₂_of_mapM_mapM read completed).imp ?_
    rintro item field ⟨between, itemRead, itemCompleted⟩
    exact denotes_of_wordItem grown itemRead itemCompleted
  · intro denoted
    apply exists_mapM_of_forall₂
    refine denoted.imp ?_
    rintro item field ⟨word, itemDenoted, rfl⟩
    exact exists_wordItem grown itemDenoted

/-- A byte list is read and completed exactly to the bytes that its items have in the end. -/
theorem bytes_complete_iff (grown : final.Extends early) {items : Text} {resolved : List Field} :
    (∃ fields, Data.fields .byte items here early = .ok fields ∧
        fields.mapM (Settlement.completeField final) = .ok resolved) ↔
      ∃ parts, resolved = parts.flatten ∧
        List.Forall₂ (ByteItem here final.orPeripheral) (Scan.splitList items) parts := by
  constructor
  · rintro ⟨fields, read, completed⟩
    obtain ⟨parts, partsRead, joined⟩ := bind_eq_ok_iff.mp read
    cases joined
    obtain ⟨finalParts, partsCompleted, rfl⟩ := exists_parts_of_mapM_flatten completed
    refine ⟨finalParts, rfl, (forall₂_of_mapM_mapM partsRead partsCompleted).imp ?_⟩
    rintro item part ⟨between, itemRead, itemCompleted⟩
    exact byteItem_of_mapM grown itemRead itemCompleted
  · rintro ⟨parts, rfl, denoted⟩
    obtain ⟨early, read, completed⟩ := exists_mapM_of_forall₂
      (denoted.imp fun item part itemDenoted => exists_byteItem grown itemDenoted)
    refine ⟨early.flatten, ?_, mapM_flatten_of_forall₂ (mapM_eq_ok_iff.mp completed)⟩
    rw [Data.fields, read]
    rfl

end Data

/-- An instruction is encoded and completed exactly to what the final values make of it. -/
theorem encode_complete_iff {early final : Resolver} (grown : final.Extends early) {operator : Text}
    {operands : Operands} {here : Word} {resolved : List Field} :
    (∃ fields, encode operator operands here early = .ok fields ∧
        fields.mapM (Settlement.completeField final) = .ok resolved) ↔
      (encode operator operands here final >>= List.mapM (Field.resolve final)) = .ok resolved := by
  rw [← encode_resolve grown, bind_eq_ok_iff]
  refine exists_congr fun fields => and_congr_right fun encoded => ?_
  obtain ⟨image, _, produced⟩ := bind_eq_ok_iff.mp encoded
  have agree : ∀ field ∈ fields, Settlement.completeField final field = field.resolve final :=
    fun field member => Settlement.completeField_eq_resolve
      (fun _ byte => (Image.ne_byte_of_fields produced field member _ byte).elim) _
  rw [mapM_congr_of_mem agree]

/-! ### Finished lines of each kind -/

namespace Line

/-- A line of code without a fault has all its fields completed. -/
theorem exists_resolved_of_code {line : Line} {table : SymbolTable} {fields : List Field}
    (code : line.content = .code fields) (clean : (line.finished table).isFault = false) :
    ∃ resolved, fields.mapM (Settlement.completeField table.value?) = .ok resolved ∧
      (line.finished table).content = .code resolved := by
  rcases finished_cases clean with ⟨_, noCode⟩ | ⟨_, _, _, before, _⟩ |
    ⟨others, resolved, before, completed, after⟩
  · exact (noCode fields code).elim
  · rw [code] at before
    cases before
  · rw [code] at before
    cases before
    exact ⟨resolved, completed, after⟩

/-- A line that is neither code nor a constant stays as it is. -/
theorem finished_of_plain {line : Line} {content : Content} (same : line.content = content)
    (noConstant : ∀ name value, content ≠ .constant name value)
    (noCode : ∀ fields, content ≠ .code fields) (table : SymbolTable) :
    (line.finished table).content = content := by
  subst same
  have plain : line.waiting? = none := by
    unfold waiting?
    split
    case h_1 name reference content => exact (noConstant _ _ content).elim
    case h_2 => rfl
  rw [finished_of_none plain]
  change Settlement.complete table.value? line.content = line.content
  unfold Settlement.complete
  split
  case h_1 name value content => exact (noConstant _ _ content).elim
  case h_2 fields content => exact (noCode _ content).elim
  case h_3 => rfl

theorem finished_of_completed {line : Line} {table : SymbolTable} {fields resolved : List Field}
    (code : line.content = .code fields)
    (completed : fields.mapM (Settlement.completeField table.value?) = .ok resolved) :
    (line.finished table).content = .code resolved := by
  rw [finished_of_code code, completed]
  rfl

end Line

/-! ### Statements -/

namespace Statement

/-- What a statement other than a constant yields when the location counter stands as given: its
address and its content. The names of an origin have the values before the line and those of
reserved space the values after it; all others have their final values. -/
inductive Yields (before after final : Resolver) (counter : Word) :
    Statement → Word → Content → Prop where
  | blank : Yields before after final counter .blank counter .blank
  | comment : Yields before after final counter .comment counter .text
  | label {name : Text} : Yields before after final counter (.label name) counter .text
  | origin {label? : Option Text} {operand : Text} {address : Word}
      (evaluation : Data.immediate operand counter before = .ok address) :
      Yields before after final counter (.origin label? operand) address (.origin address)
  | space {label? : Option Text} {items : Text} {count : Word}
      (evaluation : Data.immediate items counter after = .ok count) :
      Yields before after final counter (.data label? .space items) counter
        (.code [.reserve count])
  | words {label? : Option Text} {items : Text} {fields : List Field}
      (denoted : List.Forall₂ (fun item field => ∃ word,
          Expr.Denotes item counter final.orPeripheral word ∧ field = .word (.known word))
        (Scan.splitList items) fields) :
      Yields before after final counter (.data label? .word items) counter (.code fields)
  | bytes {label? : Option Text} {items : Text} {parts : List (List Field)}
      (denoted : List.Forall₂ (Data.ByteItem counter final.orPeripheral)
        (Scan.splitList items) parts) :
      Yields before after final counter (.data label? .byte items) counter (.code parts.flatten)
  | instruction {label? : Option Text} {operator : Text} {operands : Operands}
      {fields : List Field}
      (encoded : (encode operator operands counter final >>= List.mapM (Field.resolve final)) =
        .ok fields) :
      Yields before after final counter (.instruction label? operator operands) counter
        (.code fields)

/-- Two states of the symbols before and after a line do the same if the names that the line needs
at once have the same values. -/
theorem Yields.congr {before after final otherBefore otherAfter : Resolver} {counter address : Word}
    {statement : Statement} {content : Content}
    (yields : statement.Yields before after final counter address content)
    (agree : ∀ operand expr, statement.immediate? = some operand → Expr.read? operand = some expr →
      ∀ name ∈ expr.names, before name = otherBefore name ∧ after name = otherAfter name) :
    statement.Yields otherBefore otherAfter final counter address content := by
  have immediate : ∀ {operand : Text} {first second : Resolver} {word : Word},
      (∀ expr, Expr.read? operand = some expr → ∀ name ∈ expr.names, first name = second name) →
      Data.immediate operand counter first = .ok word →
      Data.immediate operand counter second = .ok word := by
    intro operand first second word same evaluation
    obtain ⟨expr, read, outcome⟩ := Data.immediate_eq_ok_iff.mp evaluation
    refine Data.immediate_eq_ok_iff.mpr ⟨expr, read, ?_⟩
    rw [← outcome]
    refine Expr.outcome_congr (fun name member => ?_) (.inr rfl)
    simp only [Resolver.orPeripheral, same expr read name member]
  cases yields with
  | blank => exact .blank
  | comment => exact .comment
  | label => exact .label
  | origin evaluation =>
      refine .origin (immediate (fun expr read name member => ?_) evaluation)
      exact (agree _ expr rfl read name member).1
  | space evaluation =>
      refine .space (immediate (fun expr read name member => ?_) evaluation)
      exact (agree _ expr rfl read name member).2
  | words denoted => exact .words denoted
  | bytes denoted => exact .bytes denoted
  | instruction encoded => exact .instruction encoded

variable {layout : Layout} {number : Nat} {text : Text} {final : SymbolTable}

/-- **A line without a fault becomes what its statement yields.** -/
theorem yields_of_step {statement : Statement} (classified : classify text = .ok statement)
    (plain : ∀ name operand, statement ≠ .constant name operand)
    (grown : final.value?.Extends (layout.step number text).1.symbols.value?)
    (clean : ((layout.step number text).2.finished final).isFault = false) :
    statement.Yields layout.symbols.value? (layout.step number text).1.symbols.value? final.value?
      layout.counter (layout.step number text).2.address
      ((layout.step number text).2.finished final).content := by
  obtain ⟨same, placed, sameClassified, placement, address, symbols⟩ :=
    Layout.step_placement (Line.isFault_of_finished clean)
  rw [classified] at sameClassified
  cases sameClassified
  rw [symbols] at grown ⊢
  rw [address]
  generalize (layout.step number text).2 = line at placement clean
  generalize content : line.content = early at placement
  cases placement with
  | blank =>
      rw [Line.finished_of_plain content (fun _ _ => Content.noConfusion)
        (fun _ => Content.noConfusion)]
      exact .blank
  | comment =>
      rw [Line.finished_of_plain content (fun _ _ => Content.noConfusion)
        (fun _ => Content.noConfusion)]
      exact .comment
  | label accepted =>
      rw [Line.finished_of_plain content (fun _ _ => Content.noConfusion)
        (fun _ => Content.noConfusion), Layout.counter_of_label accepted]
      exact .label
  | constant evaluation defined => exact (plain _ _ rfl).elim
  | origin evaluation accepted =>
      rw [Line.finished_of_plain content (fun _ _ => Content.noConfusion)
        (fun _ => Content.noConfusion), Layout.counter_of_label accepted]
      exact .origin evaluation
  | @data label? directive items _ fields accepted produced =>
      obtain ⟨resolved, completed, after⟩ := Line.exists_resolved_of_code content clean
      rw [after, Layout.counter_of_label accepted]
      rw [Layout.counter_of_label accepted] at produced
      cases directive with
      | space =>
          obtain ⟨count, evaluation, made⟩ := bind_eq_ok_iff.mp produced
          cases made
          cases completed
          exact .space evaluation
      | word => exact .words ((Data.words_complete_iff grown).mp ⟨fields, produced, completed⟩)
      | byte =>
          obtain ⟨parts, rfl, denoted⟩ :=
            (Data.bytes_complete_iff grown).mp ⟨fields, produced, completed⟩
          exact .bytes denoted
  | instruction accepted produced =>
      obtain ⟨resolved, completed, after⟩ := Line.exists_resolved_of_code content clean
      rw [after, Layout.counter_of_label accepted]
      rw [Layout.counter_of_label accepted] at produced
      exact .instruction ((encode_complete_iff grown).mp ⟨_, produced, completed⟩)

/-- **A line whose statement yields something becomes that,** if its label can be defined at its
address. -/
theorem step_of_yields {statement : Statement} {address : Word} {content : Content}
    {labelled : Layout} (classified : classify text = .ok statement)
    (accepted : Layout.label { layout with counter := address } statement.label? number =
      .ok labelled)
    (grown : final.value?.Extends labelled.symbols.value?)
    (yields : statement.Yields layout.symbols.value? labelled.symbols.value? final.value?
      layout.counter address content) :
    ((layout.step number text).2.finished final).content = content ∧
      (layout.step number text).1 = { labelled with counter := address + content.size } := by
  have counter : labelled.counter = address := Layout.counter_of_label accepted
  have noFault : content.isFault = false := by cases yields <;> rfl
  have ofPlace : ∀ {early : Content}, layout.place number statement = (labelled, .ok early) →
      (Line.finished final ⟨number, labelled.counter, text, early⟩).content = content →
      ((layout.step number text).2.finished final).content = content ∧
        (layout.step number text).1 = { labelled with counter := address + content.size } := by
    intro early placed finished
    have step : layout.step number text =
        ({ labelled with counter := labelled.counter + early.size },
          ⟨number, labelled.counter, text, early⟩) := by
      simp only [Layout.step, classified, placed, Content.ofResult]
    have clean : (Line.finished final ⟨number, labelled.counter, text, early⟩).isFault = false := by
      rw [Line.isFault, finished, noFault]
    have size := (Line.finished_layout clean).2.1
    rw [finished] at size
    rw [step, size, ← counter]
    exact ⟨finished, rfl⟩
  cases yields with
  | blank =>
      cases accepted
      exact ofPlace rfl rfl
  | comment =>
      cases accepted
      exact ofPlace rfl rfl
  | label => exact ofPlace (Layout.labelThen_eq_ok_iff.mpr ⟨accepted, rfl⟩) rfl
  | origin evaluation =>
      refine @ofPlace (.origin address) ?_ rfl
      simp only [Layout.place, evaluation]
      exact Layout.labelThen_eq_ok_iff.mpr ⟨accepted, rfl⟩
  | @space label? items count evaluation =>
      refine @ofPlace (.code [.reserve count]) (Layout.labelThen_eq_ok_iff.mpr ⟨accepted, ?_⟩) rfl
      rw [Data.fields, counter, evaluation]
      rfl
  | words denoted =>
      obtain ⟨fields, read, completed⟩ := (Data.words_complete_iff grown).mpr denoted
      refine ofPlace (Layout.labelThen_eq_ok_iff.mpr ⟨accepted, ?_⟩)
        (Line.finished_of_completed rfl completed)
      rw [counter, read]
      rfl
  | bytes denoted =>
      obtain ⟨fields, read, completed⟩ := (Data.bytes_complete_iff grown).mpr ⟨_, rfl, denoted⟩
      refine ofPlace (Layout.labelThen_eq_ok_iff.mpr ⟨accepted, ?_⟩)
        (Line.finished_of_completed rfl completed)
      rw [counter, read]
      rfl
  | instruction encoded =>
      obtain ⟨fields, read, completed⟩ := (encode_complete_iff grown).mpr encoded
      refine ofPlace (Layout.labelThen_eq_ok_iff.mpr ⟨accepted, ?_⟩)
        (Line.finished_of_completed rfl completed)
      rw [counter, read]
      rfl

end Statement

end Msp430
