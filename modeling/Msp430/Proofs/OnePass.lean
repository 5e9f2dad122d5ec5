import Msp430.Proofs.SettlementRun

/-! # Two passes and one

Each term of each expression is resolved at one of three times, against three
versions of the symbol table. The result is nevertheless the one that a single
pass with the final table would give (`assemble_onePass`): an instruction line
holds what encoding and resolving the instruction with the final table yields,
and a data line holds the values of its items in the final table.
-/

namespace Msp430

/-! ### Accepted labels -/

/-- Whether the label of the line with a number, if it has one, was accepted: the table has the
label as a symbol of that line. -/
def SymbolTable.Accepts (table : SymbolTable) (label? : Option Text) (number : Nat) : Prop :=
  ∀ name, label? = some name → ∃ symbol, table.find? name = some symbol ∧ symbol.line = number

section Accepted

variable {origin : Word} {source : List Text} {index : Nat} {text : Text} {label? : Option Text}
  {rest : Layout → Except Fault Content}

/-- The final table has a symbol of a line only if the table after the line has it. -/
theorem find?_before_of_assemble (bounded : index < source.length) {name : Text} {symbol : Symbol}
    (found : (assemble origin source).symbols.find? name = some symbol)
    (sameLine : symbol.line = index + 1) :
    ∃ early, (Layout.before origin source (index + 1)).symbols.find? name = some early ∧
      early.line = index + 1 := by
  have run := assemble_run origin source
  cases placed : (Layout.ofSource origin source).1.symbols.find? name with
  | none =>
      rw [run.find?_eq_none placed] at found
      cases found
  | some early =>
      have line : early.line = index + 1 :=
        (run.grows.line_of_find? placed found).symm.trans sameLine
      rw [← Layout.before_length] at placed
      exact ⟨early, Layout.find?_before_of_line_le bounded (Nat.le_refl _) placed line.le, line⟩

/-- A label was accepted in the first pass exactly if the final table says so. -/
theorem accepts_iff (present : source[index]? = some text)
    (placed : (Layout.before origin source index).outcome (index + 1) text =
      (Layout.before origin source index).labelThen label? (index + 1) rest) :
    (assemble origin source).symbols.Accepts label? (index + 1) ↔
      ∃ labelled, (Layout.before origin source index).label label? (index + 1) = .ok labelled := by
  have bounded : index < source.length := (List.getElem?_eq_some_iff.mp present).1
  have symbolsAfter : (Layout.before origin source (index + 1)).symbols =
      ((Layout.before origin source index).labelThen label? (index + 1) rest).1.symbols := by
    rw [Layout.before_succ present, Layout.step_symbols, placed]
  constructor
  · intro accepts
    cases labelled : (Layout.before origin source index).label label? (index + 1) with
    | ok layout => exact ⟨layout, rfl⟩
    | error fault =>
        cases label? with
        | none => cases labelled
        | some name =>
            obtain ⟨symbol, found, sameLine⟩ := accepts name rfl
            obtain ⟨early, foundEarly, line⟩ := find?_before_of_assemble bounded found sameLine
            rw [symbolsAfter, Layout.labelThen, labelled] at foundEarly
            have old := Layout.line_le_of_find?_before bounded.le foundEarly
            omega
  · rintro ⟨labelled, accepted⟩ name rfl
    rw [Layout.labelThen, accepted] at symbolsAfter
    rcases Layout.label_eq_ok_iff.mp accepted with ⟨⟨⟩, _⟩ | ⟨_, symbols, ⟨⟩, defined, rfl⟩
    have found := SymbolTable.find?_of_define_self defined
    have grows := assemble_grows origin source (Nat.succ_le_of_lt bounded)
    rw [symbolsAfter] at grows
    obtain ⟨grown, foundGrown, _, sameLine, _⟩ := grows found
    exact ⟨grown, foundGrown, sameLine⟩

end Accepted

/-! ### Finished lines -/

/-- Only a known byte that is too large keeps completing from resolving. -/
theorem Settlement.completeField_eq_resolve {field : Field}
    (fits : ∀ word, field = .byte (.known word) → word.toNat < 256) (resolver : Resolver) :
    completeField resolver field = field.resolve resolver := by
  unfold completeField
  split
  case isTrue => rfl
  case isFalse ready =>
    cases field with
    | word value => cases value with
      | known datum => rfl
      | pending reference => exact (ready rfl).elim
    | byte value => cases value with
      | known datum =>
          have small := fits datum rfl
          simp [Field.resolve, Value.settle, bind, Except.bind, small, pure, Except.pure]
      | pending reference => exact (ready rfl).elim
    | jump condition source target text => exact (ready rfl).elim
    | reserve count => rfl

/-- Fields that wait for nothing are complete. -/
theorem Settlement.mapM_completeField_of_ready {fields : List Field}
    (ready : ∀ field ∈ fields, field.isPending = false) (resolver : Resolver) :
    fields.mapM (completeField resolver) = .ok fields := by
  rw [mapM_eq_ok_iff, List.forall₂_same]
  intro field member
  simp [completeField, ready field member]

/-- Instructions have no byte fields. -/
theorem Image.ne_byte_of_fields {image : Image} {address : Word} {resolver : Resolver}
    {fields : List Field} (encoded : image.fields address resolver = .ok fields) :
    ∀ field ∈ fields, ∀ value, field ≠ .byte value := by
  cases image with
  | words first extensions =>
      cases encoded
      intro field member value same
      rcases List.mem_cons.mp member with rfl | inRest
      · cases same
      · obtain ⟨extension, _, rfl⟩ := List.mem_map.mp inRest
        cases same
  | jump condition target text =>
      simp only [Image.fields] at encoded
      intro field member value same
      split at encoded
      · split at encoded
        · cases encoded
          rw [List.mem_singleton.mp member] at same
          cases same
        · cases encoded
      · cases encoded
        rw [List.mem_singleton.mp member] at same
        cases same

/-- **Instruction lines in one pass.** A line whose instruction was encoded early holds what
encoding it with the final table and resolving its fields yields. -/
theorem Line.finished_of_encode {line : Line} {operator : Text} {operands : Operands}
    {early final : SymbolTable} (grows : early.Grows final)
    (content : line.content = .ofResult do
      let fields ← encode operator operands line.address early.value?
      return .code fields) :
    (line.finished final).content = .ofResult do
      let fields ← encode operator operands line.address final.value?
      let resolved ← fields.mapM (Field.resolve final.value?)
      return .code resolved := by
  have late := encode_resolve grows.value?_extends operator operands line.address
  rw [← bind_assoc, ← late]
  cases encoded : encode operator operands line.address early.value? with
  | error fault =>
      rw [encoded] at content
      exact Line.finished_of_fault content final
  | ok fields =>
      rw [encoded] at content
      rw [Line.finished_of_code content final]
      obtain ⟨image, _, produced⟩ := bind_eq_ok_iff.mp encoded
      have agree : ∀ field ∈ fields, Settlement.completeField final.value? field =
          field.resolve final.value? := fun field member =>
        Settlement.completeField_eq_resolve
          (fun word byte => (Image.ne_byte_of_fields produced field member _ byte).elim) _
      rw [mapM_congr_of_mem agree]
      rfl

/-! ### Data items -/

/-- The fields that an item of a byte list has: the bytes of a string, or the byte that an
expression denotes. -/
def Data.ByteItem (here : Word) (resolver : Resolver) (item : Text) (fields : List Field) : Prop :=
  match unquote? item with
  | some text => fields = (utf8 text).map fun byte => .byte (.known (byte.setWidth 16))
  | none => ∃ word, Expr.Denotes item here resolver word ∧ word.toNat < 256 ∧
      fields = [.byte (.known word)]

theorem Expr.denotes_of_settle {item : Text} {here datum : Word} {early final : Resolver}
    (grown : final.Extends early) {value : Value} (evaluated : evaluate item here early = .ok value)
    (settled : value.settle final = .ok datum) : Denotes item here final.orPeripheral datum := by
  unfold evaluate at evaluated
  split at evaluated
  case h_1 expr read =>
    cases evaluated
    rw [settle_value grown, outcome_eq_ok_iff] at settled
    exact ⟨expr, read, settled⟩
  case h_2 => cases evaluated

/-- An item of a word list that was read early denotes the word that it is completed to. -/
theorem Data.denotes_of_wordItem {item : Text} {here : Word} {early final : Resolver}
    (grown : final.Extends early) {field resolved : Field}
    (read : wordItem here early item = .ok field)
    (completed : Settlement.completeField final field = .ok resolved) :
    ∃ word, Expr.Denotes item here final.orPeripheral word ∧ resolved = .word (.known word) := by
  obtain ⟨value, evaluated, made⟩ := bind_eq_ok_iff.mp read
  cases made
  rw [Settlement.completeField_eq_resolve fun word same => by cases same] at completed
  obtain ⟨datum, settled, made⟩ := bind_eq_ok_iff.mp completed
  cases made
  exact ⟨datum, Expr.denotes_of_settle grown evaluated settled, rfl⟩

/-- An item of a byte list that was read early is completed to its final bytes. -/
theorem Data.byteItem_of_mapM {item : Text} {here : Word} {early final : Resolver}
    (grown : final.Extends early) {fields resolved : List Field}
    (read : byteItem here early item = .ok fields)
    (completed : fields.mapM (Settlement.completeField final) = .ok resolved) :
    ByteItem here final.orPeripheral item resolved := by
  unfold ByteItem
  unfold byteItem at read
  cases quoted : unquote? item with
  | some text =>
      rw [quoted] at read
      cases read
      rw [Settlement.mapM_completeField_of_ready] at completed
      · exact (Except.ok.inj completed).symm
      · intro field member
        obtain ⟨byte, _, rfl⟩ := List.mem_map.mp member
        rfl
  | none =>
      rw [quoted] at read
      obtain ⟨value, evaluated, made⟩ := bind_eq_ok_iff.mp read
      split at made
      case isFalse => cases made
      case isTrue fits =>
        cases made
        rw [mapM_eq_ok_iff, List.forall₂_cons_left_iff] at completed
        obtain ⟨field, others, byte, nothing, rfl⟩ := completed
        rw [List.forall₂_nil_left_iff] at nothing
        subst nothing
        rw [Settlement.completeField_eq_resolve] at byte
        · obtain ⟨datum, settled, checked⟩ := bind_eq_ok_iff.mp byte
          split at checked
          case isFalse => cases checked
          case isTrue small =>
            cases checked
            exact ⟨datum, Expr.denotes_of_settle grown evaluated settled, small, rfl⟩
        · intro word same
          cases same
          simpa [fitsByte, Value.known?] using fits

/-! ### Lines of a program -/

section Lines

variable {origin : Word} {source : List Text} {index : Nat} {text : Text} {label? : Option Text}

/-- A line with an accepted label, in terms of the state after the label. -/
theorem assemble_getElem?_of_label {rest : Layout → Except Fault Content} {labelled : Layout}
    (present : source[index]? = some text)
    (placed : (Layout.before origin source index).outcome (index + 1) text =
      (Layout.before origin source index).labelThen label? (index + 1) rest)
    (accepted : (Layout.before origin source index).label label? (index + 1) = .ok labelled) :
    (assemble origin source).lines[index]? =
        some (Line.finished (assemble origin source).symbols
          ⟨index + 1, labelled.counter, text, .ofResult (rest labelled)⟩) ∧
      labelled.symbols.Grows (assemble origin source).symbols := by
  have bounded : index < source.length := (List.getElem?_eq_some_iff.mp present).1
  have grows := assemble_grows origin source (Nat.succ_le_of_lt bounded)
  have found := assemble_getElem? origin source present
  rw [Layout.before_succ present, Layout.step_symbols, placed, Layout.labelThen, accepted] at grows
  rw [Layout.step_line, placed, Layout.labelThen, accepted] at found
  exact ⟨found, grows⟩

/-- A data line that ends as code was read in the first pass and completed in the second. -/
theorem exists_fields_of_data {directive : Directive} {items : Text} {line : Line}
    {fields : List Field} (present : source[index]? = some text)
    (classified : Statement.classify text = .ok (.data label? directive items))
    (found : (assemble origin source).lines[index]? = some line)
    (code : line.content = .code fields) :
    ∃ (early : SymbolTable) (first : List Field), early.Grows (assemble origin source).symbols ∧
      Data.fields directive items line.address early.value? = .ok first ∧
      first.mapM (Settlement.completeField (assemble origin source).symbols.value?) =
        .ok fields := by
  have bounded : index < source.length := (List.getElem?_eq_some_iff.mp present).1
  have grows := assemble_grows origin source (Nat.succ_le_of_lt bounded)
  rw [assemble_getElem? origin source present] at found
  cases found
  obtain ⟨first, content, completed⟩ := Line.exists_of_finished_code code
  have clean : ((Layout.before origin source index).step (index + 1) text).2.isFault = false := by
    rw [Line.isFault, content]
    rfl
  obtain ⟨statement, placed, same, placement, address, symbols⟩ := Layout.step_placement clean
  rw [classified] at same
  cases same
  rw [content] at placement
  rw [Layout.before_succ present, symbols] at grows
  cases placement with
  | data accepted produced =>
      rw [← address] at produced
      exact ⟨placed.symbols, first, grows, produced, completed⟩

end Lines

/-- **Two passes give the code of one pass that knows every symbol.** Let the table be that of the
finished program. An instruction line whose label was accepted holds the outcome of encoding the
instruction with that table and resolving its fields in order: the resolved fields, or the first
fault. A word or byte list that ends as code holds the values of its items in that table, the
peripheral names standing in for names without a value, and no name is without both. -/
theorem assemble_onePass (origin : Word) (source : List Text) {index : Nat} {text : Text}
    (present : source[index]? = some text) :
    let table := (assemble origin source).symbols
    ∃ line, (assemble origin source).lines[index]? = some line ∧ line.number = index + 1 ∧
      line.source = text ∧
      (∀ label? operator operands,
        Statement.classify text = .ok (.instruction label? operator operands) →
        table.Accepts label? line.number →
        line.content = .ofResult do
          let fields ← encode operator operands line.address table.value?
          let resolved ← fields.mapM (Field.resolve table.value?)
          return .code resolved) ∧
      (∀ label? items fields, Statement.classify text = .ok (.data label? .word items) →
        line.content = .code fields →
        List.Forall₂ (fun item field => ∃ word,
            Expr.Denotes item line.address table.value?.orPeripheral word ∧
            field = .word (.known word))
          (Scan.splitList items) fields) ∧
      (∀ label? items fields, Statement.classify text = .ok (.data label? .byte items) →
        line.content = .code fields →
        ∃ parts, fields = parts.flatten ∧
          List.Forall₂ (Data.ByteItem line.address table.value?.orPeripheral)
            (Scan.splitList items) parts) := by
  intro table
  refine ⟨_, assemble_getElem? origin source present, rfl, rfl, ?_, ?_, ?_⟩
  · intro label? operator operands classified accepts
    have placed : (Layout.before origin source index).outcome (index + 1) text =
        (Layout.before origin source index).labelThen label? (index + 1) fun layout => do
          let fields ← encode operator operands layout.counter layout.symbols.value?
          return .code fields := by
      rw [Layout.outcome, classified]
      rfl
    obtain ⟨labelled, accepted⟩ := (accepts_iff present placed).mp accepts
    obtain ⟨shown, grows⟩ := assemble_getElem?_of_label present placed accepted
    rw [assemble_getElem? origin source present] at shown
    rw [Option.some.inj shown]
    exact Line.finished_of_encode grows rfl
  · intro label? items fields classified code
    obtain ⟨early, first, grows, read, completed⟩ :=
      exists_fields_of_data present classified (assemble_getElem? origin source present) code
    refine (forall₂_of_mapM_mapM read completed).imp ?_
    rintro item field ⟨between, itemRead, itemCompleted⟩
    exact Data.denotes_of_wordItem grows.value?_extends itemRead itemCompleted
  · intro label? items fields classified code
    obtain ⟨early, first, grows, read, completed⟩ :=
      exists_fields_of_data present classified (assemble_getElem? origin source present) code
    obtain ⟨parts, partsRead, joined⟩ := bind_eq_ok_iff.mp read
    cases joined
    obtain ⟨finalParts, partsCompleted, rfl⟩ := exists_parts_of_mapM_flatten completed
    refine ⟨finalParts, rfl, (forall₂_of_mapM_mapM partsRead partsCompleted).imp ?_⟩
    rintro item part ⟨between, itemRead, itemCompleted⟩
    exact Data.byteItem_of_mapM grows.value?_extends itemRead itemCompleted

/-- An instruction, a word list and a byte list that all refer to later symbols. -/
theorem assemble_onePass_forward :
    let source := ["START MOV #TABLE+SIZE,R5".toList, "TABLE DW SIZE,P1OUT".toList,
      "SIZE EQU DONE-TABLE".toList, "TEXT DB \"Hi\",SIZE-1".toList, "DONE RET".toList]
    let table := (assemble 0x0200 source).symbols
    (∃ line, (assemble 0x0200 source).lines[0]? = some line ∧
      line.content = .ofResult do
        let fields ← encode "MOV".toList (.two "#TABLE+SIZE".toList "R5".toList) line.address
          table.value?
        let resolved ← fields.mapM (Field.resolve table.value?)
        return .code resolved) ∧
    (∃ line, (assemble 0x0200 source).lines[1]? = some line ∧
      List.Forall₂ (fun item field => ∃ word,
          Expr.Denotes item line.address table.value?.orPeripheral word ∧
          field = Field.word (.known word))
        (Scan.splitList "SIZE,P1OUT".toList) [.word (.known 7), .word (.known 0x0021)]) ∧
    (∃ line, (assemble 0x0200 source).lines[3]? = some line ∧
      ∃ parts, [Field.byte (.known 0x48), .byte (.known 0x69), .byte (.known 6)] = parts.flatten ∧
        List.Forall₂ (Data.ByteItem line.address table.value?.orPeripheral)
          (Scan.splitList "\"Hi\",SIZE-1".toList) parts) := by
  intro source table
  obtain ⟨first, foundFirst, number, _, instruction, _⟩ := assemble_onePass 0x0200 source
    (show source[0]? = some _ from rfl)
  obtain ⟨second, foundSecond, _, _, _, words, _⟩ := assemble_onePass 0x0200 source
    (show source[1]? = some _ from rfl)
  obtain ⟨fourth, foundFourth, _, _, _, _, bytes⟩ := assemble_onePass 0x0200 source
    (show source[3]? = some _ from rfl)
  have contentSecond : (assemble 0x0200 source).lines[1]?.map Line.content =
      some (.code [.word (.known 7), .word (.known 0x0021)]) := by decide +kernel
  have contentFourth : (assemble 0x0200 source).lines[3]?.map Line.content =
      some (.code [.byte (.known 0x48), .byte (.known 0x69), .byte (.known 6)]) := by
    decide +kernel
  rw [foundSecond] at contentSecond
  rw [foundFourth] at contentFourth
  have accepts : table.Accepts (some "START".toList) first.number := by
    rintro name ⟨⟩
    exact ⟨⟨"START".toList, some 0x0200, 1⟩, by decide +kernel, number.symm⟩
  exact ⟨⟨first, foundFirst, instruction _ _ _ (by decide +kernel) accepts⟩,
    ⟨second, foundSecond, words (some "TABLE".toList) _ _ (by decide +kernel)
      (Option.some.inj contentSecond)⟩,
    ⟨fourth, foundFourth, bytes (some "TEXT".toList) _ _ (by decide +kernel)
      (Option.some.inj contentFourth)⟩⟩

end Msp430
