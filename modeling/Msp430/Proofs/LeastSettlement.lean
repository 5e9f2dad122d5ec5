import Mathlib.Order.Bounds.Basic
import Msp430.Proofs.SettlementRun

/-! # The constants that are settled

A constant can be settled once each of its outstanding names has a value: from the
first pass, from the chip, or from a constant that can be settled itself. The
second pass settles the least set of constants with this closure property
(`settledConstants_isLeast`). A run never leaves a closed set, because the values
that a constant is computed from were there before its own (`Run.justified`); and
a run that cannot be continued has reached a closed set. Constants that need an
undefined name or each other are left over. They become faults, and are the only
symbols without a value.
-/

namespace Msp430

namespace Settlement

/-- A name that the program gives a value, counting the given constants among its lines: it has a
value already, or one of the constants has it. -/
def Provided (table : SymbolTable) (lines : List Line) (constants : Set Line)
    (query : Text) : Prop :=
  (table.value? query).isSome ∨
    ∃ line ∈ lines, line ∈ constants ∧ ∃ name reference,
      line.waiting? = some (name, reference) ∧ Text.upper query = Text.upper name

/-- A set that holds every waiting constant whose outstanding names are provided by the program
with the constants of the set, or by the chip. -/
def Closed (table : SymbolTable) (lines : List Line) (constants : Set Line) : Prop :=
  ∀ line ∈ lines, ∀ name reference, line.waiting? = some (name, reference) →
    (∀ mention ∈ reference.mentions, Provided table lines constants mention.name ∨
      (Peripheral.value? mention.name).isSome) → line ∈ constants

/-- The waiting constants that have a value in a later table. -/
def settledConstants (lines : List Line) (final : SymbolTable) : Set Line :=
  {line | line ∈ lines ∧
    ∃ name reference, line.waiting? = some (name, reference) ∧ (final.value? name).isSome}

theorem mem_settledConstants_iff {lines : List Line} {final : SymbolTable} {line : Line}
    {name : Text} {reference : Reference} (member : line ∈ lines)
    (waits : line.waiting? = some (name, reference)) :
    line ∈ settledConstants lines final ↔ (final.value? name).isSome := by
  constructor
  · rintro ⟨_, otherName, otherRef, otherWaits, valued⟩
    rw [waits] at otherWaits
    cases otherWaits
    exact valued
  · intro valued
    exact ⟨member, name, reference, waits, valued⟩

/-- **A run stays within every closed set.** A name that has a value at the end of a run is
provided by the closed set, if that was so at its start. -/
theorem Run.justified {lines : List Line} {initial table final : SymbolTable}
    {readings : List Reading} {constants : Set Line} (closed : Closed initial lines constants)
    (run : Run lines table readings final)
    (start : ∀ query, (table.value? query).isSome → Provided initial lines constants query) :
    ∀ query, (final.value? query).isSome → Provided initial lines constants query := by
  induction run with
  | done table => exact start
  | @settle table final line name reference word readings member waits unsettled resolved rest ih =>
      apply ih
      intro query valued
      by_cases same : Text.upper query = Text.upper name
      · -- The names of the constant had values before it, so the constant is in the set.
        have inside : line ∈ constants := by
          apply closed line member name reference waits
          intro mention mentioned
          rcases reference.resolve_cases table.value? with ⟨_, all⟩ | ⟨_, _, _, stuck⟩
          · rcases (table.value?.isSome_orPeripheral mention.name).mp (all mention mentioned) with
              inTable | reserved
            · exact .inl (start mention.name inTable)
            · exact .inr reserved
          · rw [resolved] at stuck
            cases stuck
        exact .inr ⟨line, member, inside, name, reference, waits, same⟩
      · rw [table.value?_settle_of_ne word same] at valued
        exact start query valued

end Settlement

section Assembled

variable (origin : Word) (source : List Text)

/-- **The second pass settles what can be settled, and nothing else.** -/
theorem settledConstants_isLeast :
    IsLeast {constants | Settlement.Closed (Layout.ofSource origin source).1.symbols
        (Layout.ofSource origin source).2 constants}
      (Settlement.settledConstants (Layout.ofSource origin source).2
        (assemble origin source).symbols) := by
  have registered := Layout.registered_ofSource origin source
  have run := assemble_run origin source
  constructor
  · intro line member name reference waits available
    rw [Settlement.mem_settledConstants_iff member waits]
    by_contra unsettled
    rw [Option.not_isSome_iff_eq_none] at unsettled
    obtain ⟨mention, mentioned, absent, _⟩ := assemble_stuck origin source member waits unsettled
    have lacking :
        ¬ ((assemble origin source).symbols.value?.orPeripheral mention.name).isSome := by
      simp [absent]
    rw [Resolver.isSome_orPeripheral, not_or] at lacking
    rcases available mention mentioned with
      (early | ⟨other, inLines, settled, otherName, otherRef, otherWaits, same⟩) | reserved
    · obtain ⟨word, found⟩ := Option.isSome_iff_exists.mp early
      exact lacking.1 (Option.isSome_iff_exists.mpr ⟨word, run.grows.value?_extends found⟩)
    · rw [SymbolTable.value?_congr _ same] at lacking
      exact lacking.1 ((Settlement.mem_settledConstants_iff inLines otherWaits).mp settled)
    · exact lacking.2 reserved
  · rintro constants closed line ⟨member, name, reference, waits, valued⟩
    have unsettled := registered.value?_eq_none member waits
    rcases run.justified closed (fun query early => .inl early) name valued with
      early | ⟨other, otherMember, inside, otherName, otherRef, otherWaits, same⟩
    · simp [unsettled] at early
    · have equal := registered.eq_of_key_eq member otherMember
        (Line.waiting?_eq_some_iff.mp waits) (Line.waiting?_eq_some_iff.mp otherWaits) same
      exact equal ▸ inside

theorem mem_unsettled_iff (symbol : Symbol) :
    symbol ∈ (assemble origin source).symbols.unsettled ↔
      ∃ line ∈ (Layout.ofSource origin source).2, ∃ name reference,
        line.waiting? = some (name, reference) ∧
          (assemble origin source).symbols.value? name = none ∧
          symbol = ⟨name, none, line.number⟩ := by
  have registered := Layout.registered_ofSource origin source
  have run := assemble_run origin source
  have ordered := run.ordered registered.ordered
  rw [SymbolTable.unsettled, List.mem_filter, Option.isNone_iff_eq_none]
  constructor
  · rintro ⟨member, missing⟩
    have found := ordered.find?_eq_some_iff.mpr ⟨member, rfl⟩
    have unsettled : (assemble origin source).symbols.value? symbol.name = none := by
      rw [SymbolTable.value?, found, Option.bind_some, missing]
    cases early : (Layout.ofSource origin source).1.symbols.find? symbol.name with
    | none =>
        rw [run.find?_eq_none early] at found
        cases found
    | some old =>
        obtain ⟨grown, foundGrown, sameName, sameLine, kept⟩ := run.grows early
        rw [found] at foundGrown
        cases foundGrown
        have oldMissing : old.value? = none := by
          by_contra valued
          obtain ⟨word, value⟩ := Option.ne_none_iff_exists'.mp valued
          rw [kept word value] at missing
          cases missing
        obtain ⟨line, inLines, reference, content, number⟩ := registered.unsettled old
          (registered.ordered.find?_eq_some_iff.mp early).1 oldMissing
        rw [← sameName] at content
        refine ⟨line, inLines, symbol.name, reference, Line.waiting?_eq_some_iff.mpr content,
          unsettled, ?_⟩
        rw [number, ← sameLine, ← missing]
  · rintro ⟨line, member, name, reference, waits, unsettled, rfl⟩
    have early := registered.waiting line member name reference
      (Line.waiting?_eq_some_iff.mp waits)
    obtain ⟨⟨_, value?, _⟩, found, ⟨⟩, ⟨⟩, _⟩ := run.grows early
    rw [SymbolTable.value?, found] at unsettled
    cases unsettled
    exact ⟨(ordered.find?_eq_some_iff.mp found).1, rfl⟩

end Assembled

/-- **The second pass settles exactly the constants that can be settled.** The sweeps end, after
at most one more than there are constants waiting. The constants that have a value then form the
least closed set. Each of them shows the value that its name has; each of the others has become a
fault for an outstanding name without a value, and these others are the symbols without a value. -/
theorem assemble_settled (origin : Word) (source : List Text) :
    let placed := Layout.ofSource origin source
    let program := assemble origin source
    let settled := Settlement.settledConstants placed.2 program.symbols
    (∃ rounds ≤ Settlement.pendingCount placed.2 + 1,
      Settlement.settle placed.1.symbols placed.2 =
        (fun state => Settlement.sweep state.1 state.2)^[rounds] (placed.1.symbols, placed.2)) ∧
    IsLeast {constants | Settlement.Closed placed.1.symbols placed.2 constants} settled ∧
    (∀ (index : Nat) line name reference, placed.2[index]? = some line →
      line.waiting? = some (name, reference) →
        (line ∈ settled → ∃ word, program.symbols.value? name = some word ∧
          program.lines[index]? = some (line.withContent (.constant name (.known word)))) ∧
        (line ∉ settled → ∃ mention ∈ reference.mentions,
          program.symbols.value?.orPeripheral mention.name = none ∧
          program.lines[index]? =
            some (line.withContent (.fault (.undefinedName mention.name))))) ∧
    ∀ symbol, symbol ∈ program.symbols.unsettled ↔ ∃ line ∈ placed.2, line ∉ settled ∧
      ∃ name reference, line.waiting? = some (name, reference) ∧
        symbol = ⟨name, none, line.number⟩ := by
  intro placed program settled
  refine ⟨(Settlement.settle_eq_iterate _ _).1, settledConstants_isLeast origin source, ?_, ?_⟩
  · intro index line name reference present waits
    have member := List.mem_of_getElem? present
    have shown : program.lines[index]? = some (line.finished program.symbols) := by
      rw [assemble_lines, List.getElem?_map, present]
      rfl
    rw [Settlement.mem_settledConstants_iff member waits, shown]
    constructor
    · intro valued
      obtain ⟨word, found⟩ := Option.isSome_iff_exists.mp valued
      exact ⟨word, found, congrArg some (Line.finished_of_value? waits found)⟩
    · intro unsettled
      rw [Option.not_isSome_iff_eq_none] at unsettled
      obtain ⟨mention, mentioned, absent, stuck⟩ :=
        assemble_stuck origin source member waits unsettled
      exact ⟨mention, mentioned, absent,
        congrArg some (Line.finished_of_stuck waits unsettled stuck)⟩
  · intro symbol
    rw [mem_unsettled_iff]
    constructor
    · rintro ⟨line, member, name, reference, waits, unsettled, shape⟩
      refine ⟨line, member, ?_, name, reference, waits, shape⟩
      rw [Settlement.mem_settledConstants_iff member waits, unsettled]
      exact Bool.false_ne_true
    · rintro ⟨line, member, outside, name, reference, waits, shape⟩
      rw [Settlement.mem_settledConstants_iff member waits,
        Option.not_isSome_iff_eq_none] at outside
      exact ⟨line, member, name, reference, waits, outside, shape⟩

-- A chain in the worst order is settled to its end; a cycle is not.
example : (assemble 0x0200 ["A EQU B".toList, "B EQU C".toList, "C EQU P1IN+1".toList,
    "X EQU Y".toList, "Y EQU X".toList]).symbols.symbols.map Symbol.value? =
      [some 0x21, some 0x21, some 0x21, none, none] := by
  decide +kernel

end Msp430
