import Mathlib.Logic.Function.Iterate
import Msp430.Assembly.Run
import Msp430.Proofs.LayoutRun

/-! # Runs of settlement

The sweeps of the second pass settle one constant after another. Each settlement
reads the table as it is at that moment and changes it for all later ones; the
order is kept in a log (`Settlement.log`). Seen this way the sweeps are a run of
single settlements (`Settlement.Run`) over lines that never change: what a line
shows at any time is determined by the table (`Line.settledIn`). The run stops
when no constant that is left can be settled (`Settlement.settle_run`). After it
each line is finished on its own (`Line.finished`).
-/

namespace Msp430

namespace Line

/-- The name and the reference of a constant that waits for a name. -/
def waiting? (line : Line) : Option (Text × Reference) :=
  match line.content with
  | .constant name (.pending reference) => some (name, reference)
  | _ => none

theorem waiting?_eq_some_iff {line : Line} {name : Text} {reference : Reference} :
    line.waiting? = some (name, reference) ↔
      line.content = .constant name (.pending reference) := by
  unfold waiting?
  split
  case h_1 other pending content => simp [content]
  case h_2 plain => simpa using fun content => (plain _ _ content).elim

/-- A constant that has its value waits for nothing. -/
theorem waiting?_withContent_known (line : Line) (name : Text) (word : Word) :
    (line.withContent (.constant name (.known word))).waiting? = none :=
  rfl

/-- The line as it stands when the symbols have the values of a table. -/
def settledIn (table : SymbolTable) (line : Line) : Line :=
  match line.waiting? with
  | some (name, _) =>
    match table.value? name with
    | some word => line.withContent (.constant name (.known word))
    | none => line
  | none => line

theorem settledIn_of_none {line : Line} (plain : line.waiting? = none) (table : SymbolTable) :
    line.settledIn table = line := by
  simp only [settledIn, plain]

theorem settledIn_of_value? {line : Line} {name : Text} {reference : Reference}
    (waits : line.waiting? = some (name, reference)) {table : SymbolTable} {word : Word}
    (valued : table.value? name = some word) :
    line.settledIn table = line.withContent (.constant name (.known word)) := by
  simp only [settledIn, waits, valued]

theorem settledIn_of_value?_eq_none {line : Line} {name : Text} {reference : Reference}
    (waits : line.waiting? = some (name, reference)) {table : SymbolTable}
    (open? : table.value? name = none) : line.settledIn table = line := by
  simp only [settledIn, waits, open?]

theorem settledIn_congr {line : Line} {first second : SymbolTable}
    (agree : ∀ name reference, line.waiting? = some (name, reference) →
      first.value? name = second.value? name) : line.settledIn first = line.settledIn second := by
  cases waits : line.waiting? with
  | none => rw [settledIn_of_none waits, settledIn_of_none waits]
  | some found => simp only [settledIn, waits, agree found.1 found.2 waits]

end Line

namespace Settlement

/-! ### The log of a settlement -/

/-- A settlement: the constant that was settled and the table that it was read from. -/
structure Reading where
  /-- The line of the constant. -/
  line : Line
  /-- The table before the constant was settled. -/
  table : SymbolTable

/-- The settlements of a sweep, in their order. -/
def sweepLog (table : SymbolTable) : List Line → List Reading
  | [] => []
  | line :: rest =>
    match line.content with
    | .constant name (.pending reference) =>
      match reference.resolve table.value? with
      | .ok word => ⟨line, table⟩ :: sweepLog (table.settle name word) rest
      | .error _ => sweepLog table rest
    | _ => sweepLog table rest

/-- The settlements of all sweeps, in their order. -/
def log (table : SymbolTable) (lines : List Line) : List Reading :=
  let next := sweep table lines
  sweepLog table lines ++
    if pendingCount next.2 < pendingCount lines then log next.1 next.2 else []
termination_by pendingCount lines

section Sweep

variable (table : SymbolTable) (rest : List Line) {line : Line} {name : Text}
  {reference : Reference}

theorem sweep_cons_of_none (plain : line.waiting? = none) :
    sweep table (line :: rest) = ((sweep table rest).1, line :: (sweep table rest).2) ∧
      sweepLog table (line :: rest) = sweepLog table rest := by
  unfold Line.waiting? at plain
  split at plain
  case h_1 => cases plain
  case h_2 other =>
    simp only [sweep, sweepLog, and_self]

variable {table}

theorem sweep_cons_of_ok {word : Word} (waits : line.waiting? = some (name, reference))
    (resolved : reference.resolve table.value? = .ok word) :
    sweep table (line :: rest) =
        ((sweep (table.settle name word) rest).1,
          line.withContent (.constant name (.known word)) ::
            (sweep (table.settle name word) rest).2) ∧
      sweepLog table (line :: rest) = ⟨line, table⟩ :: sweepLog (table.settle name word) rest := by
  have content := Line.waiting?_eq_some_iff.mp waits
  simp only [sweep, sweepLog, content, resolved, and_self]

theorem sweep_cons_of_error (waits : line.waiting? = some (name, reference)) {missing : Text}
    (unresolved : reference.resolve table.value? = .error missing) :
    sweep table (line :: rest) = ((sweep table rest).1, line :: (sweep table rest).2) ∧
      sweepLog table (line :: rest) = sweepLog table rest := by
  have content := Line.waiting?_eq_some_iff.mp waits
  simp only [sweep, sweepLog, content, unresolved, and_self]

end Sweep

/-! ### Runs of single settlements -/

/-- Settling constants of the given lines one after another. A constant is settled when it has
no value and all its names have one. -/
inductive Run (lines : List Line) : SymbolTable → List Reading → SymbolTable → Prop where
  /-- Nothing is settled. -/
  | done (table : SymbolTable) : Run lines table [] table
  /-- A constant is settled, then the others are. -/
  | settle {table final : SymbolTable} {line : Line} {name : Text} {reference : Reference}
      {word : Word} {readings : List Reading} (member : line ∈ lines)
      (waits : line.waiting? = some (name, reference)) (unsettled : table.value? name = none)
      (resolved : reference.resolve table.value? = .ok word)
      (rest : Run lines (table.settle name word) readings final) :
      Run lines table (⟨line, table⟩ :: readings) final

namespace Run

variable {lines : List Line} {table middle final : SymbolTable}
  {readings first second : List Reading}

theorem mono {others : List Line} (run : Run lines table readings final)
    (subset : lines ⊆ others) : Run others table readings final := by
  induction run with
  | done table => exact .done table
  | settle member waits unsettled resolved rest ih =>
      exact .settle (subset member) waits unsettled resolved ih

theorem append (lower : Run lines table first middle) (upper : Run lines middle second final) :
    Run lines table (first ++ second) final := by
  induction lower with
  | done table => exact upper
  | settle member waits unsettled resolved rest ih =>
      exact .settle member waits unsettled resolved (ih upper)

theorem grows (run : Run lines table readings final) : table.Grows final := by
  induction run with
  | done table => exact .refl table
  | settle member waits unsettled resolved rest ih =>
      exact (SymbolTable.grows_settle unsettled _).trans ih

theorem ordered (run : Run lines table readings final) (ordered : table.Ordered) :
    final.Ordered := by
  induction run with
  | done table => exact ordered
  | settle member waits unsettled resolved rest ih => exact ih (ordered.settle _ _)

/-- A run defines no names. -/
theorem find?_eq_none (run : Run lines table readings final) {query : Text}
    (absent : table.find? query = none) : final.find? query = none := by
  induction run with
  | done table => exact absent
  | settle member waits unsettled resolved rest ih =>
      apply ih
      rw [SymbolTable.find?_settle, absent]
      exact ite_self none

/-- A run gives no value to a name that none of its constants has. -/
theorem find?_of_forall_ne (run : Run lines table readings final) {query : Text}
    (foreign : ∀ line ∈ lines, ∀ name reference, line.waiting? = some (name, reference) →
      Text.upper query ≠ Text.upper name) : final.find? query = table.find? query := by
  induction run with
  | done table => rfl
  | settle member waits unsettled resolved rest ih =>
      rw [ih, SymbolTable.find?_settle, if_neg (foreign _ member _ _ waits)]

end Run

/-! ### Sweeps as runs -/

/-- Lines whose constants can be settled one by one: no two of those that wait for a name have
the same key, and each of them is a symbol of the table. -/
structure Settleable (table : SymbolTable) (lines : List Line) : Prop where
  distinct : lines.Pairwise fun first second => ∀ firstName firstRef secondName secondRef,
    first.waiting? = some (firstName, firstRef) → second.waiting? = some (secondName, secondRef) →
      Text.upper firstName ≠ Text.upper secondName
  defined : ∀ line ∈ lines, ∀ name reference, line.waiting? = some (name, reference) →
    ∃ symbol, table.find? name = some symbol

theorem Settleable.grow {table final : SymbolTable} {lines : List Line}
    (settleable : Settleable table lines) (grows : table.Grows final) :
    Settleable final lines := by
  refine ⟨settleable.distinct, ?_⟩
  intro line member name reference waits
  obtain ⟨symbol, found⟩ := settleable.defined line member name reference waits
  obtain ⟨grown, foundGrown, _⟩ := grows found
  exact ⟨grown, foundGrown⟩

theorem Settleable.tail {table : SymbolTable} {line : Line} {rest : List Line}
    (settleable : Settleable table (line :: rest)) : Settleable table rest :=
  ⟨settleable.distinct.tail, fun other member =>
    settleable.defined other (List.mem_cons_of_mem _ member)⟩

/-- What a reading of a run tells: the constant has the value that its reference comes to in the
table of the reading, which lies between the first table and the last one. -/
theorem Run.reading_spec {lines : List Line} {table final : SymbolTable} {readings : List Reading}
    (run : Run lines table readings final) (settleable : Settleable table lines)
    {reading : Reading} (logged : reading ∈ readings) :
    reading.line ∈ lines ∧ table.Grows reading.table ∧ reading.table.Grows final ∧
      ∃ name reference word, reading.line.waiting? = some (name, reference) ∧
        reference.resolve reading.table.value? = .ok word ∧ final.value? name = some word := by
  induction run with
  | done table => cases logged
  | @settle table final line name reference word readings member waits unsettled resolved rest ih =>
      have grows := SymbolTable.grows_settle unsettled word
      rcases List.mem_cons.mp logged with rfl | later
      · obtain ⟨symbol, present⟩ := settleable.defined line member name reference waits
        have valued := rest.grows.value?_extends (SymbolTable.value?_settle_self present word)
        exact ⟨member, .refl table, grows.trans rest.grows, name, reference, word, waits, resolved,
          valued⟩
      · obtain ⟨inLines, lower, upper, known⟩ := ih (settleable.grow grows) later
        exact ⟨inLines, grows.trans lower, upper, known⟩

/-- A name that has a value only at the end of a run was read in the course of it. -/
theorem Run.exists_reading {lines : List Line} {table final : SymbolTable}
    {readings : List Reading} (run : Run lines table readings final) {query : Text}
    (missing : table.value? query = none) (valued : (final.value? query).isSome) :
    ∃ reading ∈ readings, ∃ name reference, reading.line.waiting? = some (name, reference) ∧
      Text.upper query = Text.upper name := by
  induction run with
  | done table =>
      rw [missing] at valued
      cases valued
  | @settle table final line name reference word readings member waits unsettled resolved rest ih =>
      by_cases same : Text.upper query = Text.upper name
      · exact ⟨_, List.mem_cons_self, name, reference, waits, same⟩
      · rw [← table.value?_settle_of_ne word same] at missing
        obtain ⟨reading, logged, found⟩ := ih missing valued
        exact ⟨reading, List.mem_cons_of_mem _ logged, found⟩

/-- The other constants have other keys than the first one. -/
theorem Settleable.foreign {table : SymbolTable} {line : Line} {rest : List Line}
    (settleable : Settleable table (line :: rest)) {name : Text} {reference : Reference}
    (waits : line.waiting? = some (name, reference)) :
    ∀ other ∈ rest, ∀ otherName otherRef, other.waiting? = some (otherName, otherRef) →
      Text.upper name ≠ Text.upper otherName := by
  intro other member otherName otherRef otherWaits
  exact (List.pairwise_cons.mp settleable.distinct).1 other member _ _ _ _ waits otherWaits

/-- A sweep of lines as they stand in a table: it runs through settlements and leaves the lines
as they stand in the resulting table. -/
def Tracks (table : SymbolTable) (lines : List Line) : Prop :=
  Run lines table (sweepLog table (lines.map (Line.settledIn table)))
      (sweep table (lines.map (Line.settledIn table))).1 ∧
    (sweep table (lines.map (Line.settledIn table))).2 =
      lines.map (Line.settledIn (sweep table (lines.map (Line.settledIn table))).1)

/-- A line that the sweep passes by does no harm if its own name is not settled after it. -/
theorem Tracks.cons {table : SymbolTable} {line : Line} {rest : List Line}
    (tracks : Tracks table rest)
    (passed : (line.settledIn table).waiting? = none ∨
      ∃ name reference missing, (line.settledIn table).waiting? = some (name, reference) ∧
        reference.resolve table.value? = .error missing)
    (kept : ∀ readings final, Run rest table readings final →
      line.settledIn final = line.settledIn table) : Tracks table (line :: rest) := by
  obtain ⟨run, lines⟩ := tracks
  have shape : sweep table (line.settledIn table :: rest.map (Line.settledIn table)) =
      ((sweep table (rest.map (Line.settledIn table))).1,
        line.settledIn table :: (sweep table (rest.map (Line.settledIn table))).2) ∧
      sweepLog table (line.settledIn table :: rest.map (Line.settledIn table)) =
        sweepLog table (rest.map (Line.settledIn table)) := by
    rcases passed with plain | ⟨name, reference, missing, waits, unresolved⟩
    · exact sweep_cons_of_none table _ plain
    · exact sweep_cons_of_error _ waits unresolved
  rw [Tracks, List.map_cons, shape.1, shape.2, List.map_cons, kept _ _ run, ← lines]
  exact ⟨run.mono (List.subset_cons_self _ _), rfl⟩

/-- A constant that the sweep settles is settled for the lines after it. -/
theorem Tracks.cons_settle {table : SymbolTable} {line : Line} {rest : List Line} {name : Text}
    {reference : Reference} {word : Word} (settleable : Settleable table (line :: rest))
    (waits : line.waiting? = some (name, reference)) (unsettled : table.value? name = none)
    (resolved : reference.resolve table.value? = .ok word)
    (tracks : Tracks (table.settle name word) rest) : Tracks table (line :: rest) := by
  obtain ⟨run, lines⟩ := tracks
  obtain ⟨symbol, present⟩ := settleable.defined line List.mem_cons_self name reference waits
  have same : line.settledIn table = line := Line.settledIn_of_value?_eq_none waits unsettled
  have sameRest : rest.map (Line.settledIn table) =
      rest.map (Line.settledIn (table.settle name word)) := by
    apply List.map_congr_left
    intro other member
    apply Line.settledIn_congr
    intro otherName otherRef otherWaits
    have different := settleable.foreign waits other member _ _ otherWaits
    exact (table.value?_settle_of_ne word different.symm).symm
  have final := run.grows.value?_extends (SymbolTable.value?_settle_self present word)
  obtain ⟨swept, logged⟩ := sweep_cons_of_ok (rest.map (Line.settledIn table)) waits resolved
  rw [Tracks, List.map_cons, same, swept, logged, sameRest, List.map_cons,
    Line.settledIn_of_value? waits final, ← lines]
  exact ⟨.settle List.mem_cons_self waits unsettled resolved
    (run.mono (List.subset_cons_self _ _)), rfl⟩

/-- **A sweep is a run.** Sweeping lines as they stand in a table leaves them as they stand in
the resulting table, which a run of settlements leads to. -/
theorem sweep_tracks {table : SymbolTable} {lines : List Line}
    (settleable : Settleable table lines) : Tracks table lines := by
  induction lines generalizing table with
  | nil => exact ⟨.done table, rfl⟩
  | cons line rest ih =>
      cases waits : line.waiting? with
      | none =>
          have same : line.settledIn table = line := Line.settledIn_of_none waits table
          refine (ih settleable.tail).cons (.inl (same.symm ▸ waits)) ?_
          intro readings final run
          rw [same, Line.settledIn_of_none waits]
      | some found =>
          obtain ⟨name, reference⟩ := found
          cases valued : table.value? name with
          | some word =>
              have shown := Line.settledIn_of_value? waits valued
              refine (ih settleable.tail).cons (.inl (shown ▸ rfl)) ?_
              intro readings final run
              rw [shown, Line.settledIn_of_value? waits (run.grows.value?_extends valued)]
          | none =>
              have same : line.settledIn table = line :=
                Line.settledIn_of_value?_eq_none waits valued
              cases resolved : reference.resolve table.value? with
              | ok word =>
                  have grows := SymbolTable.grows_settle valued word
                  exact .cons_settle settleable waits valued resolved
                    (ih (settleable.tail.grow grows))
              | error missing =>
                  refine (ih settleable.tail).cons
                    (.inr ⟨name, reference, missing, same.symm ▸ waits, resolved⟩) ?_
                  intro readings final run
                  have unsettled : final.value? name = none := by
                    rw [SymbolTable.value?, run.find?_of_forall_ne (settleable.foreign waits)]
                    exact valued
                  rw [same, Line.settledIn_of_value?_eq_none waits unsettled]

/-! ### The end of the sweeps -/

theorem isPendingConstant_eq (line : Line) :
    line.content.isPendingConstant = line.waiting?.isSome := by
  unfold Content.isPendingConstant Line.waiting?
  cases line.content with
  | constant name value => cases value <;> rfl
  | _ => rfl

theorem pendingCount_cons_of_none {line : Line} (plain : line.waiting? = none)
    (rest : List Line) : pendingCount (line :: rest) = pendingCount rest :=
  List.countP_cons_of_neg (by simp [isPendingConstant_eq, plain])

theorem pendingCount_cons_of_some {line : Line} {name : Text} {reference : Reference}
    (waits : line.waiting? = some (name, reference)) (rest : List Line) :
    pendingCount (line :: rest) = pendingCount rest + 1 :=
  List.countP_cons_of_pos (by simp [isPendingConstant_eq, waits])

/-- Each settlement takes one constant from those that wait. -/
theorem pendingCount_sweep (table : SymbolTable) (lines : List Line) :
    pendingCount (sweep table lines).2 + (sweepLog table lines).length = pendingCount lines := by
  induction lines generalizing table with
  | nil => rfl
  | cons line rest ih =>
      cases waits : line.waiting? with
      | none =>
          obtain ⟨swept, logged⟩ := sweep_cons_of_none table rest waits
          rw [swept, logged, pendingCount_cons_of_none waits, pendingCount_cons_of_none waits, ih]
      | some found =>
          obtain ⟨name, reference⟩ := found
          cases resolved : reference.resolve table.value? with
          | error missing =>
              obtain ⟨swept, logged⟩ := sweep_cons_of_error rest waits resolved
              rw [swept, logged, pendingCount_cons_of_some waits, pendingCount_cons_of_some waits,
                ← ih table]
              omega
          | ok word =>
              obtain ⟨swept, logged⟩ := sweep_cons_of_ok rest waits resolved
              rw [swept, logged, pendingCount_cons_of_some waits, ← ih (table.settle name word)]
              rw [pendingCount_cons_of_none (line.waiting?_withContent_known name word),
                List.length_cons]
              omega

/-- A sweep that settles nothing changes nothing, and finds every constant that waits short of a
name. -/
theorem sweep_of_sweepLog_eq_nil {table : SymbolTable} {lines : List Line}
    (idle : sweepLog table lines = []) :
    sweep table lines = (table, lines) ∧
      ∀ line ∈ lines, ∀ name reference, line.waiting? = some (name, reference) →
        ∃ missing, reference.resolve table.value? = .error missing := by
  induction lines with
  | nil => exact ⟨rfl, by simp⟩
  | cons line rest ih =>
      cases waits : line.waiting? with
      | none =>
          obtain ⟨swept, logged⟩ := sweep_cons_of_none table rest waits
          obtain ⟨same, stuck⟩ := ih (logged ▸ idle)
          refine ⟨by rw [swept, same], ?_⟩
          intro other member name reference otherWaits
          rcases List.mem_cons.mp member with rfl | inRest
          · rw [waits] at otherWaits
            cases otherWaits
          · exact stuck other inRest name reference otherWaits
      | some found =>
          obtain ⟨name, reference⟩ := found
          cases resolved : reference.resolve table.value? with
          | error missing =>
              obtain ⟨swept, logged⟩ := sweep_cons_of_error rest waits resolved
              obtain ⟨same, stuck⟩ := ih (logged ▸ idle)
              refine ⟨by rw [swept, same], ?_⟩
              intro other member otherName otherRef otherWaits
              rcases List.mem_cons.mp member with rfl | inRest
              · rw [waits] at otherWaits
                cases otherWaits
                exact ⟨missing, resolved⟩
              · exact stuck other inRest otherName otherRef otherWaits
          | ok word =>
              obtain ⟨_, logged⟩ := sweep_cons_of_ok rest waits resolved
              rw [logged] at idle
              cases idle

/-- A sweep after which as many constants wait as before settled nothing. -/
theorem sweepLog_eq_nil {table : SymbolTable} {lines : List Line}
    (stopped : ¬ pendingCount (sweep table lines).2 < pendingCount lines) :
    sweepLog table lines = [] := by
  have counted := pendingCount_sweep table lines
  exact List.length_eq_zero_iff.mp (by omega)

/-- The sweeps come to an end after at most one more than there are constants to settle, and
another sweep would change nothing. -/
theorem settle_eq_iterate (table : SymbolTable) (lines : List Line) :
    (∃ rounds ≤ pendingCount lines + 1,
      settle table lines = (fun state => sweep state.1 state.2)^[rounds] (table, lines)) ∧
      sweep (settle table lines).1 (settle table lines).2 = settle table lines := by
  fun_induction settle table lines with
  | case1 table lines next progress ih =>
      obtain ⟨⟨rounds, bound, iterated⟩, idle⟩ := ih
      refine ⟨⟨rounds + 1, ?_, ?_⟩, idle⟩
      · have fewer : pendingCount next.2 < pendingCount lines := progress
        omega
      · rw [iterated, Function.iterate_succ_apply]
  | case2 table lines next stopped =>
      have same : sweep table lines = (table, lines) :=
        (sweep_of_sweepLog_eq_nil (sweepLog_eq_nil stopped)).1
      refine ⟨⟨1, by omega, rfl⟩, ?_⟩
      change sweep (sweep table lines).1 (sweep table lines).2 = sweep table lines
      rw [same, same]

/-- **Settlement is a run that cannot be continued.** The lines are left as they stand in the
final table, and each constant that is still without a value lacks a name. -/
theorem settle_run {table : SymbolTable} {lines : List Line}
    (settleable : Settleable table lines) :
    Run lines table (log table (lines.map (Line.settledIn table)))
        (settle table (lines.map (Line.settledIn table))).1 ∧
      (settle table (lines.map (Line.settledIn table))).2 =
        lines.map (Line.settledIn (settle table (lines.map (Line.settledIn table))).1) ∧
      ∀ line ∈ lines, ∀ name reference, line.waiting? = some (name, reference) →
        (settle table (lines.map (Line.settledIn table))).1.value? name = none →
        ∃ missing, reference.resolve
          (settle table (lines.map (Line.settledIn table))).1.value? = .error missing := by
  induction count : pendingCount (lines.map (Line.settledIn table)) using Nat.strong_induction_on
    generalizing table with
  | _ count ih =>
      obtain ⟨run, swept⟩ := sweep_tracks settleable
      rw [settle, log]
      by_cases progress : pendingCount (sweep table (lines.map (Line.settledIn table))).2 <
          pendingCount (lines.map (Line.settledIn table))
      · simp only [progress, ↓reduceIte]
        rw [swept] at progress ⊢
        obtain ⟨later, shown, stuck⟩ :=
          ih _ (count ▸ progress) (settleable.grow run.grows) rfl
        exact ⟨run.append later, shown, stuck⟩
      · simp only [progress, ↓reduceIte, List.append_nil]
        refine ⟨run, swept, ?_⟩
        obtain ⟨same, stuck⟩ := sweep_of_sweepLog_eq_nil (sweepLog_eq_nil progress)
        rw [same]
        intro line member name reference waits unsettled
        have shown : line.settledIn table = line :=
          Line.settledIn_of_value?_eq_none waits unsettled
        exact stuck line (List.mem_map.mpr ⟨line, member, shown⟩) name reference waits

end Settlement

/-! ### Assembled programs -/

namespace Layout

/-- After the first pass the constants that wait for names can be settled one by one. -/
theorem Registered.settleable {table : SymbolTable} {lines : List Line}
    (registered : Registered table lines) : Settlement.Settleable table lines := by
  constructor
  · refine List.Pairwise.imp_of_mem ?_ (List.pairwise_map.mp registered.numbered)
    intro first second inFirst inSecond different firstName firstRef secondName secondRef
      firstWaits secondWaits same
    have equal := registered.eq_of_key_eq inFirst inSecond
      (Line.waiting?_eq_some_iff.mp firstWaits) (Line.waiting?_eq_some_iff.mp secondWaits) same
    exact different (congrArg Line.number equal)
  · intro line member name reference waits
    exact ⟨_, registered.waiting line member name reference (Line.waiting?_eq_some_iff.mp waits)⟩

theorem Registered.value?_eq_none {table : SymbolTable} {lines : List Line}
    (registered : Registered table lines) {line : Line} (member : line ∈ lines) {name : Text}
    {reference : Reference} (waits : line.waiting? = some (name, reference)) :
    table.value? name = none := by
  rw [SymbolTable.value?,
    registered.waiting line member name reference (Line.waiting?_eq_some_iff.mp waits)]
  rfl

/-- Lines of the first pass stand as they do in the table of the first pass. -/
theorem Registered.map_settledIn {table : SymbolTable} {lines : List Line}
    (registered : Registered table lines) : lines.map (Line.settledIn table) = lines := by
  conv_rhs => rw [← List.map_id lines]
  apply List.map_congr_left
  intro line member
  cases waits : line.waiting? with
  | none => exact Line.settledIn_of_none waits table
  | some found =>
      exact Line.settledIn_of_value?_eq_none waits (registered.value?_eq_none member waits)

end Layout

/-! ### Finished lines -/

namespace Line

/-- What becomes of a line in the second pass. -/
def finished (table : SymbolTable) (line : Line) : Line :=
  line.withContent (Settlement.complete table.value? (line.settledIn table).content)

theorem finished_of_none {line : Line} (plain : line.waiting? = none) (table : SymbolTable) :
    line.finished table = line.withContent (Settlement.complete table.value? line.content) := by
  rw [finished, settledIn_of_none plain]

theorem finished_of_code {line : Line} {fields : List Field} (code : line.content = .code fields)
    (table : SymbolTable) :
    (line.finished table).content = .ofResult do
      let fields ← fields.mapM (Settlement.completeField table.value?)
      return .code fields := by
  have plain : line.waiting? = none := by rw [waiting?, code]
  rw [finished_of_none plain, code]
  rfl

theorem finished_of_fault {line : Line} {cause : Fault} (fault : line.content = .fault cause)
    (table : SymbolTable) : (line.finished table).content = .fault cause := by
  have plain : line.waiting? = none := by rw [waiting?, fault]
  rw [finished_of_none plain, fault]
  rfl

/-- A fault stays one. -/
theorem isFault_of_finished {line : Line} {table : SymbolTable}
    (clean : (line.finished table).isFault = false) : line.isFault = false := by
  unfold isFault at clean ⊢
  cases content : line.content with
  | fault cause => rw [finished_of_fault content] at clean; cases clean
  | _ => rfl

theorem finished_of_value? {line : Line} {name : Text} {reference : Reference}
    (waits : line.waiting? = some (name, reference)) {table : SymbolTable} {word : Word}
    (valued : table.value? name = some word) :
    line.finished table = line.withContent (.constant name (.known word)) := by
  rw [finished, settledIn_of_value? waits valued]
  rfl

/-- A constant that is left without a value becomes a fault that shows the missing name. -/
theorem finished_of_stuck {line : Line} {name : Text} {reference : Reference}
    (waits : line.waiting? = some (name, reference)) {table : SymbolTable} {missing : Text}
    (unsettled : table.value? name = none)
    (stuck : reference.resolve table.value? = .error missing) :
    line.finished table = line.withContent (.fault (.undefinedName missing)) := by
  rw [finished, settledIn_of_value?_eq_none waits unsettled, waiting?_eq_some_iff.mp waits]
  simp only [Settlement.complete, Value.settle, stuck]
  rfl

/-- What a line without a fault became in the second pass. -/
theorem finished_cases {line : Line} {table : SymbolTable}
    (clean : (line.finished table).isFault = false) :
    ((line.finished table).content = line.content ∧ ∀ fields, line.content ≠ .code fields) ∨
    (∃ name value word, line.content = .constant name value ∧
      (line.finished table).content = .constant name (.known word)) ∨
    ∃ fields resolved, line.content = .code fields ∧
      fields.mapM (Settlement.completeField table.value?) = .ok resolved ∧
      (line.finished table).content = .code resolved := by
  cases content : line.content with
  | code fields =>
      rw [isFault, finished_of_code content] at clean
      rw [finished_of_code content]
      cases completed : fields.mapM (Settlement.completeField table.value?) with
      | error fault =>
          rw [completed] at clean
          cases clean
      | ok resolved => exact .inr (.inr ⟨fields, resolved, rfl, completed, rfl⟩)
  | constant name value =>
      refine .inr (.inl ⟨name, value, ?_⟩)
      have shown : ∃ value, (line.settledIn table).content = .constant name value := by
        cases waits : line.waiting? with
        | none => exact ⟨value, by rw [settledIn_of_none waits, content]⟩
        | some found =>
            have same := waiting?_eq_some_iff.mp waits
            rw [content] at same
            cases same
            cases valued : table.value? found.1 with
            | none => exact ⟨_, by rw [settledIn_of_value?_eq_none waits valued, content]⟩
            | some word => exact ⟨_, by rw [settledIn_of_value? waits valued]; rfl⟩
      obtain ⟨seen, shown⟩ := shown
      rw [isFault, finished, shown] at clean
      rw [finished, shown]
      change Content.isFault (.ofResult (seen.settle table.value? >>= _)) = false at clean
      change ∃ word, _ ∧ Content.ofResult (seen.settle table.value? >>= _) = _
      cases settled : seen.settle table.value? with
      | error fault =>
          rw [settled] at clean
          cases clean
      | ok word => exact ⟨word, rfl, rfl⟩
  | _ =>
      refine .inl ⟨?_, fun _ => Content.noConfusion⟩
      have plain : line.waiting? = none := by rw [waiting?, content]
      rw [finished, settledIn_of_none plain, content]
      rfl

/-- Code was code before, and all its fields could be completed. -/
theorem exists_of_finished_code {line : Line} {table : SymbolTable} {resolved : List Field}
    (code : (line.finished table).content = .code resolved) :
    ∃ fields, line.content = .code fields ∧
      fields.mapM (Settlement.completeField table.value?) = .ok resolved := by
  have clean : (line.finished table).isFault = false := by
    rw [isFault, code]
    rfl
  rcases finished_cases clean with ⟨same, noCode⟩ | ⟨name, value, word, _, after⟩ |
    ⟨fields, others, before, completed, after⟩
  · exact (noCode resolved (same.symm.trans code)).elim
  · rw [code] at after
    cases after
  · rw [code] at after
    cases after
    exact ⟨fields, before, completed⟩

end Line

section Assembled

variable (origin : Word) (source : List Text)

/-- The readings of the constants that a program settles in the second pass, in their order. -/
def readings : List Settlement.Reading :=
  Settlement.log (Layout.ofSource origin source).1.symbols (Layout.ofSource origin source).2

/-- The symbols of a program are those of the first pass after a run of settlements. -/
theorem assemble_run :
    Settlement.Run (Layout.ofSource origin source).2 (Layout.ofSource origin source).1.symbols
      (readings origin source) (assemble origin source).symbols := by
  have registered := Layout.registered_ofSource origin source
  have run := (Settlement.settle_run registered.settleable).1
  rwa [registered.map_settledIn] at run

/-- Each line of a program is the line of the first pass, finished with the final symbols. -/
theorem assemble_lines :
    (assemble origin source).lines =
      (Layout.ofSource origin source).2.map (Line.finished (assemble origin source).symbols) := by
  have registered := Layout.registered_ofSource origin source
  have shown := (Settlement.settle_run registered.settleable).2.1
  rw [registered.map_settledIn] at shown
  change List.map _ (Settlement.settle (Layout.ofSource origin source).1.symbols
    (Layout.ofSource origin source).2).2 = _
  rw [shown, List.map_map]
  apply List.map_congr_left
  intro line _
  have sameLine : ∀ table, (line.settledIn table).withContent = line.withContent := by
    intro table
    unfold Line.settledIn
    split
    · split <;> rfl
    · rfl
  exact congrFun (sameLine _) _

/-- A constant that is left without a value lacks one of its names. -/
theorem assemble_stuck {line : Line} (member : line ∈ (Layout.ofSource origin source).2)
    {name : Text} {reference : Reference} (waits : line.waiting? = some (name, reference))
    (unsettled : (assemble origin source).symbols.value? name = none) :
    ∃ mention ∈ reference.mentions,
      (assemble origin source).symbols.value?.orPeripheral mention.name = none ∧
      reference.resolve (assemble origin source).symbols.value? = .error mention.name := by
  have registered := Layout.registered_ofSource origin source
  have stuck := (Settlement.settle_run registered.settleable).2.2
  rw [registered.map_settledIn] at stuck
  obtain ⟨missing, failed⟩ := stuck line member name reference waits unsettled
  change reference.resolve (assemble origin source).symbols.value? = _ at failed
  rcases reference.resolve_cases (assemble origin source).symbols.value? with
    ⟨⟨word, resolved⟩, _⟩ | lacking
  · rw [resolved] at failed
    cases failed
  · exact lacking

/-- **Nothing that a line has read changes.** The table that a line was placed with grows into
the final one. -/
theorem assemble_grows {index : Nat} (bounded : index ≤ source.length) :
    (Layout.before origin source index).symbols.Grows (assemble origin source).symbols := by
  have early := @Layout.before_grows origin source _ _ bounded (Nat.le_refl source.length)
  rw [Layout.before_length] at early
  exact early.trans (assemble_run origin source).grows

theorem length_assemble : (assemble origin source).lines.length = source.length := by
  rw [assemble_lines, List.length_map, Layout.length_ofSource]

/-- The line at a position of the program, in terms of the state before it. -/
theorem assemble_getElem? {index : Nat} {text : Text} (present : source[index]? = some text) :
    (assemble origin source).lines[index]? =
      some (((Layout.before origin source index).step (index + 1) text).2.finished
        (assemble origin source).symbols) := by
  rw [assemble_lines, List.getElem?_map, Layout.ofSource_getElem?, present]
  rfl

end Assembled

end Msp430
