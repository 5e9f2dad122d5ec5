import Msp430.Proofs.QuoteScan
import Msp430.Proofs.SettlementRun
import Msp430.Proofs.StatementForms

/-! # Comments in a source

The assembler looks at a line only to take it apart; after that the text of the
line is carried along for the listing. So sources whose lines are taken apart alike
give programs that differ in the texts of their lines only
(`assemble_textless`). A comment behind a line changes nothing about how the
line is taken apart (`Commented.classify_eq`).
-/

namespace Msp430

/-! ### Lines without their texts -/

/-- The line without its source text. -/
def Line.textless (line : Line) : Line :=
  { line with source := [] }

theorem Line.waiting?_textless (line : Line) : line.textless.waiting? = line.waiting? :=
  rfl

namespace Layout

/-- Lines that are the same statement take the first pass alike. -/
theorem step_textless (layout : Layout) (number : Nat) {text other : Text}
    (alike : Statement.classify text = Statement.classify other) :
    (layout.step number text).1 = (layout.step number other).1 ∧
      (layout.step number text).2.textless = (layout.step number other).2.textless := by
  have outcomes : layout.outcome number text = layout.outcome number other := by
    rw [outcome, alike, outcome]
  rw [step_eq, outcomes]
  exact ⟨rfl, rfl⟩

/-- Sources that are the same statements line by line take the first pass alike. -/
theorem steps_textless (layout : Layout) (number : Nat) {source others : List Text}
    (alike : List.Forall₂ (fun text other => Statement.classify text = Statement.classify other)
      source others) :
    (layout.steps number source).1 = (layout.steps number others).1 ∧
      (layout.steps number source).2.map Line.textless =
        (layout.steps number others).2.map Line.textless := by
  induction alike generalizing layout number with
  | nil => exact ⟨rfl, rfl⟩
  | cons first _ ih =>
      obtain ⟨sameLayout, sameLine⟩ := layout.step_textless number first
      simp only [steps, sameLayout, List.map_cons, sameLine]
      obtain ⟨sameEnd, sameLines⟩ := ih (layout.step number _).1 (number + 1)
      exact ⟨sameEnd, by rw [sameLines]⟩

end Layout

namespace Settlement

/-- A sweep does not look at the text of a line. -/
theorem sweep_textless (table : SymbolTable) (lines : List Line) :
    sweep table (lines.map Line.textless) =
      ((sweep table lines).1, (sweep table lines).2.map Line.textless) := by
  induction lines generalizing table with
  | nil => rfl
  | cons line rest ih =>
      have waitsTextless := line.waiting?_textless
      rw [List.map_cons]
      cases waits : line.waiting? with
      | none =>
          rw [waits] at waitsTextless
          rw [(sweep_cons_of_none table rest waits).1,
            (sweep_cons_of_none table (rest.map Line.textless) waitsTextless).1, ih]
          rfl
      | some constant =>
          obtain ⟨name, reference⟩ := constant
          rw [waits] at waitsTextless
          cases resolved : reference.resolve table.value? with
          | ok word =>
              rw [(sweep_cons_of_ok rest waits resolved).1,
                (sweep_cons_of_ok (rest.map Line.textless) waitsTextless resolved).1, ih]
              rfl
          | error missing =>
              rw [(sweep_cons_of_error rest waits resolved).1,
                (sweep_cons_of_error (rest.map Line.textless) waitsTextless resolved).1, ih]
              rfl

theorem pendingCount_textless (lines : List Line) :
    pendingCount (lines.map Line.textless) = pendingCount lines :=
  List.countP_map

/-- Settling the constants does not look at the text of a line. -/
theorem settle_textless (table : SymbolTable) (lines : List Line) :
    settle table (lines.map Line.textless) =
      ((settle table lines).1, (settle table lines).2.map Line.textless) := by
  fun_induction settle table lines with
  | case1 table lines next progress ih =>
      rw [settle]
      simp only [sweep_textless, pendingCount_textless]
      rw [if_pos progress, ih]
  | case2 table lines next done =>
      rw [settle]
      simp only [sweep_textless, pendingCount_textless]
      rw [if_neg done]

end Settlement

/-- The program without the texts of its lines. -/
def Program.textless (program : Program) : Program :=
  ⟨program.lines.map Line.textless, program.symbols⟩

/-- The second pass does not look at the text of a line. -/
theorem Settlement.finish_textless (table : SymbolTable) (lines : List Line) :
    finish table (lines.map Line.textless) = (finish table lines).textless := by
  simp only [finish, settle_textless, List.map_map, Program.textless]
  rfl

/-- The texts of the lines do not matter for the object code. -/
theorem Program.object?_textless (program : Program) :
    program.textless.object? = program.object? := by
  have objects : ∀ object : ObjectFile,
      (program.lines.map Line.textless).foldl ObjectFile.add object =
        program.lines.foldl ObjectFile.add object := by
    intro object
    rw [List.foldl_map]
    rfl
  have origins : (program.lines.map Line.textless).head?.map Line.address =
      program.lines.head?.map Line.address := by
    rw [List.head?_map, Option.map_map]
    rfl
  simp only [object?, textless, ObjectFile.ofLines, List.any_map, objects, origins]
  rfl

/-- **A line counts for what it is taken apart into.** Sources whose lines are taken apart alike
give programs that are equal but for the texts of their lines. -/
theorem assemble_textless (origin : Word) {source others : List Text}
    (alike : List.Forall₂ (fun text other => Statement.classify text = Statement.classify other)
      source others) :
    (assemble origin source).textless = (assemble origin others).textless := by
  obtain ⟨sameLayout, sameLines⟩ := (Layout.start origin).steps_textless 1 alike
  calc (assemble origin source).textless
      = Settlement.finish (Layout.ofSource origin source).1.symbols
          ((Layout.ofSource origin source).2.map Line.textless) :=
        (Settlement.finish_textless _ _).symm
    _ = Settlement.finish (Layout.ofSource origin others).1.symbols
          ((Layout.ofSource origin others).2.map Line.textless) := by
        rw [Layout.ofSource, sameLayout, sameLines, Layout.ofSource]
    _ = (assemble origin others).textless := Settlement.finish_textless _ _

/-! ### Comments -/

/-- A line, and the same line with a comment behind it. The line is not blank, and where it ends
no quote is open, or it has a comment already. -/
inductive Commented : Text → Text → Prop where
  | kept (text : Text) : Commented text text
  | added {text : Text} (visible : ∃ c ∈ text, Text.isBlank c = false)
      (ends : Scan.quoteOver none text = none ∨ Scan.stripComment text ≠ text) (comment : Text) :
      Commented text (text ++ ';' :: comment)

/-- A comment changes nothing about how a line is taken apart. -/
theorem Commented.classify_eq {text commented : Text} (added : Commented text commented) :
    Statement.classify commented = Statement.classify text := by
  cases added with
  | kept => rfl
  | added visible ends comment =>
      -- Blank lines are told before the comment is cut off, so both lines have to be visible.
      obtain ⟨c, member, solid⟩ := visible
      have shows : ∀ {whole : Text}, c ∈ whole → (Text.trim whole).isEmpty = false := by
        intro whole inside
        rw [Bool.eq_false_iff]
        intro nothing
        rw [Text.blanks_of_trim nothing c inside] at solid
        cases solid
      have stripped : Scan.stripComment (text ++ ';' :: comment) = Scan.stripComment text :=
        Scan.cutComment_comment ends.symm comment
      rw [Statement.classify, shows (List.mem_append_left _ member), stripped,
        Statement.classify, shows member]

/-- **Comments never change the program.** If comments are put behind lines of a source that are not
blank and have closed their quotes, or have a comment already, every line keeps its number, its
address and its content, and the symbols and the object code stay the same. -/
theorem assemble_commented (origin : Word) {source commented : List Text}
    (added : List.Forall₂ Commented source commented) :
    ((assemble origin commented).lines.map fun line =>
          (line.number, line.address, line.content)) =
        ((assemble origin source).lines.map fun line =>
          (line.number, line.address, line.content)) ∧
      (assemble origin commented).symbols = (assemble origin source).symbols ∧
      (assemble origin commented).object? = (assemble origin source).object? := by
  have alike : List.Forall₂ (fun text other => Statement.classify text = Statement.classify other)
      source commented :=
    added.imp fun _ _ comment => comment.classify_eq.symm
  have programs := assemble_textless origin alike
  obtain ⟨lines, symbols⟩ := Program.mk.inj programs
  refine ⟨?_, symbols.symm, ?_⟩
  · have shown := congrArg
      (List.map fun line : Line => (line.number, line.address, line.content)) lines.symm
    rwa [List.map_map, List.map_map] at shown
  · rw [← Program.object?_textless, ← programs, Program.object?_textless]

/-- A comment with quotes and a keyword behind an instruction, a comment behind a comment that
follows a quoted semicolon, and a blank line that stays as it is. -/
theorem assemble_commented_keywords :
    let source : List Text :=
      ["Loop: mov #Size,R4".toList, " ".toList, "Size EQU ';' ; one".toList]
    let commented : List Text :=
      ["Loop: mov #Size,R4;'\" EQU é".toList, " ".toList, "Size EQU ';' ; one; END".toList]
    List.Forall₂ Commented source commented ∧
      (assemble 0x0200 commented).object? = (assemble 0x0200 source).object? ∧
      (assemble 0x0200 source).object? =
        some ⟨[⟨0x0200, [0x34, 0x40, 0x3B, 0x00]⟩], ⟨0, []⟩, 0x406F⟩ := by
  intro source commented
  have added : List.Forall₂ Commented source commented :=
    .cons (.added ⟨'L', by decide, by decide⟩ (.inl (by decide +kernel)) "'\" EQU é".toList)
      (.cons (.kept _)
        (.cons (.added ⟨'S', by decide, by decide⟩ (.inr (by decide +kernel)) " END".toList) .nil))
  exact ⟨added, (assemble_commented 0x0200 added).2.2, by decide +kernel⟩

end Msp430
