import Mathlib.Data.List.Induction
import Msp430.Proofs.ListingBytes

/-! # The history of object code

Object code is collected in steps: an origin closes the open segment, a field is
appended to it. Whatever the steps were, they fall into stretches, each of which opens
a segment and fills it (`ObjectFile.exists_recounted`). The closed segments are the
stretches before the last one that stored something, and the open segment is the last
one. So the bytes of all segments together are those of the fields, in order, and the
checksum is the sum of their values (`ObjectFile.after_recounted`). The object code of a
program is collected in this way (`ObjectFile.ofLines_eq_after`).
-/

namespace Msp430

/-- A step of collecting object code. -/
inductive ObjectStep where
  /-- Close the open segment and open one at an address. -/
  | org (address : Word)
  /-- Append a field to the open segment. -/
  | emit (field : Field)
deriving DecidableEq, Repr

namespace ObjectStep

/-- The field that a step appends. -/
def field? : ObjectStep → Option Field
  | org _ => none
  | emit field => some field

theorem filterMap_field?_map_emit (fields : List Field) :
    (fields.map emit).filterMap field? = fields := by
  rw [List.filterMap_map]
  exact List.filterMap_some

end ObjectStep

/-- Steps that open a segment and fill it. -/
structure Stretch where
  /-- Where the segment is opened. -/
  address : Word
  /-- What is appended to it. -/
  fields : List Field

namespace Stretch

/-- The steps of a stretch. -/
def steps (stretch : Stretch) : List ObjectStep :=
  .org stretch.address :: stretch.fields.map .emit

/-- The segment that a stretch fills. -/
def segment (stretch : Stretch) : Segment :=
  ⟨stretch.address, stretch.fields.flatMap Field.bytes⟩

theorem filterMap_field?_steps (stretch : Stretch) :
    stretch.steps.filterMap ObjectStep.field? = stretch.fields := by
  rw [steps, List.filterMap_cons_none rfl, ObjectStep.filterMap_field?_map_emit]

end Stretch

namespace ObjectFile

/-- The object code after a step. -/
def apply (object : ObjectFile) : ObjectStep → ObjectFile
  | .org address => object.org address
  | .emit field => object.emit field

/-- The object code that is collected from an origin by steps. -/
def after (origin : Word) (steps : List ObjectStep) : ObjectFile :=
  steps.foldl apply (start origin)

theorem after_concat (origin : Word) (steps : List ObjectStep) (step : ObjectStep) :
    after origin (steps ++ [step]) = (after origin steps).apply step := by
  rw [after, List.foldl_concat, ← after]

/-! ### Stretches -/

/-- Object code whose steps fall into stretches: the last one is open, and of the others those that
stored something are closed segments. -/
structure Recounted (object : ObjectFile) (steps : List ObjectStep) (closed : List Stretch)
    (last : Stretch) : Prop where
  /-- The stretches are the steps. -/
  history : (closed ++ [last]).flatMap Stretch.steps = steps
  segments : object.segments = storedRuns (closed.map Stretch.segment)
  current : object.current = last.segment

namespace Recounted

variable {object : ObjectFile} {steps : List ObjectStep} {closed : List Stretch} {last : Stretch}

/-- An origin closes the last stretch. -/
theorem org (recounted : Recounted object steps closed last) (address : Word) :
    Recounted (object.org address) (steps ++ [.org address]) (closed ++ [last])
      ⟨address, []⟩ where
  history := by
    rw [List.flatMap_append, recounted.history, List.flatMap_singleton]
    rfl
  segments := by
    rw [segments_org, recounted.segments, recounted.current, List.map_append, storedRuns,
      storedRuns, storedRuns, List.filter_append]
    rfl
  current := rfl

/-- A field goes to the last stretch. -/
theorem emit (recounted : Recounted object steps closed last) (field : Field) :
    Recounted (object.emit field) (steps ++ [.emit field]) closed
      ⟨last.address, last.fields ++ [field]⟩ where
  history := by
    rw [← recounted.history, List.flatMap_append, List.flatMap_append, List.append_assoc,
      List.flatMap_singleton, List.flatMap_singleton, Stretch.steps, Stretch.steps,
      List.map_append]
    rfl
  segments := recounted.segments
  current := by
    rw [ObjectFile.emit, recounted.current, Stretch.segment, Stretch.segment,
      List.flatMap_append, List.flatMap_singleton]

/-- **A step keeps the account:** it goes on with the last stretch or opens another. -/
theorem step (recounted : Recounted object steps closed last) (step : ObjectStep) :
    ∃ closed last, Recounted (object.apply step) (steps ++ [step]) closed last := by
  cases step with
  | org address => exact ⟨_, _, recounted.org address⟩
  | emit field => exact ⟨_, _, recounted.emit field⟩

theorem filterMap_field? (recounted : Recounted object steps closed last) :
    steps.filterMap ObjectStep.field? = (closed ++ [last]).flatMap Stretch.fields := by
  rw [← recounted.history, List.filterMap_flatMap]
  simp only [Stretch.filterMap_field?_steps]

/-- The segments hold the bytes of the fields, and the bytes follow each other as the fields do. -/
theorem flatMap_bytes (recounted : Recounted object steps closed last) :
    object.segments.flatMap Segment.bytes ++ object.current.bytes =
      (steps.filterMap ObjectStep.field?).flatMap Field.bytes := by
  rw [recounted.segments, recounted.current, recounted.filterMap_field?, flatMap_bytes_storedRuns,
    List.flatMap_map, List.flatMap_assoc, List.flatMap_append, List.flatMap_singleton]
  rfl

theorem bytes_ne_nil (recounted : Recounted object steps closed last) :
    ∀ segment ∈ object.segments, segment.bytes ≠ [] := by
  intro segment member
  rw [recounted.segments, storedRuns] at member
  simpa using (List.mem_filter.mp member).2

end Recounted

/-- **Object code tells its history.** The origin counts as the opening of the first stretch. -/
theorem exists_recounted (origin : Word) (steps : List ObjectStep) :
    ∃ closed last, Recounted (after origin steps) (.org origin :: steps) closed last := by
  induction steps using List.reverseRecOn with
  | nil => exact ⟨[], ⟨origin, []⟩, rfl, rfl, rfl⟩
  | append_singleton steps step ih =>
      obtain ⟨closed, last, recounted⟩ := ih
      rw [after_concat]
      exact recounted.step step

/-! ### The checksum -/

theorem checksum_after (origin : Word) (steps : List ObjectStep) :
    (after origin steps).checksum = BitVec.ofNat 16
      ((steps.filterMap ObjectStep.field?).map fun field => field.checksum.toNat).sum := by
  induction steps using List.reverseRecOn with
  | nil => rfl
  | append_singleton steps step ih =>
      rw [after_concat, List.filterMap_append]
      cases step with
      | org address =>
          rw [List.filterMap_cons_none rfl, List.filterMap_nil, List.append_nil]
          exact ih
      | emit field =>
          have appended : [ObjectStep.emit field].filterMap ObjectStep.field? = [field] := rfl
          rw [appended, List.map_append, List.sum_append, BitVec.ofNat_add, ← ih,
            List.map_singleton, List.sum_singleton, BitVec.ofNat_toNat, BitVec.setWidth_eq]
          rfl

/-- **Object code loses, repeats and moves nothing.** Whatever origins and fields it was collected
from, its segments hold the bytes of the fields in order. The steps, with the origin in front,
fall into stretches; the closed segments are the stretches before the last one that stored
something, each at the address where it was opened and with the bytes of the fields up to the next
origin. None of them is empty. The checksum is the sum of the values of all fields modulo 65536, and
no origin changes it. -/
theorem after_recounted (origin : Word) (steps : List ObjectStep) :
    let object := after origin steps
    let emitted := steps.filterMap ObjectStep.field?
    object.segments.flatMap Segment.bytes ++ object.current.bytes =
        emitted.flatMap Field.bytes ∧
      (∃ closed last, (closed ++ [last]).flatMap Stretch.steps = .org origin :: steps ∧
        object.segments =
          (closed.map Stretch.segment).filter (fun segment => !segment.bytes.isEmpty) ∧
        object.current = last.segment) ∧
      (∀ segment ∈ object.segments, segment.bytes ≠ []) ∧
      object.checksum.toNat = (emitted.map fun field => field.checksum.toNat).sum % 65536 ∧
      ∀ address, (object.org address).checksum = object.checksum := by
  intro object emitted
  obtain ⟨closed, last, recounted⟩ := exists_recounted origin steps
  have bytes := recounted.flatMap_bytes
  rw [List.filterMap_cons_none rfl] at bytes
  refine ⟨bytes, ⟨closed, last, recounted.history, recounted.segments, recounted.current⟩,
    recounted.bytes_ne_nil, ?_, fun address => rfl⟩
  rw [show object.checksum = _ from checksum_after origin steps, BitVec.toNat_ofNat]

/-! ### Programs -/

end ObjectFile

/-- The steps that a line of a program takes. -/
def Line.steps (line : Line) : List ObjectStep :=
  match line.content with
  | .origin address => [.org address]
  | .code fields => fields.map .emit
  | _ => []

namespace ObjectFile

theorem foldl_apply_steps (object : ObjectFile) (line : Line) :
    line.steps.foldl apply object = object.add line := by
  unfold Line.steps add
  cases line.content with
  | code fields =>
      dsimp only
      rw [emitAll_eq_foldl, List.foldl_map]
      rfl
  | _ => rfl

/-- **The object code of a program is collected in steps,** those of its lines one after another and
an origin that closes the last segment. -/
theorem ofLines_eq_after (lines : List Line) :
    ofLines lines = after ((lines.head?.map Line.address).getD 0)
      (lines.flatMap Line.steps ++ [.org 0]) := by
  rw [after_concat, after, List.foldl_flatMap]
  simp only [foldl_apply_steps]
  rfl

end ObjectFile

end Msp430
