import Csveee.Parser.Dfa.Parser
import Csveee.Parser.Simd.Parser

/-!
# Readers that fail

A reader whose `fill` calls fail goes through the same views as one whose calls do not, up to
the first call that fails.  So whatever is parsed from the two is the same, or the failure is
reported in its place.
-/

namespace Csveee

/-- The schedule with its failures replaced. -/
def Schedule.RepairedBy (schedule repaired : Schedule) : Prop :=
  ∀ call, repaired call = schedule call ∨ ∃ err, schedule call = .fails err

namespace ChunkReader

/-- Two readers that differ in the failures to come only; the failures of the first are ones of
the schedule it was opened with. -/
structure Repaired (schedule : Schedule) (reader reader' : ChunkReader) : Prop where
  same : reader' = { reader with schedule := reader'.schedule }
  repaired : reader.schedule.RepairedBy reader'.schedule
  suffix : reader.schedule.Suffix schedule

variable {schedule : Schedule} {reader reader' : ChunkReader}

theorem Repaired.pending (h : Repaired schedule reader reader') :
    reader'.pending = reader.pending := by
  rw [h.same]

theorem Repaired.buffer (h : Repaired schedule reader reader') :
    reader'.buffer = reader.buffer := by
  rw [h.same]
  rfl

theorem Repaired.remainingInChunk (h : Repaired schedule reader reader') :
    reader'.remainingInChunk = reader.remainingInChunk := by
  rw [h.same]
  rfl

theorem Repaired.consume (h : Repaired schedule reader reader') (n : ℕ) :
    Repaired schedule (reader.consume n) (reader'.consume n) where
  same := by
    rw [h.same]
    rfl
  repaired := h.repaired
  suffix := h.suffix

theorem Repaired.setBuffer (h : Repaired schedule reader reader') (buf : Bytes) :
    Repaired schedule (reader.setBuffer buf) (reader'.setBuffer buf) where
  same := by
    rw [h.same]
    rfl
  repaired := h.repaired
  suffix := h.suffix

theorem Repaired.fill (h : Repaired schedule reader reader') (n : ℕ) :
    (∃ err, schedule.FailsWith err ∧ reader.fill n = .error err) ∨
      ∃ filled filled', reader.fill n = .ok filled ∧ reader'.fill n = .ok filled' ∧
        Repaired schedule filled filled' := by
  cases hevent : reader.schedule 0 with
  | fails err =>
      refine Or.inl ⟨err, h.suffix.failsWith hevent, ?_⟩
      rw [ChunkReader.fill, hevent]
  | exposes extra misalign =>
      have hsame : reader'.schedule 0 = .exposes extra misalign := by
        rcases h.repaired 0 with heq | ⟨err, hfails⟩
        · rw [heq, hevent]
        · rw [hevent] at hfails
          cases hfails
      refine Or.inr ⟨_, _, by rw [ChunkReader.fill, hevent], by rw [ChunkReader.fill, hsame],
        ?_, fun call => h.repaired (call + 1), h.suffix.tail⟩
      rw [h.same]

end ChunkReader

/-- A result is a failure, or the other result up to what is related. -/
inductive UpToFailure {α : Type} (failed : IoError → Prop) (related : α → α → Prop) :
    Except Error α → Except Error α → Prop
  | failed {err : IoError} (h : failed err) (result : Except Error α) :
      UpToFailure failed related (.error (.io err)) result
  | error (err : Error) : UpToFailure failed related (.error err) (.error err)
  | ok {value value' : α} (h : related value value') :
      UpToFailure failed related (.ok value) (.ok value')

section Scans

variable {schedule : Schedule} {reader reader' : ChunkReader}

/-- Two scans that have come to the same boundary, or to none. -/
def SameBoundary (schedule : Schedule) :
    Option (ChunkReader × ℕ) → Option (ChunkReader × ℕ) → Prop
  | none, none => True
  | some (reader, off), some (reader', off') =>
      off = off' ∧ ChunkReader.Repaired schedule reader reader'
  | _, _ => False

theorem skipEmptyLinesLoop_repaired (config : Config) (fuel consumed : ℕ)
    (h : ChunkReader.Repaired schedule reader reader') :
    UpToFailure schedule.FailsWith
      (fun left right => ChunkReader.Repaired schedule left.1 right.1 ∧ left.2 = right.2)
      (skipEmptyLinesLoop config fuel reader consumed)
      (skipEmptyLinesLoop config fuel reader' consumed) := by
  induction fuel generalizing reader reader' consumed with
  | zero => exact .ok ⟨h, rfl⟩
  | succ fuel ih =>
      rw [skipEmptyLinesLoop, skipEmptyLinesLoop]
      rcases h.fill 1 with ⟨err, hfails, herr⟩ | ⟨filled, filled', hfill, hfill', hfilled⟩
      · rw [herr]
        exact .failed hfails _
      · simp only [hfill, hfill', hfilled.buffer, hfilled.remainingInChunk]
        cases filled.buffer with
        | nil => exact .ok ⟨hfilled, rfl⟩
        | cons first rest =>
            simp only
            split_ifs
            · exact .ok ⟨hfilled, rfl⟩
            · exact .ok ⟨hfilled, rfl⟩
            · exact ih _ (hfilled.consume _)

theorem skipEmptyLines_repaired (config : Config)
    (h : ChunkReader.Repaired schedule reader reader') :
    UpToFailure schedule.FailsWith
      (fun left right => ChunkReader.Repaired schedule left.1 right.1 ∧ left.2 = right.2)
      (skipEmptyLines config reader) (skipEmptyLines config reader') := by
  rw [skipEmptyLines, skipEmptyLines, h.pending]
  exact skipEmptyLinesLoop_repaired config _ 0 h

end Scans

namespace ChunkDriver

variable {τ σ : Type} {schedule : Schedule} {driver driver' : ChunkDriver}

/-- Two drivers in the same place, whose readers differ in the failures to come. -/
structure Repaired (schedule : Schedule) (driver driver' : ChunkDriver) : Prop where
  same : driver' = { driver with reader := driver'.reader }
  reader : ChunkReader.Repaired schedule driver.reader driver'.reader

theorem Repaired.stepCtx (h : Repaired schedule driver driver') :
    driver'.stepCtx = driver.stepCtx := by
  rw [h.same, ChunkDriver.stepCtx, ChunkDriver.stepCtx, h.reader.same]
  rfl

theorem Repaired.advance (h : Repaired schedule driver driver') (buf : Bytes)
    (resumeAt consumable : ℕ) :
    Repaired schedule (driver.advance buf resumeAt consumable)
      (driver'.advance buf resumeAt consumable) where
  same := by
    rw [h.same]
    rfl
  reader := (h.reader.setBuffer buf).consume consumable

/-- The validation of fresh bytes looks at the view only. -/
theorem Repaired.validateFresh (h : Repaired schedule driver driver') (output : Output) :
    UpToFailure schedule.FailsWith (Repaired schedule) (validateFresh output driver)
      (validateFresh output driver') := by
  have hvalidated : driver'.validated = driver.validated := by rw [h.same]
  have htotal : driver'.totalConsumed = driver.totalConsumed := by rw [h.same]
  simp only [ChunkDriver.validateFresh, h.reader.buffer, hvalidated, htotal]
  split
  · exact .ok h
  · split
    · refine .ok ⟨?_, h.reader⟩
      rw [h.same]
    · exact .error _

theorem Repaired.epilogue (h : Repaired schedule driver driver') (stepper : ChunkStepper τ σ)
    (st : τ) (state : σ) (last : Option ℕ) :
    epilogue stepper driver' st state last = epilogue stepper driver st state last := by
  have hvalidated : driver'.validated = driver.validated := by rw [h.same]
  have htotal : driver'.totalConsumed = driver.totalConsumed := by rw [h.same]
  rw [ChunkDriver.epilogue, ChunkDriver.epilogue, h.reader.buffer, h.stepCtx, hvalidated, htotal]

end ChunkDriver

namespace ChunkParser

variable {σ : Type}

/-- A parser that learns of its readers through their views only. -/
structure Transparent (parser : ChunkParser σ) : Prop where
  scan : ∀ {schedule reader reader'}, ChunkReader.Repaired schedule reader reader' →
    ∀ assumption find, UpToFailure schedule.FailsWith (SameBoundary schedule)
      (parser.scan reader assumption find) (parser.scan reader' assumption find)
  parseFrom : ∀ {schedule reader reader'}, ChunkReader.Repaired schedule reader reader' →
    ∀ state base, ChunkDriver.EndsAs schedule (parser.parseFrom reader' state base)
      (parser.parseFrom reader state base)

/-- What a pass on a failing reader comes to, against the one on the repaired reader: the same,
or a failure before the boundary or past it. -/
def PassUpToFailure (failed : IoError → Prop) (pr pr' : PassResult σ) : Prop :=
  pr = pr' ∨ ∃ err, failed err ∧ pr.result = .error (.io err) ∧ pr.recordEnd = none ∧
    (pr.recordStart = none ∨ pr.recordStart.isSome = true ∧ pr.recordStart = pr'.recordStart)

variable {parser : ChunkParser σ} {schedule : Schedule} {reader reader' : ChunkReader}

theorem Transparent.parseBody (h : parser.Transparent)
    (hreader : ChunkReader.Repaired schedule reader reader') (state : σ) (recordStart : ℕ) :
    PassUpToFailure schedule.FailsWith (parser.parseBody reader state recordStart)
      (parser.parseBody reader' state recordStart) := by
  have hstart := parser.parseBody_recordStart reader' state recordStart
  have hskip := skipEmptyLines_repaired parser.config hreader
  rw [ChunkParser.parseBody] at hstart ⊢
  rw [ChunkParser.parseBody]
  generalize skipEmptyLines parser.config reader = left at hskip ⊢
  generalize skipEmptyLines parser.config reader' = right at hskip hstart ⊢
  cases hskip with
  | @failed err hfails => exact Or.inr ⟨err, hfails, rfl, rfl, Or.inr ⟨rfl, hstart.symm⟩⟩
  | error err => exact Or.inl rfl
  | @ok left right hsame =>
      obtain ⟨later, skipped, straddles⟩ := left
      obtain ⟨later', skipped', straddles'⟩ := right
      obtain ⟨hlater, heq⟩ := hsame
      cases heq
      cases straddles with
      | true => exact Or.inl rfl
      | false =>
          change ChunkReader.Repaired schedule later later' at hlater
          change PassUpToFailure schedule.FailsWith
            (.started recordStart (parser.parseFrom later state (recordStart + skipped)).2
              (parser.parseFrom later state (recordStart + skipped)).1)
            (.started recordStart (parser.parseFrom later' state (recordStart + skipped)).2
              (parser.parseFrom later' state (recordStart + skipped)).1)
          rcases h.parseFrom hlater state (recordStart + skipped) with
            hsame | ⟨left, err, hfails, herr⟩
          · rw [hsame]
            exact Or.inl rfl
          · rw [herr]
            exact Or.inr ⟨err, hfails, rfl, rfl, Or.inr ⟨rfl, hstart.symm⟩⟩

theorem Transparent.parse (h : parser.Transparent)
    (hreader : ChunkReader.Repaired schedule reader reader') (state : σ)
    (assumption : Assumption) (find : FindRecordStart) :
    PassUpToFailure schedule.FailsWith (parser.parse reader state assumption find)
      (parser.parse reader' state assumption find) := by
  have hscan := h.scan hreader assumption find
  rw [ChunkParser.parse, ChunkParser.parse]
  generalize parser.scan reader assumption find = left at hscan ⊢
  generalize parser.scan reader' assumption find = right at hscan ⊢
  cases hscan with
  | @failed err hfails => exact Or.inr ⟨err, hfails, rfl, rfl, Or.inl rfl⟩
  | error err => exact Or.inl rfl
  | @ok found found' hfound =>
      cases found with
      | none =>
          cases found' with
          | none => exact Or.inl rfl
          | some _ => exact hfound.elim
      | some found =>
          cases found' with
          | none => exact hfound.elim
          | some found' =>
              obtain ⟨later, off⟩ := found
              obtain ⟨later', off'⟩ := found'
              obtain ⟨rfl, hlater⟩ := hfound
              exact h.parseBody hlater state off

end ChunkParser

end Csveee
