import Mathlib.Data.Nat.Basic
import Csveee.Parser.Output

/-!
# The chunk driver

The buffer management shared by all chunk parsers: the fill and consume loop
against a reader, the incremental validation of fresh bytes, and the end-of-file
epilogue.  How a parser steps over bytes is a `ChunkStepper`.
-/

namespace Csveee

/-- The view handed to the stepper in one iteration. -/
structure StepCtx where
  buf : Bytes
  scanStart : ℕ
  scanEnd : ℕ
  remainingInChunk : ℕ
  totalConsumed : ℕ
  /-- The buffer's address modulo 64. -/
  misalign : Fin 64

inductive StepResult
  /-- Reached `scanEnd` without crossing the chunk boundary. -/
  | suspended (resumeAt consumable : ℕ) (lastRecordEnd : Option ℕ)
  /-- This chunk is done, with the final record's absolute end offset. -/
  | done (recordEnd : ℕ)
  | error (err : Error)
  deriving DecidableEq

/-- The stepper, the buffer and the accumulator state after a step. -/
structure StepOutcome (τ σ : Type) where
  stepper : τ
  buf : Bytes
  state : σ
  result : StepResult

structure ChunkStepper (τ σ : Type) where
  /-- Step over `buf[scanStart..scanEnd]`, emitting records. -/
  step : τ → StepCtx → σ → StepOutcome τ σ
  /-- Account for consumed buffer bytes. -/
  consume : τ → ℕ → τ
  /-- Flush pending records, validate the terminal parser state. -/
  finalize : τ → StepCtx → σ → σ × Except Error (Option ℕ)

/-- Upper bound on the fresh bytes one iteration validates. -/
def validateWindow : ℕ := 128 * 1024

structure ChunkDriver where
  reader : ChunkReader
  /-- End of the validated prefix. -/
  validated : ℕ
  /-- Where the next stepper call resumes. -/
  resumeAt : ℕ
  /-- Absolute file offset of the bytes in the reader's buffer. -/
  totalConsumed : ℕ

namespace ChunkDriver

def new (reader : ChunkReader) (startOffset : ℕ) : ChunkDriver where
  reader := reader
  validated := 0
  resumeAt := 0
  totalConsumed := startOffset

/-- Validate fresh buffer bytes, a window of them per call. -/
def validateFresh (output : Output) (driver : ChunkDriver) :
    Except Error ChunkDriver :=
  let buf := driver.reader.buffer
  let windowEnd := min buf.length (driver.validated + 4 + validateWindow)
  if windowEnd ≤ driver.validated then .ok driver
  else
    match output.validateChunk ((buf.take windowEnd).drop driver.validated) with
    | .ok n => .ok { driver with validated := driver.validated + n }
    | .error rel => .error (.utf8 (driver.totalConsumed + driver.validated + rel))

/-- The stepper context for the driver's current view. -/
def stepCtx (driver : ChunkDriver) : StepCtx where
  buf := driver.reader.buffer
  scanStart := driver.resumeAt
  scanEnd := driver.validated
  remainingInChunk := driver.reader.remainingInChunk
  totalConsumed := driver.totalConsumed
  misalign := driver.reader.misalign

variable {τ σ : Type}

/-- What follows the loop: the check of an unvalidated tail, then the
stepper's own epilogue. -/
def epilogue (stepper : ChunkStepper τ σ) (driver : ChunkDriver) (st : τ)
    (state : σ) (lastRecordEnd : Option ℕ) : σ × Except Error (Option ℕ) :=
  if driver.validated < driver.reader.buffer.length then
    (state, .error (.utf8 (driver.totalConsumed + driver.validated)))
  else
    match stepper.finalize st driver.stepCtx state with
    | (state, .ok finalEnd) => (state, .ok (finalEnd.or lastRecordEnd))
    | (state, .error err) => (state, .error err)

/-- Shift the driver's view by `consumable` bytes. -/
def advance (driver : ChunkDriver) (buf : Bytes) (resumeAt consumable : ℕ) :
    ChunkDriver where
  reader := (driver.reader.setBuffer buf).consume consumable
  validated := driver.validated - consumable
  resumeAt := resumeAt - consumable
  totalConsumed := driver.totalConsumed + consumable

/-- The loop of `run`.  The fuel bounds the iterations: each one that comes
back validates a byte more. -/
def loop (stepper : ChunkStepper τ σ) (output : Output) :
    ℕ → ChunkDriver → τ → σ → Option ℕ → σ × Except Error (Option ℕ)
  | 0, driver, st, state, lastRecordEnd =>
      epilogue stepper driver st state lastRecordEnd
  | fuel + 1, driver, st, state, lastRecordEnd =>
      -- at least 4 bytes, for multibyte sequences
      match driver.reader.fill (driver.validated + 4) with
      | .error err => (state, .error (.io err))
      | .ok reader =>
          match validateFresh output { driver with reader := reader } with
          | .error err => (state, .error err)
          | .ok fresh =>
              if fresh.validated ≤ driver.validated then
                epilogue stepper fresh st state lastRecordEnd
              else
                let out := stepper.step st fresh.stepCtx state
                match out.result with
                | .done recordEnd => (out.state, .ok (some recordEnd))
                | .error err => (out.state, .error err)
                | .suspended resumeAt consumable lastRecordEnd =>
                    loop stepper output fuel
                      (fresh.advance out.buf resumeAt consumable)
                      (if 0 < consumable then stepper.consume out.stepper consumable
                        else out.stepper)
                      out.state lastRecordEnd

/-- `ChunkDriver::run`: the accumulator state left behind, and the offset just
past the last completed record. -/
def run (stepper : ChunkStepper τ σ) (output : Output) (driver : ChunkDriver)
    (st : τ) (state : σ) : σ × Except Error (Option ℕ) :=
  loop stepper output (driver.reader.pending.length + 1) driver st state none

/-! ## Reasoning about the loop

An iteration refills the view, then steps, or leaves the loop.  The rule below
carries an invariant from one iteration to the next; what it leaves to each
stepper is a single step and the epilogue.
-/

/-- What one refill makes of the driver: more bytes in view, and more of them
validated. -/
structure Refilled (output : Output) (driver fresh : ChunkDriver) : Prop where
  pending : fresh.reader.pending = driver.reader.pending
  chunkRemaining : fresh.reader.chunkRemaining = driver.reader.chunkRemaining
  schedule : fresh.reader.schedule = driver.reader.schedule.tail
  resumeAt : fresh.resumeAt = driver.resumeAt
  totalConsumed : fresh.totalConsumed = driver.totalConsumed
  available_le : fresh.reader.available ≤ fresh.reader.pending.length
  filled : min driver.reader.pending.length (driver.validated + 4) ≤ fresh.reader.available
  validated : validateFresh output { driver with reader := fresh.reader } = .ok fresh

theorem length_buffer_of_le {reader : ChunkReader}
    (h : reader.available ≤ reader.pending.length) :
    reader.buffer.length = reader.available := by
  rw [ChunkReader.buffer, List.length_take, min_eq_left h]

/-- `validateFresh` only moves the end of the validated prefix. -/
theorem validateFresh_eq {output : Output} {driver fresh : ChunkDriver}
    (h : validateFresh output driver = .ok fresh) :
    fresh = { driver with validated := fresh.validated } := by
  simp only [validateFresh] at h
  split at h
  · cases h
    rfl
  · split at h
    · cases h
      rfl
    · cases h

theorem validated_le_of_validateFresh {output : Output} {driver fresh : ChunkDriver}
    (h : validateFresh output driver = .ok fresh) :
    driver.validated ≤ fresh.validated ∧
      (driver.validated ≤ driver.reader.buffer.length →
        fresh.validated ≤ driver.reader.buffer.length) := by
  simp only [validateFresh] at h
  split at h
  · cases h
    exact ⟨le_rfl, fun hle => hle⟩
  · split at h
    · rename_i n hn
      have hle := output.validateChunk_le _ _ hn
      rw [List.length_drop, List.length_take] at hle
      cases h
      simp only
      omega
    · cases h

theorem refilled_of_fill {output : Output} {driver fresh : ChunkDriver}
    {reader : ChunkReader} (hfill : driver.reader.fill (driver.validated + 4) = .ok reader)
    (hfresh : validateFresh output { driver with reader := reader } = .ok fresh) :
    Refilled output driver fresh := by
  have heq := validateFresh_eq hfresh
  have hreader : fresh.reader = reader := congrArg ChunkDriver.reader heq
  obtain ⟨hpending, hremaining, hschedule, havail, hfilled⟩ := ChunkReader.fill_spec hfill
  exact {
    pending := by rw [hreader, hpending]
    chunkRemaining := by rw [hreader, hremaining]
    schedule := by rw [hreader, hschedule]
    resumeAt := by rw [heq]
    totalConsumed := by rw [heq]
    available_le := by rw [hreader, hpending]; exact havail
    filled := by rw [hreader]; exact hfilled
    validated := by rw [hreader]; exact hfresh }

/-- A refill leaves at least the requested bytes in view, so the validated prefix
stays in view. -/
theorem Refilled.validated_le {output : Output} {driver fresh : ChunkDriver}
    (h : Refilled output driver fresh)
    (hle : driver.validated ≤ driver.reader.pending.length) :
    driver.validated ≤ fresh.validated ∧ fresh.validated ≤ fresh.reader.available := by
  have hfilled := h.filled
  have hlen := length_buffer_of_le h.available_le
  obtain ⟨hge, hmono⟩ := validated_le_of_validateFresh h.validated
  simp only [hlen] at hmono hge
  exact ⟨hge, hmono (by omega)⟩

/-- A run has the given outcome, or it reports a `fill` call that failed. -/
def EndsAs (schedule : Schedule) (outcome result : σ × Except Error (Option ℕ)) : Prop :=
  result = outcome ∨
    ∃ state err, schedule.FailsWith err ∧ result = (state, .error (.io err))

theorem EndsAs.eq_of_reliable {schedule : Schedule}
    {outcome result : σ × Except Error (Option ℕ)} (h : EndsAs schedule outcome result)
    (hreliable : schedule.Reliable) : result = outcome := by
  rcases h with h | ⟨_, err, hfails, _⟩
  · exact h
  · exact absurd hfails (hreliable.not_failsWith err)

/-- What is consumed goes, and nothing else. -/
theorem length_advance {driver : ChunkDriver} {buf : Bytes} {resumeAt consumable : ℕ}
    (havail : driver.reader.available ≤ driver.reader.pending.length)
    (hbuf : buf.length = driver.reader.available) :
    (driver.advance buf resumeAt consumable).reader.pending.length =
      driver.reader.pending.length - consumable := by
  simp only [advance, ChunkReader.setBuffer, ChunkReader.consume, List.length_drop,
    List.length_append, hbuf]
  omega

/-- What an invariant asks of one `step`. -/
def StepKeeps (stepper : ChunkStepper τ σ)
    (Inv : ChunkDriver → τ → σ → Option ℕ → Prop)
    (Post : σ × Except Error (Option ℕ) → Prop)
    (fresh : ChunkDriver) (out : StepOutcome τ σ) : Prop :=
  match out.result with
  | .done recordEnd => Post (out.state, .ok (some recordEnd))
  | .error err => Post (out.state, .error err)
  | .suspended resumeAt consumable lastRecordEnd =>
      consumable ≤ fresh.validated ∧ out.buf.length = fresh.reader.available ∧
        Inv (fresh.advance out.buf resumeAt consumable)
          (if 0 < consumable then stepper.consume out.stepper consumable else out.stepper)
          out.state lastRecordEnd

theorem loop_rule {stepper : ChunkStepper τ σ} {output : Output}
    {Inv : ChunkDriver → τ → σ → Option ℕ → Prop}
    {Post : σ × Except Error (Option ℕ) → Prop}
    (hio : ∀ driver st state last err, Inv driver st state last →
      driver.reader.schedule 0 = .fails err → Post (state, .error (.io err)))
    (hinvalid : ∀ driver reader st state last err, Inv driver st state last →
      driver.reader.fill (driver.validated + 4) = .ok reader →
      validateFresh output { driver with reader := reader } = .error err →
      Post (state, .error err))
    (hepilogue : ∀ driver fresh st state last, Inv driver st state last →
      Refilled output driver fresh → fresh.validated ≤ driver.validated →
      Post (epilogue stepper fresh st state last))
    (hstep : ∀ driver fresh st state last, Inv driver st state last →
      Refilled output driver fresh → driver.validated < fresh.validated →
      StepKeeps stepper Inv Post fresh (stepper.step st fresh.stepCtx state))
    (fuel : ℕ) (driver : ChunkDriver) (st : τ) (state : σ) (last : Option ℕ)
    (hle : driver.validated ≤ driver.reader.pending.length)
    (hfuel : driver.reader.pending.length < driver.validated + fuel)
    (hinv : Inv driver st state last) :
    Post (loop stepper output fuel driver st state last) := by
  induction fuel generalizing driver st state last with
  | zero => omega
  | succ fuel ih =>
      rw [loop]
      cases hfill : driver.reader.fill (driver.validated + 4) with
      | error err =>
          exact hio driver st state last err hinv (ChunkReader.fill_error hfill)
      | ok reader =>
          simp only
          cases hfresh : validateFresh output { driver with reader := reader } with
          | error err => exact hinvalid driver reader st state last err hinv hfill hfresh
          | ok fresh =>
              simp only
              have hrefilled := refilled_of_fill hfill hfresh
              split
              · rename_i hstuck
                exact hepilogue driver fresh st state last hinv hrefilled hstuck
              · rename_i hprogress
                have hkeeps := hstep driver fresh st state last hinv hrefilled (by omega)
                rw [StepKeeps] at hkeeps
                split
                · rename_i recordEnd hresult
                  rwa [hresult] at hkeeps
                · rename_i err hresult
                  rwa [hresult] at hkeeps
                · rename_i resumeAt consumable lastRecordEnd hresult
                  rw [hresult] at hkeeps
                  obtain ⟨hconsumable, hbuf, hnext⟩ := hkeeps
                  have hpending := congrArg List.length hrefilled.pending
                  have havail := hrefilled.available_le
                  have hlength := @length_advance _ _ resumeAt consumable havail hbuf
                  have hvalidated : (fresh.advance
                      (stepper.step st fresh.stepCtx state).buf resumeAt
                      consumable).validated = fresh.validated - consumable := rfl
                  have hview := (hrefilled.validated_le hle).2
                  exact ih _ _ _ _ (by omega) (by omega) hnext

end ChunkDriver

end Csveee
