import Csveee.Parser.Handed

/-!
# Overwritten fields

Accumulators that give the same verdicts, whatever each leaves behind in the fields it was
handed.  Two drivers that differ in bytes that were validated come to the same, as long as
their steppers do.
-/

namespace Csveee

variable {τ σ : Type}

/-- The accumulators give the same verdicts. -/
def Accumulator.SameVerdicts (acc acc' : Accumulator σ) : Prop :=
  ∀ state record, (acc' state record).state = (acc state record).state ∧
    (acc' state record).result = (acc state record).result

theorem Accumulator.SameVerdicts.logged {acc acc' : Accumulator σ} (h : acc.SameVerdicts acc') :
    acc.logged.SameVerdicts acc'.logged := by
  intro state record
  obtain ⟨hstate, hresult⟩ := h state.1 record
  refine ⟨?_, hresult⟩
  rw [Accumulator.logged, Accumulator.logged, hstate]

namespace ChunkDriver

/-- The driver, over other bytes. -/
def withPending (driver : ChunkDriver) (pending : Bytes) : ChunkDriver :=
  { driver with reader := { driver.reader with pending := pending } }

theorem length_buffer_withPending {driver : ChunkDriver} {pending : Bytes}
    (hlength : pending.length = driver.reader.pending.length) :
    (driver.withPending pending).reader.buffer.length = driver.reader.buffer.length := by
  simp only [withPending, ChunkReader.buffer, List.length_take, hlength]

theorem fill_withPending {driver : ChunkDriver} {pending : Bytes}
    (hlength : pending.length = driver.reader.pending.length) (n : ℕ) :
    (driver.withPending pending).reader.fill n = (driver.reader.fill n).map
      fun filled => { filled with pending := pending } := by
  simp only [withPending, ChunkReader.fill, hlength]
  cases driver.reader.schedule 0 <;> rfl

/-- Validation looks at what is not validated yet. -/
theorem validateFresh_withPending (output : Output) {driver : ChunkDriver} {pending : Bytes}
    (hlength : pending.length = driver.reader.pending.length)
    (hdrop : pending.drop driver.validated = driver.reader.pending.drop driver.validated) :
    validateFresh output (driver.withPending pending) =
      (validateFresh output driver).map fun fresh => fresh.withPending pending := by
  have hbuffer := length_buffer_withPending hlength
  have hwindow : ∀ n, ((driver.withPending pending).reader.buffer.take n).drop driver.validated =
      (driver.reader.buffer.take n).drop driver.validated := by
    intro n
    simp only [withPending, ChunkReader.buffer, List.take_take, List.drop_take, hdrop]
  rw [validateFresh, validateFresh]
  simp only [hbuffer, show (driver.withPending pending).validated = driver.validated from rfl,
    hwindow]
  split_ifs
  · rfl
  · cases output.validateChunk _ <;> rfl

theorem epilogue_alike {stepper stepper' : ChunkStepper τ σ} {driver : ChunkDriver}
    {pending : Bytes} {st : τ} {state : σ}
    (hlength : pending.length = driver.reader.pending.length)
    (hfinal : driver.reader.buffer.length ≤ driver.validated →
      stepper'.finalize st (driver.withPending pending).stepCtx state =
        stepper.finalize st driver.stepCtx state) (last : Option ℕ) :
    epilogue stepper' (driver.withPending pending) st state last =
      epilogue stepper driver st state last := by
  rw [epilogue, epilogue, length_buffer_withPending hlength,
    show (driver.withPending pending).validated = driver.validated from rfl]
  split_ifs with hmore
  · rfl
  · rw [hfinal (by omega)]

/-- What the driver relies on for the two runs to go on alike. -/
def StepsAlike (stepper stepper' : ChunkStepper τ σ)
    (Rel : ChunkDriver → Bytes → τ → σ → Option ℕ → Prop) (fresh : ChunkDriver) (pending : Bytes)
    (out out' : StepOutcome τ σ) : Prop :=
  out' = { out with buf := out'.buf } ∧
    ∀ resumeAt consumable last, out.result = .suspended resumeAt consumable last →
      consumable ≤ fresh.validated ∧ out.buf.length = fresh.reader.available ∧
        (∀ n, stepper'.consume out.stepper n = stepper.consume out.stepper n) ∧
        Rel (fresh.advance out.buf resumeAt consumable)
          ((out'.buf ++ pending.drop fresh.reader.available).drop consumable)
          (if 0 < consumable then stepper.consume out.stepper consumable else out.stepper)
          out.state last

theorem loop_alike {stepper stepper' : ChunkStepper τ σ} {output : Output}
    {Rel : ChunkDriver → Bytes → τ → σ → Option ℕ → Prop}
    (hpending : ∀ driver pending st state last, Rel driver pending st state last →
      pending.length = driver.reader.pending.length ∧
        pending.drop driver.validated = driver.reader.pending.drop driver.validated)
    (hfinal : ∀ driver fresh pending st state last, Rel driver pending st state last →
      Refilled output driver fresh → fresh.validated ≤ driver.validated →
      fresh.reader.buffer.length ≤ fresh.validated →
      stepper'.finalize st (fresh.withPending pending).stepCtx state =
        stepper.finalize st fresh.stepCtx state)
    (hstep : ∀ driver fresh pending st state last, Rel driver pending st state last →
      Refilled output driver fresh →
      Refilled output (driver.withPending pending) (fresh.withPending pending) →
      driver.validated < fresh.validated →
      StepsAlike stepper stepper' Rel fresh pending (stepper.step st fresh.stepCtx state)
        (stepper'.step st (fresh.withPending pending).stepCtx state))
    (fuel : ℕ) (driver : ChunkDriver) (pending : Bytes) (st : τ) (state : σ) (last : Option ℕ)
    (hle : driver.validated ≤ driver.reader.pending.length)
    (hfuel : driver.reader.pending.length < driver.validated + fuel)
    (hrel : Rel driver pending st state last) :
    loop stepper' output fuel (driver.withPending pending) st state last =
      loop stepper output fuel driver st state last := by
  induction fuel generalizing driver pending st state last with
  | zero => omega
  | succ fuel ih =>
      obtain ⟨hlength, hdrop⟩ := hpending driver pending st state last hrel
      have hfilled := fill_withPending hlength (driver.validated + 4)
      rw [loop, loop, show (driver.withPending pending).validated = driver.validated from rfl,
        hfilled]
      cases hfill : driver.reader.fill (driver.validated + 4) with
      | error err => rfl
      | ok reader =>
          have hreader := (ChunkReader.fill_spec hfill).1
          have hvalidate : validateFresh output ⟨{ reader with pending := pending },
              driver.validated, (driver.withPending pending).resumeAt,
              (driver.withPending pending).totalConsumed⟩ =
                (validateFresh output { driver with reader := reader }).map
                  fun fresh => fresh.withPending pending :=
            @validateFresh_withPending output { driver with reader := reader } pending
              (by rw [hreader]; exact hlength) (by rw [hreader]; exact hdrop)
          simp only [Except.map]
          rw [hvalidate]
          cases hfresh : validateFresh output { driver with reader := reader } with
          | error err => rfl
          | ok fresh =>
              have hrefilled := refilled_of_fill hfill hfresh
              have hrefilled' : Refilled output (driver.withPending pending)
                  (fresh.withPending pending) := by
                refine @refilled_of_fill _ (driver.withPending pending) _
                  { reader with pending := pending } ?_ ?_
                · rw [show (driver.withPending pending).validated = driver.validated from rfl,
                    hfilled, hfill]
                  rfl
                · exact hvalidate.trans (by rw [hfresh]; rfl)
              simp only [Except.map,
                show (fresh.withPending pending).validated = fresh.validated from rfl]
              by_cases hstuck : fresh.validated ≤ driver.validated
              · rw [if_pos hstuck, if_pos hstuck]
                exact epilogue_alike (by rw [hlength, hrefilled.pending])
                  (hfinal driver fresh pending st state last hrel hrefilled hstuck) last
              · rw [if_neg hstuck, if_neg hstuck]
                obtain ⟨hout, hnext⟩ := hstep driver fresh pending st state last hrel hrefilled
                  hrefilled' (by omega)
                rw [hout]
                cases hresult : (stepper.step st fresh.stepCtx state).result with
                | done recordEnd => rfl
                | error err => rfl
                | suspended resumeAt consumable lastRecordEnd =>
                    obtain ⟨hconsumable, hbuf, hconsume, hrel'⟩ := hnext _ _ _ hresult
                    have hsame := congrArg List.length hrefilled.pending
                    have hview := (hrefilled.validated_le hle).2
                    have havail := hrefilled.available_le
                    have hmeasure := @length_advance _ _ resumeAt consumable havail hbuf
                    have hshift : (fresh.advance (stepper.step st fresh.stepCtx state).buf
                        resumeAt consumable).validated = fresh.validated - consumable := rfl
                    simp only [hconsume]
                    exact ih _ _ _ _ _ (by omega) (by omega) hrel'

end ChunkDriver

end Csveee
