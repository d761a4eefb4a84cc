import Csveee.Parser.Validation

/-!
# Runs over text

The driver's loop without a bound on its iterations, and with the calls of the stepper's
epilogue on record.  Over text, a stepper that keeps going is driven to the end of the
source, or to the first byte that is not UTF-8.
-/

namespace Csveee

open Slice

namespace ChunkDriver

variable {τ σ : Type}

/-- The loop of `ChunkDriver::run`: so many iterations, with these calls of `finalize`. -/
inductive Runs (stepper : ChunkStepper τ σ) (output : Output) :
    ℕ → List StepCtx → ChunkDriver → τ → σ → Option ℕ → σ × Except Error (Option ℕ) → Prop
  | io {driver : ChunkDriver} {st : τ} {state : σ} {last : Option ℕ} {err : IoError}
      (hfill : driver.reader.fill (driver.validated + 4) = .error err) :
      Runs stepper output 1 [] driver st state last (state, .error (.io err))
  | invalid {driver : ChunkDriver} {st : τ} {state : σ} {last : Option ℕ} {reader : ChunkReader}
      {err : Error} (hfill : driver.reader.fill (driver.validated + 4) = .ok reader)
      (hinvalid : validateFresh output { driver with reader := reader } = .error err) :
      Runs stepper output 1 [] driver st state last (state, .error err)
  | truncated {driver fresh : ChunkDriver} {st : τ} {state : σ} {last : Option ℕ}
      {reader : ChunkReader} (hfill : driver.reader.fill (driver.validated + 4) = .ok reader)
      (hfresh : validateFresh output { driver with reader := reader } = .ok fresh)
      (hstuck : fresh.validated ≤ driver.validated)
      (htail : fresh.validated < fresh.reader.buffer.length) :
      Runs stepper output 1 [] driver st state last
        (state, .error (.utf8 (fresh.totalConsumed + fresh.validated)))
  | finalized {driver fresh : ChunkDriver} {st : τ} {state : σ} {last : Option ℕ}
      {reader : ChunkReader} (hfill : driver.reader.fill (driver.validated + 4) = .ok reader)
      (hfresh : validateFresh output { driver with reader := reader } = .ok fresh)
      (hstuck : fresh.validated ≤ driver.validated)
      (htail : ¬fresh.validated < fresh.reader.buffer.length) :
      Runs stepper output 1 [fresh.stepCtx] driver st state last
        (ChunkDriver.finalized stepper fresh st state last)
  | done {driver fresh : ChunkDriver} {st : τ} {state : σ} {last : Option ℕ}
      {reader : ChunkReader} {recordEnd : ℕ}
      (hfill : driver.reader.fill (driver.validated + 4) = .ok reader)
      (hfresh : validateFresh output { driver with reader := reader } = .ok fresh)
      (hprogress : ¬fresh.validated ≤ driver.validated)
      (hresult : (stepper.step st fresh.stepCtx state).result = .done recordEnd) :
      Runs stepper output 1 [] driver st state last
        ((stepper.step st fresh.stepCtx state).state, .ok (some recordEnd))
  | failed {driver fresh : ChunkDriver} {st : τ} {state : σ} {last : Option ℕ}
      {reader : ChunkReader} {err : Error}
      (hfill : driver.reader.fill (driver.validated + 4) = .ok reader)
      (hfresh : validateFresh output { driver with reader := reader } = .ok fresh)
      (hprogress : ¬fresh.validated ≤ driver.validated)
      (hresult : (stepper.step st fresh.stepCtx state).result = .error err) :
      Runs stepper output 1 [] driver st state last
        ((stepper.step st fresh.stepCtx state).state, .error err)
  | again {driver fresh : ChunkDriver} {st : τ} {state : σ} {last : Option ℕ}
      {reader : ChunkReader} {resumeAt consumable : ℕ} {lastRecordEnd : Option ℕ} {n : ℕ}
      {calls : List StepCtx} {result : σ × Except Error (Option ℕ)}
      (hfill : driver.reader.fill (driver.validated + 4) = .ok reader)
      (hfresh : validateFresh output { driver with reader := reader } = .ok fresh)
      (hprogress : ¬fresh.validated ≤ driver.validated)
      (hresult : (stepper.step st fresh.stepCtx state).result =
        .suspended resumeAt consumable lastRecordEnd)
      (hrest : Runs stepper output n calls
        (fresh.advance (stepper.step st fresh.stepCtx state).buf resumeAt consumable)
        (if 0 < consumable then
          stepper.consume (stepper.step st fresh.stepCtx state).stepper consumable
        else (stepper.step st fresh.stepCtx state).stepper)
        (stepper.step st fresh.stepCtx state).state lastRecordEnd result) :
      Runs stepper output (n + 1) calls driver st state last result

/-- A stepper that steps over the bytes it is given and asks for more: it suspends, wherever it
is asked to resume, and what lies behind its view stays as it is. -/
structure KeepsGoing (stepper : ChunkStepper τ σ) : Prop where
  suspends : ∀ st ctx state, ctx.scanStart ≤ ctx.scanEnd → ctx.scanEnd ≤ ctx.buf.length →
    ∃ resumeAt consumable last,
      (stepper.step st ctx state).result = .suspended resumeAt consumable last ∧
        consumable ≤ resumeAt ∧ resumeAt ≤ ctx.scanEnd
  within : ∀ st ctx state, ctx.scanStart ≤ ctx.scanEnd → ctx.scanEnd ≤ ctx.buf.length →
    (stepper.step st ctx state).buf.length = ctx.buf.length ∧
      (stepper.step st ctx state).buf.drop ctx.scanEnd = ctx.buf.drop ctx.scanEnd

/-- What a run over text comes to: an error where validity ends, or one call of the epilogue,
with all of the text validated and what is not consumed of it in view. -/
def TextOutcome (stepper : ChunkStepper τ σ) (text : Bytes) (base : ℕ) (calls : List StepCtx)
    (result : σ × Except Error (Option ℕ)) : Prop :=
  (¬Utf8.Valid text ∧ calls = [] ∧ ∃ k, Utf8.IsLongestValid text k ∧
      result.2 = .error (.utf8 (base + k))) ∨
    Utf8.Valid text ∧ ∃ ctx st state last, calls = [ctx] ∧ ctx.scanEnd = ctx.buf.length ∧
      base ≤ ctx.totalConsumed ∧ ctx.totalConsumed + ctx.buf.length = base + text.length ∧
      result = match stepper.finalize st ctx state with
        | (state, .ok finalEnd) => (state, .ok (finalEnd.or last))
        | (state, .error err) => (state, .error err)

theorem textOutcome_refused {stepper : ChunkStepper τ σ} {text : Bytes} {base rel : ℕ}
    {driver : ChunkDriver} (h : Validated .str text base driver)
    (hrefuses : Refuses .str text (driver.passed base) rel) (state : σ) :
    TextOutcome stepper text base []
      (state, .error (.utf8 (base + driver.passed base + rel))) := by
  obtain ⟨hlongest, -⟩ := hrefuses.isLongestValid h.reached
  refine Or.inl ⟨fun hvalid => not_refuses_of_valid hvalid h.reached rel hrefuses, rfl, _,
    hlongest, ?_⟩
  rw [Nat.add_assoc]

theorem runs_loop {stepper : ChunkStepper τ σ} (hstepper : KeepsGoing stepper) {text : Bytes}
    {base : ℕ} (fuel : ℕ) (driver : ChunkDriver) (st : τ) (state : σ) (last : Option ℕ)
    (hreliable : driver.reader.schedule.Reliable)
    (hfuel : driver.reader.pending.length < driver.validated + fuel)
    (hresume : driver.resumeAt ≤ driver.validated) (h : Validated .str text base driver) :
    ∃ n ≤ fuel, ∃ calls, Runs stepper .str n calls driver st state last
        (loop stepper .str fuel driver st state last) ∧
      TextOutcome stepper text base calls (loop stepper .str fuel driver st state last) := by
  induction fuel generalizing driver st state last with
  | zero =>
      have hle := h.validated_le
      omega
  | succ fuel ih =>
      rw [loop]
      cases hfill : driver.reader.fill (driver.validated + 4) with
      | error err => exact absurd (ChunkReader.fill_error hfill) (hreliable 0 err)
      | ok reader =>
          simp only
          cases hfresh : validateFresh .str { driver with reader := reader } with
          | error err =>
              obtain ⟨rel, hrefuses, rfl⟩ := h.refused hfill hfresh
              exact ⟨1, by omega, [], .invalid hfill hfresh, textOutcome_refused h hrefuses state⟩
          | ok fresh =>
              simp only
              have hrefilled := refilled_of_fill hfill hfresh
              have hvalidated := h.refilled hrefilled
              by_cases hstuck : fresh.validated ≤ driver.validated
              · rw [if_pos hstuck]
                obtain ⟨hsame, hlen, ⟨hshort, havail, hall⟩ | ⟨hmore, hrefuses⟩⟩ :=
                  h.stuck hrefilled hstuck
                · have hnot := Nat.not_lt.mpr hshort
                  rw [epilogue, if_neg hnot]
                  refine ⟨1, by omega, _, .finalized hfill hfresh hstuck hnot, Or.inr ?_⟩
                  have hlength := hvalidated.length
                  have hle := hvalidated.validated_le
                  refine ⟨?_, fresh.stepCtx, st, state, last, rfl, ?_, hvalidated.base_le, ?_, rfl⟩
                  · have hpassed := h.passed_le
                    have hreached := h.reached.valid
                    have hbase := h.base_le
                    have htotal := h.length
                    rw [show driver.passed base = text.length by rw [passed]; omega,
                      List.take_length] at hreached
                    exact hreached.2
                  · simp only [stepCtx]
                    omega
                  · simp only [stepCtx]
                    omega
                · rw [epilogue, if_pos hmore]
                  refine ⟨1, by omega, [], .truncated hfill hfresh hstuck hmore, ?_⟩
                  have hout := @textOutcome_refused _ _ stepper _ _ _ _ h hrefuses state
                  have hbase := h.base_le
                  rw [show fresh.totalConsumed + fresh.validated =
                    base + driver.passed base + 0 by
                      rw [hrefilled.totalConsumed, hsame, passed]
                      omega]
                  exact hout
              · rw [if_neg hstuck]
                obtain ⟨hge, hview⟩ := hrefilled.validated_le h.validated_le
                have havail := hrefilled.available_le
                have hlen := length_buffer_of_le havail
                have hctx : fresh.stepCtx.scanStart ≤ fresh.stepCtx.scanEnd := by
                  simp only [stepCtx, hrefilled.resumeAt]
                  omega
                have hbuf : fresh.stepCtx.scanEnd ≤ fresh.stepCtx.buf.length := by
                  simp only [stepCtx]
                  omega
                obtain ⟨resumeAt, consumable, lastRecordEnd, hresult, hconsumable, hresumed⟩ :=
                  hstepper.suspends st fresh.stepCtx state hctx hbuf
                obtain ⟨hlength, htail⟩ := hstepper.within st fresh.stepCtx state hctx hbuf
                have hscanEnd : fresh.stepCtx.scanEnd = fresh.validated := rfl
                rw [hscanEnd] at hresumed htail
                have hout : (stepper.step st fresh.stepCtx state).buf.length =
                    fresh.reader.available := hlength.trans hlen
                have hnext := @Validated.advance _ _ _ _ hvalidated _ resumeAt _ havail hview
                  (le_trans hconsumable hresumed) hout htail
                have hpending := congrArg List.length hrefilled.pending
                simp only [hresult]
                have hlater : (fresh.advance (stepper.step st fresh.stepCtx state).buf resumeAt
                    consumable).reader.schedule.Reliable := by
                  have htail := hreliable.tail
                  rw [← hrefilled.schedule] at htail
                  exact htail
                have hmeasure : (fresh.advance (stepper.step st fresh.stepCtx state).buf resumeAt
                    consumable).reader.pending.length <
                      (fresh.advance (stepper.step st fresh.stepCtx state).buf resumeAt
                        consumable).validated + fuel := by
                  simp only [advance, ChunkReader.setBuffer, ChunkReader.consume,
                    List.length_drop, List.length_append, hout]
                  omega
                obtain ⟨n, hn, calls, hruns, houtcome⟩ := ih _ _ _ lastRecordEnd hlater hmeasure
                  (Nat.sub_le_sub_right hresumed consumable) hnext
                exact ⟨n + 1, by omega, calls,
                  .again hfill hfresh hstuck hresult hruns, houtcome⟩

/-- Validation a window at a time is validation at once, and the driver comes to an end: with
a stepper that keeps going, after no more iterations than there are bytes (and one), the
driver has reported where the text ceases to be UTF-8, or called the epilogue once with
everything validated. -/
theorem run_text {stepper : ChunkStepper τ σ} (hstepper : KeepsGoing stepper)
    (reader : ChunkReader) (hreliable : reader.schedule.Reliable) (base : ℕ) (st : τ) (state : σ) :
    ∃ n ≤ reader.pending.length + 1, ∃ calls,
      Runs stepper .str n calls (.new reader base) st state none
          (run stepper .str (.new reader base) st state) ∧
        TextOutcome stepper reader.pending base calls
          (run stepper .str (.new reader base) st state) := by
  apply runs_loop hstepper _ _ st state none hreliable
  · simp only [new]
    omega
  · exact le_rfl
  · exact validated_new .str reader base

/-- A stepper that passes over everything. -/
def skipping : ChunkStepper Unit Unit where
  step _ ctx _ := ⟨(), ctx.buf, (), .suspended ctx.scanEnd ctx.scanEnd none⟩
  consume _ _ := ()
  finalize _ _ _ := ((), .ok none)

theorem keepsGoing_skipping : KeepsGoing skipping where
  suspends _ ctx _ _ _ := ⟨ctx.scanEnd, ctx.scanEnd, none, rfl, le_rfl, le_rfl⟩
  within _ _ _ _ _ := ⟨rfl, rfl⟩

/-- A character that the end of the source cuts short is an error where it begins. -/
theorem run_text_truncated :
    (run skipping .str (.new (.whole [97, 195]) 5) () ()).2 = .error (.utf8 6) := by
  have hone : Utf8.IsLongestValid [97, 195] 1 :=
    @Utf8.isLongestValid_of_stop [97] [195] none (.cons (.ascii (by decide)) .nil) rfl
  obtain ⟨-, -, calls, -, houtcome⟩ :=
    run_text keepsGoing_skipping (.whole [97, 195]) Schedule.reliable_exact 5 () ()
  rcases houtcome with ⟨-, -, k, hlongest, hresult⟩ | ⟨hvalid, -⟩
  · have hk : k = 1 :=
      le_antisymm (hone.longest k hlongest.le hlongest.valid)
        (hlongest.longest 1 hone.le hone.valid)
    rw [hresult, hk]
  · exact absurd (hone.longest 2 le_rfl hvalid) (by decide)

end ChunkDriver

end Csveee
