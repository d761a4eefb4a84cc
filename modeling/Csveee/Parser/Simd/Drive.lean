import Csveee.Parser.Simd.Body
import Csveee.Parser.Validation

/-!
# Driving a vectorized stepper

What the driver asks of a stepper that works on a body: a step leads from rest to rest, or
ends the run; what is consumed is what the stepper does not need; and at the end of the text
the rest of the body is handed out.
-/

namespace Csveee.Simd

open Slice

variable {σ τ : Type}

namespace Body

/-- Where a run ends with its chunk, or on an error of the text. -/
def Ended (body : Body σ) (walk : Walk) (state : σ) : StepResult → Prop
  | .error err => body.kept state ∧ body.Blames walk state err
  | .done end_ => body.kept state ∧ body.outcome body.chunkEnd = (state, .ok (some end_))
  | .suspended .. => False

/-- What a step works on. -/
structure StepAt (body : Body σ) (origin : ℕ) (ctx : StepCtx) : Prop where
  total : ctx.totalConsumed = body.base + origin
  remaining : ctx.remainingInChunk = body.chunkEnd - (body.base + origin)
  valid : body.valid (origin + ctx.scanEnd)
  within : origin + ctx.scanEnd ≤ body.text.length
  view : ctx.scanEnd ≤ ctx.buf.length

/-- What a run may come to: what the byte automaton does, an error that it meets by the
text's end as well, a `fill` call that failed, or bytes that do not pass the validation. -/
structure Post (body : Body σ) (schedule : Schedule) (result : Dfa.BodyOutcome σ) : Prop where
  kept : body.kept result.1
  ends : match result.2 with
    | .ok next => body.outcome body.chunkEnd = (result.1, .ok next)
    | .error err => (∃ walk, body.Blames walk result.1 err) ∨
        (∃ failure, schedule.FailsWith failure ∧ err = .io failure) ∨
        ∃ v rel, Reached body.output body.text v ∧ Refuses body.output body.text v rel ∧
          err = .utf8 (body.base + v + rel)

variable {body : Body σ} {origin lo : ℕ}

theorem valid_of_reached {v : ℕ} (h : Reached body.output body.text v) : body.valid v := by
  induction h with
  | start => exact body.valid_zero
  | window _ hw hvalid ih => exact body.validates _ _ _ ih hw hvalid

theorem Shows.drop_eq {buf buf' : Bytes} (h : body.Shows origin lo buf)
    (h' : body.Shows origin lo buf') (hlength : buf'.length = buf.length) {n : ℕ}
    (hn : lo ≤ origin + n) : buf'.drop n = buf.drop n := by
  apply List.ext_getElem?
  intro i
  rw [List.getElem?_drop, List.getElem?_drop]
  rcases Nat.lt_or_ge (n + i) buf.length with hlt | hge
  · have hthis := h.view (origin + (n + i)) (by omega) (by omega)
    have hthat := h'.view (origin + (n + i)) (by omega) (by omega)
    rw [Nat.add_sub_cancel_left] at hthis hthat
    rw [hthis, hthat]
  · rw [List.getElem?_eq_none (by omega), List.getElem?_eq_none (by omega)]

/-- A buffer that shows the text, in front of more of it. -/
theorem Shows.append_drop {buf pending : Bytes} {k : ℕ} (h : body.Shows origin lo buf)
    {lo' : ℕ} (hpending : body.Shows origin lo' pending) (hlength : buf.length = k)
    (hk : k ≤ pending.length) (hlo : lo' ≤ origin + k) :
    body.Shows origin lo (buf ++ pending.drop k) where
  origin_le := h.origin_le
  long := by
    have hlong := hpending.long
    rw [List.length_append, List.length_drop]
    omega
  view := by
    intro i hi hi'
    rw [List.length_append, List.length_drop] at hi'
    rcases Nat.lt_or_ge (i - origin) buf.length with hlt | hge
    · have horigin := h.origin_le
      rw [List.getElem?_append_left hlt, h.view i hi (by omega)]
    · have horigin := h.origin_le
      rw [List.getElem?_append_right hge, List.getElem?_drop, ← hpending.view i (by omega)
        (by omega)]
      congr 1
      omega
  edge := by
    intro horigin hlength'
    rw [List.length_append, List.length_drop] at hlength'
    rcases Nat.lt_or_ge (lo - 1 - origin) buf.length with hlt | hge
    · rw [List.getElem?_append_left hlt, h.edge horigin (by omega)]
    · rw [List.getElem?_append_right hge, List.getElem?_drop, ← hpending.view (lo - 1) (by omega)
        (by omega)]
      congr 1
      omega

/-- The bytes in front of what is shown may go. -/
theorem Shows.drop {buf : Bytes} (h : body.Shows origin lo buf) {n : ℕ} (hn : origin + n ≤ lo)
    (hlength : n ≤ buf.length) : body.Shows (origin + n) lo (buf.drop n) where
  origin_le := hn
  long := by
    have hlong := h.long
    rw [List.length_drop]
    omega
  view := by
    intro i hi hi'
    rw [List.length_drop] at hi'
    rw [List.getElem?_drop, ← h.view i hi (by omega)]
    congr 1
    omega
  edge := by
    intro horigin hlength'
    rw [List.length_drop] at hlength'
    rw [List.getElem?_drop, ← h.edge (by omega) (by omega)]
    congr 1
    omega

/-- A stepper that works on a body.  At rest, it holds what it takes to go on from
`resumeAt`, with the text shown from `lo` on; a step leads from rest to rest. -/
structure Drives (body : Body σ) (stepper : ChunkStepper τ σ) (consumable : τ → ℕ)
    (lastRecordEnd : τ → Option ℕ)
    (Rests : (origin lo resumeAt scanEnd : ℕ) → τ → Bytes → σ → Prop) : Prop where
  shows : ∀ {origin lo resumeAt scanEnd st buf state},
    Rests origin lo resumeAt scanEnd st buf state → body.Shows origin lo buf
  kept : ∀ {origin lo resumeAt scanEnd st buf state},
    Rests origin lo resumeAt scanEnd st buf state → body.kept state
  lo_eq : ∀ {origin lo resumeAt scanEnd st buf state},
    Rests origin lo resumeAt scanEnd st buf state →
      lo = origin + consumable st ∧ consumable st ≤ scanEnd
  view : ∀ {origin lo resumeAt scanEnd st buf state buf'},
    Rests origin lo resumeAt scanEnd st buf state → body.Shows origin lo buf' →
      Rests origin lo resumeAt scanEnd st buf' state
  consume : ∀ {origin lo resumeAt scanEnd st buf state},
    Rests origin lo resumeAt scanEnd st buf state → consumable st ≤ buf.length →
      Rests (origin + consumable st) lo (resumeAt - consumable st) (scanEnd - consumable st)
        (if 0 < consumable st then stepper.consume st (consumable st) else st)
        (buf.drop (consumable st)) state
  last_consume : ∀ st n, lastRecordEnd (stepper.consume st n) = lastRecordEnd st
  step : ∀ {origin lo scanned ctx st state}, body.StepAt origin ctx →
    Rests origin lo ctx.scanStart scanned st ctx.buf state → scanned < ctx.scanEnd →
    match (stepper.step st ctx state).result with
      | .suspended resumeAt consumed last =>
          ∃ lo', Rests origin lo' resumeAt ctx.scanEnd (stepper.step st ctx state).stepper
            (stepper.step st ctx state).buf (stepper.step st ctx state).state ∧
          lo ≤ lo' ∧ (stepper.step st ctx state).buf.length = ctx.buf.length ∧
          consumed = consumable (stepper.step st ctx state).stepper ∧
          last = lastRecordEnd (stepper.step st ctx state).stepper
      | result => body.Ended ⟨origin, (stepper.step st ctx state).buf.take ctx.scanEnd,
          consumable (stepper.step st ctx state).stepper⟩ (stepper.step st ctx state).state result
  finalize : ∀ {origin lo ctx st state}, body.StepAt origin ctx →
    Rests origin lo ctx.scanStart ctx.scanEnd st ctx.buf state →
    ctx.scanEnd = ctx.buf.length → origin + ctx.buf.length = body.text.length →
    body.kept (stepper.finalize st ctx state).1 ∧
      match stepper.finalize st ctx state with
      | (left, .ok finalEnd) =>
          body.outcome body.chunkEnd = (left, .ok (finalEnd.or (lastRecordEnd st)))
      | (left, .error err) =>
          body.Blames ⟨origin, ctx.buf.take ctx.scanEnd, consumable st⟩ left err

variable {stepper : ChunkStepper τ σ} {consumable : τ → ℕ} {lastRecordEnd : τ → Option ℕ}
  {Rests : (origin lo resumeAt scanEnd : ℕ) → τ → Bytes → σ → Prop}

/-- The stepper at rest between two iterations of the driver. -/
structure Awaits (body : Body σ) (lastRecordEnd : τ → Option ℕ)
    (Rests : (origin lo resumeAt scanEnd : ℕ) → τ → Bytes → σ → Prop) (schedule : Schedule)
    (driver : ChunkDriver) (st : τ) (state : σ) (last : Option ℕ) : Prop where
  suffix : driver.reader.schedule.Suffix schedule
  rests : ∃ lo, Rests (driver.totalConsumed - body.base) lo driver.resumeAt driver.validated st
    driver.reader.pending state
  remaining : driver.reader.chunkRemaining = body.chunkEnd - driver.totalConsumed
  last : last = lastRecordEnd st

theorem stepAt_of_validated {driver : ChunkDriver}
    (hvalidated : ChunkDriver.Validated body.output body.text body.base driver)
    (havail : driver.reader.available ≤ driver.reader.pending.length)
    (hview : driver.validated ≤ driver.reader.available)
    (hremaining : driver.reader.chunkRemaining = body.chunkEnd - driver.totalConsumed) :
    body.StepAt (driver.totalConsumed - body.base) driver.stepCtx := by
  have hbase := hvalidated.base_le
  have hlength := hvalidated.length
  have hlen := ChunkDriver.length_buffer_of_le havail
  exact {
    total := by
      simp only [ChunkDriver.stepCtx]
      omega
    remaining := by
      simp only [ChunkDriver.stepCtx, ChunkReader.remainingInChunk, hremaining]
      omega
    valid := valid_of_reached hvalidated.reached
    within := by
      simp only [ChunkDriver.stepCtx]
      omega
    view := by
      simp only [ChunkDriver.stepCtx]
      omega }

/-- After a refill, the stepper is ready for what there is. -/
theorem Drives.ready (h : body.Drives stepper consumable lastRecordEnd Rests)
    {schedule : Schedule} {driver fresh : ChunkDriver} {st : τ} {state : σ} {last : Option ℕ}
    (hawaits : body.Awaits lastRecordEnd Rests schedule driver st state last)
    (hvalidated : ChunkDriver.Validated body.output body.text body.base fresh)
    (hfresh : ChunkDriver.Refilled body.output driver fresh)
    (hle : driver.validated ≤ driver.reader.pending.length) :
    body.StepAt (fresh.totalConsumed - body.base) fresh.stepCtx ∧
      ∃ lo, Rests (fresh.totalConsumed - body.base) lo fresh.stepCtx.scanStart driver.validated st
        fresh.stepCtx.buf state ∧
        body.Shows (fresh.totalConsumed - body.base) lo fresh.reader.pending := by
  obtain ⟨lo, hrests⟩ := hawaits.rests
  have hremaining : fresh.reader.chunkRemaining = body.chunkEnd - fresh.totalConsumed := by
    rw [hfresh.chunkRemaining, hfresh.totalConsumed, hawaits.remaining]
  have hctx := stepAt_of_validated hvalidated hfresh.available_le (hfresh.validated_le hle).2
    hremaining
  rw [← hfresh.totalConsumed, ← hfresh.resumeAt, ← hfresh.pending] at hrests
  have hpending := h.shows hrests
  exact ⟨hctx, lo, h.view hrests (hpending.take _), hpending⟩

theorem Drives.iterate (h : body.Drives stepper consumable lastRecordEnd Rests)
    {schedule : Schedule} {driver fresh : ChunkDriver} {st : τ} {state : σ} {last : Option ℕ}
    (hawaits : body.Awaits lastRecordEnd Rests schedule driver st state last)
    (hvalidated : ChunkDriver.Validated body.output body.text body.base fresh)
    (hfresh : ChunkDriver.Refilled body.output driver fresh)
    (hprogress : driver.validated < fresh.validated)
    (hle : driver.validated ≤ driver.reader.pending.length) :
    ChunkDriver.StepKeepsText stepper (body.Awaits lastRecordEnd Rests schedule)
      (body.Post schedule) fresh (stepper.step st fresh.stepCtx state) := by
  obtain ⟨hctx, lo, hready, hpending⟩ := h.ready hawaits hvalidated hfresh hle
  have havail := hfresh.available_le
  have hview := (hfresh.validated_le hle).2
  have hlen := ChunkDriver.length_buffer_of_le havail
  have hremaining : fresh.reader.chunkRemaining = body.chunkEnd - fresh.totalConsumed := by
    rw [hfresh.chunkRemaining, hfresh.totalConsumed, hawaits.remaining]
  have hshown := h.shows hready
  have hstep := h.step hctx hready hprogress
  rw [ChunkDriver.StepKeepsText]
  generalize stepper.step st fresh.stepCtx state = out at hstep
  obtain ⟨st', buf', state', result⟩ := out
  cases result with
  | done end_ => exact ⟨hstep.1, hstep.2⟩
  | error err => exact ⟨hstep.1, Or.inl ⟨_, hstep.2⟩⟩
  | suspended resumeAt consumed last' =>
      simp only at hstep ⊢
      obtain ⟨lo', hrests', hmono, hlength, rfl, rfl⟩ := hstep
      obtain ⟨hlo, hconsumable⟩ := h.lo_eq hrests'
      have hlength' : buf'.length = fresh.reader.available := hlength.trans hlen
      have hscanEnd : fresh.stepCtx.scanEnd = fresh.validated := rfl
      rw [hscanEnd] at hrests' hconsumable
      have hshows' := h.shows hrests'
      have hshown' := hshown.mono hmono
      refine ⟨hconsumable, hlength', ?_, ?_⟩
      · exact hshown'.drop_eq hshows' (by omega) (by omega)
      · have hready' := h.lo_eq hready
        have hfull := hshows'.append_drop hpending hlength' havail (by omega)
        have hconsumed := h.consume (h.view hrests' hfull) (by
          rw [List.length_append]
          omega)
        have hbase := hvalidated.base_le
        refine ⟨?_, ⟨lo', ?_⟩, ?_, ?_⟩
        · have htail := hawaits.suffix.tail
          rw [← hfresh.schedule] at htail
          exact htail
        · simp only [ChunkDriver.advance, ChunkReader.setBuffer, ChunkReader.consume]
          rw [show fresh.totalConsumed + consumable st' - body.base =
            fresh.totalConsumed - body.base + consumable st' by omega]
          exact hconsumed
        · simp only [ChunkDriver.advance, ChunkReader.setBuffer, ChunkReader.consume, hremaining]
          omega
        · split_ifs with hpos
          · exact (h.last_consume st' _).symm
          · rfl

/-- Once every byte is validated and in view, the stepper finishes. -/
theorem Drives.finish (h : body.Drives stepper consumable lastRecordEnd Rests)
    {schedule : Schedule} {driver fresh : ChunkDriver} {st : τ} {state : σ} {last : Option ℕ}
    (hawaits : body.Awaits lastRecordEnd Rests schedule driver st state last)
    (hvalidated : ChunkDriver.Validated body.output body.text body.base driver)
    (hfresh : ChunkDriver.Refilled body.output driver fresh)
    (hcomplete : ChunkDriver.Complete driver fresh) :
    body.StepAt (fresh.totalConsumed - body.base) fresh.stepCtx ∧
      body.kept (stepper.finalize st fresh.stepCtx state).1 ∧
      match stepper.finalize st fresh.stepCtx state with
      | (left, .ok finalEnd) =>
          body.outcome body.chunkEnd = (left, .ok (finalEnd.or (lastRecordEnd st)))
      | (left, .error err) => body.Blames ⟨fresh.totalConsumed - body.base,
          fresh.stepCtx.buf.take fresh.stepCtx.scanEnd, consumable st⟩ left err := by
  obtain ⟨hctx, lo, hready, -⟩ :=
    h.ready hawaits (hvalidated.refilled hfresh) hfresh hvalidated.validated_le
  have hlength := hvalidated.length
  have hbase := hvalidated.base_le
  have hall := hcomplete.all
  have hsame := hcomplete.same
  rw [← hsame] at hready
  refine ⟨hctx, h.finalize hctx hready ?_ ?_⟩
  · simp only [ChunkDriver.stepCtx, hcomplete.view]
    omega
  · simp only [ChunkDriver.stepCtx, hcomplete.view, hfresh.totalConsumed]
    omega

theorem Drives.run (h : body.Drives stepper consumable lastRecordEnd Rests)
    {reader : ChunkReader} (hpending : reader.pending = body.text)
    (hremaining : reader.chunkRemaining = body.chunkEnd - body.base) {st : τ}
    (hstart : Rests 0 0 0 0 st body.text body.initial) (hlast : lastRecordEnd st = none) :
    body.Post reader.schedule
      (ChunkDriver.run stepper body.output (.new reader body.base) st body.initial) := by
  have hvalidated := ChunkDriver.validated_new body.output reader body.base
  rw [hpending] at hvalidated
  refine @ChunkDriver.loop_rule_text _ _ stepper body.output body.text body.base
    (body.Awaits lastRecordEnd Rests reader.schedule) _ ?_ ?_ ?_ ?_ _ _ _ _ _ ?_ hvalidated ?_
  · intro driver st state last err hawaits _ hfails
    obtain ⟨lo, hrests⟩ := hawaits.rests
    exact ⟨h.kept hrests, Or.inr (Or.inl ⟨err, hawaits.suffix.failsWith hfails, rfl⟩)⟩
  · intro driver st state last rel hawaits hvalidated hrefuses
    obtain ⟨lo, hrests⟩ := hawaits.rests
    exact ⟨h.kept hrests, Or.inr (Or.inr ⟨_, rel, hvalidated.reached, hrefuses, rfl⟩)⟩
  · intro driver fresh st state last hawaits hvalidated hfresh hcomplete
    obtain ⟨-, hkept, hfinal⟩ := h.finish hawaits hvalidated hfresh hcomplete
    rw [ChunkDriver.finalized]
    generalize stepper.finalize st fresh.stepCtx state = result at hkept hfinal
    obtain ⟨left, err | finalEnd⟩ := result
    · exact ⟨hkept, Or.inl ⟨_, hfinal⟩⟩
    · refine ⟨hkept, ?_⟩
      simp only
      rw [hawaits.last]
      exact hfinal
  · intro driver fresh st state last hawaits hvalidated hfreshValidated hfresh hprogress
    exact h.iterate hawaits hfreshValidated hfresh hprogress hvalidated.validated_le
  · simp only [ChunkDriver.new]
    omega
  · refine ⟨.refl _, ⟨0, ?_⟩, ?_, hlast.symm⟩
    · simp only [ChunkDriver.new, Nat.sub_self, hpending]
      exact hstart
    · exact hremaining

end Body

end Csveee.Simd
