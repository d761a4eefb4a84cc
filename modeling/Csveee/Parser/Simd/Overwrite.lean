import Csveee.Lib.Agreement
import Csveee.Parser.Overwrite
import Csveee.Parser.Simd.Drive

/-!
# Vectorized steppers over overwritten fields

A stepper that works on a body reads the text from the oldest record on that is not handed
out.  Two accumulators that give the same verdicts make the same body, so both runs rest in
the same place, over buffers that show the same text from there on.
-/

namespace Csveee.Simd

open Slice

variable {σ τ : Type}

section Emission

variable {acc acc' : Accumulator σ} (hverdicts : acc.SameVerdicts acc')

include hverdicts

theorem handOut_alike (n recordInStart : ℕ) (fields : Record) (state : σ) :
    handOut acc' n recordInStart fields state = handOut acc n recordInStart fields state := by
  obtain ⟨hstate, hresult⟩ := hverdicts state fields
  rw [handOut, handOut, hstate, hresult]

theorem emitCells_alike {n : ℕ} {fieldOf : Cell → Bytes} {closed : Bool} {chunkEnd base : ℕ}
    (cells : List Cell) (lo recordLo : ℕ) (fields : Record) (last : Option ℕ) (state : σ) :
    emitCells acc' n fieldOf closed chunkEnd base cells lo recordLo fields last state =
      emitCells acc n fieldOf closed chunkEnd base cells lo recordLo fields last state := by
  induction cells generalizing lo recordLo fields last state with
  | nil => rfl
  | cons cell cells ih =>
      rw [emitCells, emitCells]
      simp only [handOut_alike hverdicts, ih]

theorem emitRows_alike (records : List Record) (state : σ) :
    emitRows acc' records state = emitRows acc records state := by
  induction records generalizing state with
  | nil => rfl
  | cons record records ih =>
      obtain ⟨hstate, hresult⟩ := hverdicts state record
      rw [emitRows, emitRows, hstate, hresult]
      simp only [ih]

end Emission

namespace Body

variable {body : Body σ} {acc : Accumulator σ}

/-- The body, with another accumulator that gives the same verdicts. -/
def withAcc (body : Body σ) {acc : Accumulator σ} (hverdicts : body.acc.SameVerdicts acc) :
    Body σ :=
  { body with
    acc := acc
    keeps := by
      intro v state row hvalid hv hcells hkept
      rw [(hverdicts _ _).1]
      exact body.keeps v state row hvalid hv hcells hkept }

variable (hverdicts : body.acc.SameVerdicts acc)

theorem At.withAcc {lo : ℕ} {rest : List Cell} {last : Option ℕ} {state : σ}
    (h : body.At lo rest last state) : (body.withAcc hverdicts).At lo rest last state where
  chain := h.chain
  record := h.record
  sub := h.sub
  kept := h.kept
  lo_le := h.lo_le
  outcome := by
    intro chunkEnd hpast
    have hout := h.outcome chunkEnd hpast
    rw [Body.outcome, Body.emit] at hout ⊢
    exact (emitCells_alike hverdicts _ _ _ _ _ _).trans
      (hout.trans (emitCells_alike hverdicts _ _ _ _ _ _).symm)

theorem Shows.withAcc {origin lo : ℕ} {buf : Bytes} (h : body.Shows origin lo buf) :
    (body.withAcc hverdicts).Shows origin lo buf :=
  ⟨h.origin_le, h.long, h.view, h.edge⟩

theorem Shows.ofAcc {origin lo : ℕ} {buf : Bytes}
    (h : (body.withAcc hverdicts).Shows origin lo buf) : body.Shows origin lo buf :=
  ⟨h.origin_le, h.long, h.view, h.edge⟩

/-- Two buffers that show the text from a place on. -/
theorem Shows.sameOn {origin lo : ℕ} {buf buf' : Bytes} (h : body.Shows origin lo buf)
    (h' : body.Shows origin lo buf') (hlength : buf'.length = buf.length) :
    SameOn (fun i => lo ≤ origin + i) buf buf' := by
  refine ⟨hlength, fun i hi => ?_⟩
  rcases Nat.lt_or_ge i buf.length with hlt | hge
  · have hleft := h.view (origin + i) hi (by omega)
    have hright := h'.view (origin + i) hi (by omega)
    rw [Nat.add_sub_cancel_left] at hleft hright
    rw [hleft, hright]
  · rw [List.getElem?_eq_none (by omega), List.getElem?_eq_none (by omega)]

/-- The byte in front is the same, too. -/
theorem Shows.edge_eq {origin lo : ℕ} {buf buf' : Bytes} (h : body.Shows origin lo buf)
    (h' : body.Shows origin lo buf') (hlength : buf'.length = buf.length) {i : ℕ}
    (hi : lo ≤ origin + i + 1) :
    buf'[i]? = buf[i]? := by
  rcases Nat.lt_or_ge (origin + i) lo with hlt | hge
  · rcases Nat.lt_or_ge (origin + buf.length) lo with hfar | hnear
    · rw [List.getElem?_eq_none (by omega), List.getElem?_eq_none (by omega)]
    · have hleft := h.edge (by omega) hnear
      have hright := h'.edge (by omega) (by omega)
      rw [show lo - 1 - origin = i by omega] at hleft hright
      rw [hleft, hright]
  · exact (h.sameOn h' hlength).values i hge

variable {stepper stepper' : ChunkStepper τ σ} {consumable : τ → ℕ} {lastRecordEnd : τ → Option ℕ}
  {Rests Rests' : (origin lo resumeAt scanEnd : ℕ) → τ → Bytes → σ → Prop}

/-- The steps of two steppers come to the same over buffers that show the same text. -/
structure StepsAlike (body : Body σ) (stepper stepper' : ChunkStepper τ σ)
    (Rests : (origin lo resumeAt scanEnd : ℕ) → τ → Bytes → σ → Prop) : Prop where
  consume : stepper'.consume = stepper.consume
  step : ∀ {origin lo scanned ctx st state buf}, body.StepAt origin ctx →
    Rests origin lo ctx.scanStart scanned st ctx.buf state → scanned < ctx.scanEnd →
    body.Shows origin lo buf → buf.length = ctx.buf.length →
    ∃ buf', stepper'.step st { ctx with buf := buf } state =
      { stepper.step st ctx state with buf := buf' }
  finalize : ∀ {origin lo ctx st state buf}, body.StepAt origin ctx →
    Rests origin lo ctx.scanStart ctx.scanEnd st ctx.buf state →
    ctx.scanEnd = ctx.buf.length → origin + ctx.buf.length = body.text.length →
    body.Shows origin lo buf → buf.length = ctx.buf.length →
    stepper'.finalize st { ctx with buf := buf } state = stepper.finalize st ctx state

/-- Two runs at rest. -/
structure AwaitsAlike (hverdicts : body.acc.SameVerdicts acc) (lastRecordEnd : τ → Option ℕ)
    (Rests Rests' : (origin lo resumeAt scanEnd : ℕ) → τ → Bytes → σ → Prop)
    (schedule : Schedule) (driver : ChunkDriver) (pending : Bytes) (st : τ) (state : σ)
    (last : Option ℕ) : Prop where
  left : body.Awaits lastRecordEnd Rests schedule driver st state last
  right : (body.withAcc hverdicts).Awaits lastRecordEnd Rests' schedule
    (driver.withPending pending) st state last
  validated : ChunkDriver.Validated body.output body.text body.base driver
  validated' : ChunkDriver.Validated body.output body.text body.base (driver.withPending pending)

theorem AwaitsAlike.length {schedule : Schedule} {driver : ChunkDriver} {pending : Bytes} {st : τ}
    {state : σ} {last : Option ℕ}
    (h : AwaitsAlike hverdicts lastRecordEnd Rests Rests' schedule driver pending st state last) :
    pending.length = driver.reader.pending.length := by
  have hleft := h.validated.length
  have hright := h.validated'.length
  simp only [ChunkDriver.withPending] at hright
  omega

/-- What the other run's stepper sees shows the text from where this one rests. -/
theorem AwaitsAlike.ready
    (hdrives : body.Drives stepper consumable lastRecordEnd Rests)
    (hdrives' : (body.withAcc hverdicts).Drives stepper' consumable lastRecordEnd Rests')
    {schedule : Schedule} {driver fresh : ChunkDriver} {pending : Bytes} {st : τ} {state : σ}
    {last : Option ℕ}
    (h : AwaitsAlike hverdicts lastRecordEnd Rests Rests' schedule driver pending st state last)
    (hfresh : ChunkDriver.Refilled body.output driver fresh) :
    body.StepAt (fresh.totalConsumed - body.base) fresh.stepCtx ∧
      ∃ lo, Rests (fresh.totalConsumed - body.base) lo fresh.stepCtx.scanStart driver.validated st
          fresh.stepCtx.buf state ∧
        body.Shows (fresh.totalConsumed - body.base) lo (pending.take fresh.reader.available) ∧
        (pending.take fresh.reader.available).length = fresh.stepCtx.buf.length := by
  obtain ⟨hctx, lo, hrests, -⟩ := hdrives.ready h.left (h.validated.refilled hfresh) hfresh
    h.validated.validated_le
  obtain ⟨lo', hrests'⟩ := h.right.rests
  have hlo := (hdrives.lo_eq hrests).1
  have hlo' := (hdrives'.lo_eq hrests').1
  have hshows : body.Shows (fresh.totalConsumed - body.base) lo pending := by
    have hthere := (hdrives'.shows hrests').ofAcc
    rw [hfresh.totalConsumed] at hlo ⊢
    rw [show lo = lo' from hlo.trans hlo'.symm]
    exact hthere
  refine ⟨hctx, lo, hrests, hshows.take _, ?_⟩
  simp only [ChunkDriver.stepCtx, ChunkReader.buffer, List.length_take, h.length,
    hfresh.pending]

/-- Both runs come to the same. -/
theorem Drives.run_alike (hdrives : body.Drives stepper consumable lastRecordEnd Rests)
    (hdrives' : (body.withAcc hverdicts).Drives stepper' consumable lastRecordEnd Rests')
    (halike : body.StepsAlike stepper stepper' Rests) {reader : ChunkReader}
    (hpending : reader.pending = body.text)
    (hremaining : reader.chunkRemaining = body.chunkEnd - body.base) {st : τ}
    (hstart : Rests 0 0 0 0 st body.text body.initial)
    (hstart' : Rests' 0 0 0 0 st body.text body.initial) (hlast : lastRecordEnd st = none) :
    ChunkDriver.run stepper' body.output (.new reader body.base) st body.initial =
      ChunkDriver.run stepper body.output (.new reader body.base) st body.initial := by
  have hvalidated := ChunkDriver.validated_new body.output reader body.base
  rw [hpending] at hvalidated
  refine @ChunkDriver.loop_alike _ _ stepper stepper' body.output
    (AwaitsAlike hverdicts lastRecordEnd Rests Rests' reader.schedule) ?_ ?_ ?_ _
    (.new reader body.base) reader.pending st body.initial none (Nat.zero_le _) ?_ ?_
  · intro driver pending st state last h
    exact ⟨h.length, h.validated'.tail.trans h.validated.tail.symm⟩
  · intro driver fresh pending st state last h hfresh hstuck hshort
    obtain ⟨hctx, lo, hrests, hshows, hlength⟩ := h.ready hverdicts hdrives hdrives' hfresh
    obtain ⟨hsame, hlen, ⟨-, havail, hall⟩ | ⟨hmore, -⟩⟩ := h.validated.stuck hfresh hstuck
    · have htotal := h.validated.length
      have hbase := h.validated.base_le
      have hpending' := congrArg List.length hfresh.pending
      rw [← hsame] at hrests
      refine halike.finalize hctx hrests ?_ ?_ hshows hlength
      · simp only [ChunkDriver.stepCtx]
        omega
      · simp only [ChunkDriver.stepCtx, hfresh.totalConsumed]
        omega
    · omega
  · intro driver fresh pending st state last h hfresh hfresh' hprogress
    obtain ⟨hctx, lo, hrests, hshows, hlength⟩ := h.ready hverdicts hdrives hdrives' hfresh
    have hthere := h.validated.refilled hfresh
    have hthere' := h.validated'.refilled hfresh'
    have hview := (hfresh.validated_le h.validated.validated_le).2
    obtain ⟨buf', hstep⟩ := halike.step hctx hrests hprogress hshows hlength
    have hkeeps := hdrives.iterate h.left hthere hfresh hprogress h.validated.validated_le
    have hkeeps' := hdrives'.iterate h.right hthere' hfresh' hprogress h.validated'.validated_le
    change ChunkDriver.StepsAlike _ _ _ _ _ (stepper.step st fresh.stepCtx state)
      (stepper'.step st { fresh.stepCtx with buf := pending.take fresh.reader.available } state)
    change ChunkDriver.StepKeepsText _ _ _ _
      (stepper'.step st { fresh.stepCtx with buf := pending.take fresh.reader.available } state)
      at hkeeps'
    rw [hstep] at hkeeps' ⊢
    refine ⟨rfl, fun resumeAt consumed last' hresult => ?_⟩
    rw [ChunkDriver.StepKeepsText] at hkeeps hkeeps'
    simp only [hresult] at hkeeps hkeeps'
    obtain ⟨hconsumed, hbuf, htail, hnext⟩ := hkeeps
    obtain ⟨hconsumed', hbuf', htail', hnext'⟩ := hkeeps'
    rw [halike.consume] at hnext'
    exact ⟨hconsumed, hbuf, fun n => by rw [halike.consume], hnext, hnext',
      hthere.advance hfresh.available_le hview hconsumed hbuf htail,
      hthere'.advance hfresh'.available_le hview hconsumed' hbuf' htail'⟩
  · simp only [ChunkDriver.new]
    omega
  · refine ⟨⟨.refl _, ⟨0, ?_⟩, hremaining, hlast.symm⟩, ⟨.refl _, ⟨0, ?_⟩, hremaining, hlast.symm⟩,
      hvalidated, hvalidated⟩
    · simp only [ChunkDriver.new, Nat.sub_self, hpending]
      exact hstart
    · simp only [ChunkDriver.new, ChunkDriver.withPending, hpending]
      change Rests' (body.base - body.base) 0 0 0 st body.text body.initial
      rw [Nat.sub_self]
      exact hstart'

end Body

end Csveee.Simd
