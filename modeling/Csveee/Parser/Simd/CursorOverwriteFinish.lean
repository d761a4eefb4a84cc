import Csveee.Parser.Simd.CursorOverwrite

/-!
# The cursor stepper's end of the text over overwritten fields

The vector that is held back is a pair of masks and reads nothing; the last bytes lie behind
the records that were handed out.
-/

namespace Csveee.Simd

open Positions Slice

variable {σ : Type}

namespace Body

variable {body : Body σ} {acc : Accumulator σ} {origin lo upTo : ℕ} {rest : List Cell}
  {w : Flush SimdCursorStepper σ} {ctx : StepCtx} {buf : Bytes}

/-- Draining reads from the field in flight on. -/
theorem cursor_drain_alike {st : SimdCursorStepper}
    (hsame : SameOn (fun i => st.cellStart ≤ i) ctx.buf buf)
    (hstart : st.cellStart ≤ ctx.scanStart)
    (hlast : 0 < ctx.scanEnd → st.cellStart < ctx.scanEnd) :
    st.drain { ctx with buf := buf } = st.drain ctx := by
  have hread : slice buf ctx.scanStart (ctx.scanEnd - ctx.scanStart) =
      slice ctx.buf ctx.scanStart (ctx.scanEnd - ctx.scanStart) :=
    hsame.slice fun i hi _ => hstart.trans hi
  have hvirtual : (decide (0 < ctx.scanEnd) && !(buf[ctx.scanEnd - 1]?.any st.isTerm)) =
      (decide (0 < ctx.scanEnd) && !(ctx.buf[ctx.scanEnd - 1]?.any st.isTerm)) := by
    rcases Nat.eq_zero_or_pos ctx.scanEnd with hzero | hpos
    · rw [hzero]
      rfl
    · have hlt := hlast hpos
      rw [hsame.values _ (show st.cellStart ≤ ctx.scanEnd - 1 by omega)]
  rw [drain_eq st ctx rfl, drain_eq st { ctx with buf := buf } rfl]
  simp only [tailHeld, hread, hvirtual, publishHeld_alike (hsame.take ctx.scanEnd)]
  cases hheld : publishHeld st _ (ctx.buf.take ctx.scanEnd) ctx.totalConsumed with
  | error err => rfl
  | ok st' =>
      rw [← (publishHeld_keeps hheld).2] at hsame
      simp only [Except.bind, cursor_publish_alike (hsame.take ctx.scanEnd)]

theorem Queued.finalizeLoop_alike (hquote : body.config.quote = none)
    (hverdicts : body.acc.SameVerdicts acc) (hctx : body.StepAt origin ctx)
    (htext : origin + ctx.scanEnd = body.text.length) (hupTo : body.ended.length ≤ upTo)
    (other : Bytes) (fuel : ℕ) (h : body.Queued origin lo upTo rest w)
    (hbuf : w.buf.length = ctx.buf.length) (hshows : body.Shows origin lo buf)
    (hlength : buf.length = w.buf.length) :
    SimdCursorStepper.finalizeLoop acc { ctx with buf := other } fuel { w with buf := buf } =
      SimdCursorStepper.finalizeLoop body.acc ctx fuel w := by
  induction fuel generalizing lo rest w buf with
  | zero => rfl
  | succ fuel ih =>
      have hn := body.n_pos
      have hchain := h.handed.chain
      have hall : bounded upTo rest = rest := takeWhile_all hchain hupTo
      have hremaining := hctx.remaining
      have hview := hctx.view
      have hlengths := body.length_ended
      have hcount := h.length_bounds
      rw [hall] at hcount
      rw [SimdCursorStepper.finalizeLoop, SimdCursorStepper.finalizeLoop]
      simp only [h.count, hcount]
      by_cases hmore : body.n ≤ rest.length
      · obtain ⟨row, more, hrest, hstop, hbound, hfits, hhanded⟩ :=
          h.handNext hquote hctx htext hupTo hbuf hmore
        obtain ⟨row', more', -, hstop', hbound', -, hhanded'⟩ :=
          Queued.handNext (show (body.withAcc hverdicts).config.quote = none from hquote)
            (hctx.withAcc hverdicts) htext hupTo (h.withAcc hverdicts hshows) (hlength.trans hbuf)
            hmore
        obtain ⟨buf', halike⟩ := h.emitRecords_alike hquote hverdicts le_rfl
          (show 1 * body.n ≤ w.st.bounds.length - w.head by omega) (fun cell hcell => by
            have hlt := hchain.bound_lt body.proper (hall ▸ hcell)
            omega) hshows hlength
        rw [show (body.withAcc hverdicts).acc = acc from rfl] at hhanded'
        rw [if_pos hmore, if_pos hmore]
        rw [halike] at hhanded' ⊢
        generalize SimdCursorStepper.emitRecords body.acc w 1 = result at hhanded hhanded'
        obtain ⟨left, state, err | ⟨cs, lastRunStart⟩⟩ := result
        · rfl
        · obtain ⟨hplace, hleft, -, -, hnext⟩ := hhanded
          obtain ⟨hplace', hright, -, -, hnext'⟩ := hhanded'
          obtain ⟨rfl, rfl⟩ := Prod.mk.inj hplace
          have hplace := (Prod.mk.inj hplace').1
          have hlo := h.handed.lo_le
          have horigin := h.shows.origin_le
          have hend := @handoff_eq _ body origin (by omega) row.final hstop
            (decide (ctx.remainingInChunk < row.final.bound + 1 - origin))
          rw [← hremaining, ← hctx.total] at hend
          simp only [hend]
          by_cases hreached : ctx.remainingInChunk < row.final.bound + 1 - origin
          · rw [decide_eq_true hreached, if_pos rfl, if_pos rfl, if_pos rfl]
          · rw [decide_eq_false hreached, if_neg Bool.false_ne_true, if_neg Bool.false_ne_true,
              if_neg Bool.false_ne_true]
            have hin : body.base + row'.final.bound < body.chunkEnd := by omega
            have hthere := (hnext' hin).shows.ofAcc
            rw [show row'.final.bound + 1 = row.final.bound + 1 by omega] at hthere
            exact ih (hnext (by omega)) (hleft.trans hbuf) hthere
              (hright.trans (hlength.trans hleft.symm))
      · rw [if_neg hmore, if_neg hmore]

theorem cursor_finalize_alike (hquote : body.config.quote = none)
    (hverdicts : body.acc.SameVerdicts acc) (hctx : body.StepAt origin ctx)
    {st : SimdCursorStepper} {state : σ}
    (h : body.Waits origin lo ctx.scanStart ctx.scanEnd st ctx.buf state)
    (hall : ctx.scanEnd = ctx.buf.length) (htext : origin + ctx.buf.length = body.text.length)
    (hshows : body.Shows origin lo buf) (hlength : buf.length = ctx.buf.length) :
    SimdCursorStepper.finalize acc st { ctx with buf := buf } state =
      SimdCursorStepper.finalize body.acc st ctx state := by
  obtain ⟨head, j, rest, htrails, hhead, hj, -⟩ := h.trails
  have hstart := h.resume_le
  have hnear := h.near
  have hlo := htrails.queued.lo_le
  have horigin := htrails.queued.shows.origin_le
  have hplace : lo = origin + st.cellStart := htrails.queued.start
  rw [frontier] at hlo
  rw [SimdCursorStepper.finalize, SimdCursorStepper.finalize]
  by_cases hnone : ctx.scanEnd = 0 ∧ ctx.scanStart = 0 ∧ st.pending = none
  · rw [if_pos hnone, if_pos hnone]
  · rw [if_neg hnone, if_neg hnone]
    have hpos : 0 < ctx.scanEnd := by
      by_contra hzero
      have hpending := htrails.pending
      rw [show j = 0 by omega] at hpending
      exact hnone ⟨by omega, by omega, hpending⟩
    have hend : body.AtEnd origin lo ctx :=
      ⟨hctx, htrails.queued.shows, hall, by omega, by omega⟩
    have hlt := hend.lo_lt
    have hsame : SameOn (fun i => st.cellStart ≤ i) ctx.buf buf :=
      (htrails.queued.shows.sameOn hshows hlength).mono fun i hi => by omega
    have hdrain := htrails.drain hquote hend hj hstart hnear
    rw [cursor_drain_alike hsame (by omega) fun _ => by omega]
    cases hdrained : st.drain ctx with
    | error err => rfl
    | ok st' =>
        rw [hdrained] at hdrain
        obtain ⟨upTo, hupTo, hqueued⟩ := hdrain
        exact hqueued.finalizeLoop_alike hquote hverdicts hctx (by omega) hupTo buf _ rfl hshows
          hlength

theorem cursor_alike (hquote : body.config.quote = none)
    (hverdicts : body.acc.SameVerdicts acc) :
    body.StepsAlike (SimdCursorStepper.stepper body.acc) (SimdCursorStepper.stepper acc)
      body.Waits where
  consume := rfl
  step := fun hctx hwaits hscanned hshows hlength =>
    cursor_step_alike hquote hverdicts hctx hwaits hscanned hshows hlength
  finalize := fun hctx hwaits hall htext hshows hlength =>
    cursor_finalize_alike hquote hverdicts hctx hwaits hall htext hshows hlength

/-- Both runs of the cursor stepper come to the same. -/
theorem cursor_run_alike (hquote : body.config.quote = none)
    (hverdicts : body.acc.SameVerdicts acc) (isa : Isa) {reader : ChunkReader}
    (hpending : reader.pending = body.text)
    (hremaining : reader.chunkRemaining = body.chunkEnd - body.base) :
    ChunkDriver.run (SimdCursorStepper.stepper acc) body.output (.new reader body.base)
        (.new isa body.config) body.initial =
      ChunkDriver.run (SimdCursorStepper.stepper body.acc) body.output (.new reader body.base)
        (.new isa body.config) body.initial :=
  (body.cursor_drives hquote).run_alike hverdicts ((body.withAcc hverdicts).cursor_drives hquote)
    (cursor_alike hquote hverdicts) hpending hremaining (body.waits_new isa)
    ((body.withAcc hverdicts).waits_new isa) rfl

end Body

end Csveee.Simd
