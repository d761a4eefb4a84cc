import Csveee.Parser.Simd.IndexOverwrite

/-!
# The end of the text over overwritten fields

What is left to read when the text ends lies behind the records that were handed out, too:
the bytes of the last vector, whether they end on a terminator, and the quote of a field
that was never closed.
-/

namespace Csveee.Simd

open Positions Slice

variable {σ : Type}

/-- Draining reads from the record in flight on. -/
theorem drain_alike {st : SimdIndexStepper} {ctx : StepCtx} {buf : Bytes}
    (hsame : SameOn (fun i => st.recordBufStart ≤ i) ctx.buf buf)
    (hstart : st.recordBufStart ≤ ctx.scanStart)
    (hlast : 0 < ctx.scanEnd → st.recordBufStart < ctx.scanEnd) :
    st.drain { ctx with buf := buf } = st.drain ctx := by
  have hread : slice buf ctx.scanStart (ctx.scanEnd - ctx.scanStart) =
      slice ctx.buf ctx.scanStart (ctx.scanEnd - ctx.scanStart) :=
    hsame.slice fun i hi _ => hstart.trans hi
  have hvirtual : (decide (0 < ctx.scanEnd) &&
      !(buf[ctx.scanEnd - 1]?.any st.scannerConfig.isTerm)) = (decide (0 < ctx.scanEnd) &&
      !(ctx.buf[ctx.scanEnd - 1]?.any st.scannerConfig.isTerm)) := by
    rcases Nat.eq_zero_or_pos ctx.scanEnd with hzero | hpos
    · rw [hzero]
      rfl
    · have hlt := hlast hpos
      rw [hsame.values _ (show st.recordBufStart ≤ ctx.scanEnd - 1 by omega)]
  have hverified := fun (scanner : Scanner) out base => @Body.publish_alike
    { st with scanner := scanner } _ _ (hsame.take ctx.scanEnd) out base ctx.totalConsumed
  rw [SimdIndexStepper.drain, SimdIndexStepper.drain]
  simp only [hread, hvirtual, hverified]
  split_ifs
  · cases hpublished : SimdIndexStepper.publish { st with scanner := _ } _ _ _ _ with
    | error err => rfl
    | ok st' =>
        have hthere := (Body.publish_keeps hpublished).2
        rw [← show st'.recordBufStart = st.recordBufStart from hthere] at hsame
        exact @Body.publish_alike { st' with scanner := st'.scanner.finalize.1 } _ _
          (hsame.take ctx.scanEnd) _ _ _
  · exact hverified _ _ _

namespace Body

variable {body : Body σ} {acc : Accumulator σ} {origin lo upTo : ℕ} {rest : List Cell}
  {w : Flush SimdIndexStepper σ} {ctx : StepCtx} {buf : Bytes}

/-- The byte in front of the open field is a quote, or the text's last field's. -/
theorem unclosedQuoteAt_alike {st : SimdIndexStepper} {state : σ}
    (h : body.Extracted origin lo upTo rest ⟨st, ctx.buf, 0, 0, state⟩)
    (hend : lo ≤ origin + ctx.scanEnd) (hshows : body.Shows origin lo buf)
    (hlength : buf.length = ctx.buf.length) :
    st.unclosedQuoteAt { ctx with buf := buf } = st.unclosedQuoteAt ctx := by
  have hbegin : lo ≤ origin + st.bOffs.getLast?.getD ctx.scanEnd := by
    cases hlast : st.bOffs.getLast? with
    | none => exact hend
    | some b =>
        have hbegins : st.bOffs = (body.marks.begins lo upTo).map fun i => i - origin := h.begins
        have hmem := List.mem_of_getLast? hlast
        rw [hbegins, Marks.begins] at hmem
        obtain ⟨i, hi, rfl⟩ := List.mem_map.mp hmem
        rw [Option.getD_some]
        split_ifs at hi with hzero
        · omega
        · have hrange := (mem_positions.mp hi).1
          omega
  rw [SimdIndexStepper.unclosedQuoteAt, SimdIndexStepper.unclosedQuoteAt]
  generalize st.bOffs.getLast?.getD ctx.scanEnd = b at hbegin
  simp only
  rcases Nat.eq_zero_or_pos b with rfl | hpos
  · rw [if_neg (fun hand => absurd hand.1 (Nat.lt_irrefl 0)),
      if_neg (fun hand => absurd hand.1 (Nat.lt_irrefl 0))]
  · rw [h.waiting.shows.edge_eq hshows hlength (show lo ≤ origin + (b - 1) + 1 by omega)]

/-- The walk over the next record's run reads behind the records handed out. -/
theorem Waiting.nextRun_alike (h : body.Waiting origin lo upTo rest w)
    (hmore : body.n ≤ w.st.eOffs.length - w.head) (hshows : body.Shows origin lo buf)
    (hlength : buf.length = w.buf.length) (scanEnd : ℕ) :
    nextRun scanEnd { w with buf := buf } = nextRun scanEnd w := by
  have hn := body.n_pos
  have hsame : SameOn (fun i => lo - origin ≤ i) w.buf buf :=
    (h.shows.sameOn hshows hlength).mono fun i hi => by omega
  have hend := h.lo_le_end (show body.n - 1 < w.st.eOffs.length - w.head by omega)
  rw [← Nat.add_sub_assoc hn.1] at hend
  rw [nextRun, nextRun]
  simp only [h.count]
  generalize w.st.eOffs.getD (w.head + body.n - 1) 0 = e at hend
  rw [runLength_alike hsame _ (show lo - origin ≤ e by omega),
    runLength_alike hsame _ (show lo - origin ≤ e + runLength
      (fun c => !w.st.scannerConfig.isTerm c) w.buf e scanEnd + 1 by omega)]

theorem finalizeLoop_alike (hverdicts : body.acc.SameVerdicts acc) (hctx : body.StepAt origin ctx)
    (htext : origin + ctx.scanEnd = body.text.length) (hupTo : body.ended.length ≤ upTo)
    (other : Bytes) (fuel : ℕ) {phase : ℕ} (h : body.Waiting origin lo upTo rest w)
    (hphase : phaseAfter body.n 0 (rest.map Cell.last) = some phase)
    (hbuf : w.buf.length = ctx.buf.length) (hshows : body.Shows origin lo buf)
    (hlength : buf.length = w.buf.length) :
    SimdIndexStepper.finalizeLoop acc { ctx with buf := other } fuel { w with buf := buf } =
      SimdIndexStepper.finalizeLoop body.acc ctx fuel w := by
  induction fuel generalizing lo rest w phase buf with
  | zero => rfl
  | succ fuel ih =>
      have hn := body.n_pos
      have hview := hctx.view
      have hchain := h.handed.chain
      have hlengths := body.length_ended
      have hcount : w.st.eOffs.length - w.head = rest.length := by
        have hends := congrArg List.length h.ends
        rwa [List.length_drop, List.length_map, finished_all hchain hupTo] at hends
      have hfits : ∀ cell ∈ body.finished upTo rest,
          body.marks.fin cell ≤ origin + w.buf.length ∧ lo ≤ origin + w.buf.length := by
        intro cell hcell
        have hmem := (List.takeWhile_sublist _).mem hcell
        obtain ⟨hat, hle⟩ := hchain.cellAt hmem
        have hbound := hchain.bound_lt body.proper hmem
        have hfin := hat.fin_le body.proper
        have hstop := hat.stop_le_bound
        have hcellLo := hat.lo_le
        omega
      rw [finalizeLoop_succ, finalizeLoop_succ]
      simp only [h.count]
      by_cases hmore : body.n ≤ w.st.eOffs.length - w.head
      · obtain ⟨row, more, hrest, hphase', hhanded⟩ :=
          h.handNext hctx htext hupTo hphase hbuf (hcount ▸ hmore)
        obtain ⟨row', more', -, -, hhanded'⟩ :=
          (h.withAcc hverdicts hshows).handNext (hctx.withAcc hverdicts) htext hupTo hphase
            (hlength.trans hbuf) (hcount ▸ hmore)
        have hlo : lo ≤ origin + w.buf.length := by
          refine (hfits row.final ?_).2
          rw [finished_all hchain hupTo, hrest]
          exact List.mem_append_left _ row.final_mem
        have hnext := h.nextRun_alike hmore hshows hlength ctx.scanEnd
        rw [if_pos hmore, if_pos hmore]
        rw [hnext] at hhanded' ⊢
        obtain ⟨buf', halike⟩ := h.emitPending_alike hverdicts
          (show 1 * body.n ≤ w.st.eOffs.length - w.head by omega) (fun cell hcell =>
            (hfits cell hcell).1) hlo hshows hlength ctx.totalConsumed ctx.remainingInChunk
          (decide (ctx.remainingInChunk < (nextRun ctx.scanEnd w).2 + 1))
          ((nextRun ctx.scanEnd w).1, some (nextRun ctx.scanEnd w).2)
        change Body.Handed _ _ _ _ _ _ _ (SimdIndexStepper.emitPending acc (body.base + origin)
          ctx.remainingInChunk 1 (decide (ctx.remainingInChunk < (nextRun ctx.scanEnd w).2 + 1))
          ((nextRun ctx.scanEnd w).1, some (nextRun ctx.scanEnd w).2) { w with buf := buf })
          at hhanded'
        rw [← hctx.total] at hhanded hhanded'
        rw [halike] at hhanded' ⊢
        generalize SimdIndexStepper.emitPending body.acc ctx.totalConsumed ctx.remainingInChunk 1
          _ _ w = result at hhanded hhanded'
        obtain ⟨w', err | _ | end_⟩ := result
        · rfl
        · obtain ⟨-, hw, hunmoved⟩ := hhanded
          obtain ⟨-, hw', hunmoved'⟩ := hhanded'
          have hstart := hw.start
          have hstart' := hw'.start
          simp only at hstart'
          have hthere := hw'.shows.ofAcc
          rw [show row'.final.bound + 1 = row.final.bound + 1 by omega] at hthere
          refine ih hw hphase' (hunmoved.length.trans hbuf) hthere ?_
          have hsize := hunmoved'.length
          rw [hunmoved.length]
          exact hsize.trans hlength
        · rfl
      · rw [if_neg hmore, if_neg hmore]

theorem finalize_alike (hverdicts : body.acc.SameVerdicts acc) (hctx : body.StepAt origin ctx)
    {st : SimdIndexStepper} {state : σ}
    (h : body.Rests origin lo ctx.scanStart ctx.scanEnd st ctx.buf state)
    (hall : ctx.scanEnd = ctx.buf.length) (htext : origin + ctx.buf.length = body.text.length)
    (hshows : body.Shows origin lo buf) (hlength : buf.length = ctx.buf.length) :
    SimdIndexStepper.finalize acc st { ctx with buf := buf } state =
      SimdIndexStepper.finalize body.acc st ctx state := by
  obtain ⟨head, j, rest, htracks, hj, -⟩ := h.tracks
  have hstart := h.resume_le
  have hnear := h.near
  have hlo := htracks.extracted.lo_le
  have horigin := htracks.extracted.waiting.shows.origin_le
  rw [frontier] at hlo
  rw [SimdIndexStepper.finalize, SimdIndexStepper.finalize]
  by_cases hnone : ctx.scanEnd = 0 ∧ ctx.scanStart = 0
  · rw [if_pos hnone, if_pos hnone]
  · rw [if_neg hnone, if_neg hnone]
    have hfresh : st.needsChunkStartB = false := by
      by_contra htrue
      have hzero := h.fresh (Bool.eq_true_of_not_eq_false htrue)
      exact hnone ⟨hzero, by omega⟩
    rw [armed_of_not hfresh] at htracks
    have hplace : lo = origin + st.recordBufStart := htracks.extracted.waiting.start
    have hend : body.AtEnd origin lo ctx :=
      ⟨hctx, htracks.extracted.waiting.shows, hall, by omega, by omega⟩
    have hlt := hend.lo_lt
    have hsame : SameOn (fun i => st.recordBufStart ≤ i) ctx.buf buf :=
      (htracks.extracted.waiting.shows.sameOn hshows hlength).mono fun i hi => by omega
    have hdrain := drain_spec hend htracks hj hstart hnear
    rw [drain_alike hsame (by omega) fun _ => by omega]
    cases hdrained : st.drain ctx with
    | error err => rfl
    | ok st' =>
        rw [hdrained] at hdrain
        obtain ⟨upTo, rOffs, hupTo, hextracted, hremovals⟩ := hdrain.extracted
        have hchain := hextracted.waiting.handed.chain
        have hphase := hextracted.phase
        rw [kinds_eq hchain, takeWhile_all hchain hupTo] at hphase
        have hquotes : st'.scanner.inQuotes = !closed body.config body.ended := hdrain.inQuotes
        simp only [hquotes]
        cases hclosed : closed body.config body.ended with
        | false =>
            have hopened := unclosedQuoteAt_alike hextracted (by omega) hshows hlength
            rw [Bool.not_false, if_pos rfl, if_pos rfl]
            exact congrArg (fun place => (state, Except.error
              (Error.unclosedQuote (ctx.totalConsumed + place)))) hopened
        | true =>
            rw [hremovals hclosed] at hextracted
            have hwaiting := hextracted.waiting.trimmed (show origin + ctx.scanEnd = _ by omega)
            rw [Bool.not_true, if_neg Bool.false_ne_true, if_neg Bool.false_ne_true]
            exact finalizeLoop_alike hverdicts hctx (by omega) hupTo buf _ hwaiting hphase rfl
              hshows hlength

theorem index_alike (hverdicts : body.acc.SameVerdicts acc) :
    body.StepsAlike (SimdIndexStepper.stepper body.acc) (SimdIndexStepper.stepper acc)
      body.Rests where
  consume := rfl
  step := fun hctx hrests hscanned hshows hlength =>
    step_alike hverdicts hctx hrests hscanned hshows hlength
  finalize := fun hctx hrests hall htext hshows hlength =>
    finalize_alike hverdicts hctx hrests hall htext hshows hlength

/-- Both runs of the index stepper come to the same. -/
theorem index_run_alike (hverdicts : body.acc.SameVerdicts acc) (isa : Isa) {reader : ChunkReader}
    (hpending : reader.pending = body.text)
    (hremaining : reader.chunkRemaining = body.chunkEnd - body.base) :
    ChunkDriver.run (SimdIndexStepper.stepper acc) body.output (.new reader body.base)
        (.new isa body.config) body.initial =
      ChunkDriver.run (SimdIndexStepper.stepper body.acc) body.output (.new reader body.base)
        (.new isa body.config) body.initial :=
  body.index_drives.run_alike hverdicts (body.withAcc hverdicts).index_drives
    (index_alike hverdicts) hpending hremaining (body.rests_new isa)
    ((body.withAcc hverdicts).rests_new isa) rfl

end Body

end Csveee.Simd
