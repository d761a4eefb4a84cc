import Csveee.Parser.Simd.CursorSpec
import Csveee.Parser.Simd.IndexFinish

/-!
# The cursor stepper at the end of the text

The vector that is held back and the one with the last bytes are published, and the records
left are handed out one at a time.
-/

namespace Csveee.Simd

open Positions Slice

variable {σ : Type}

namespace Body

variable {body : Body σ} {origin lo upTo head j : ℕ} {rest : List Cell}
  {w : Flush SimdCursorStepper σ} {ctx : StepCtx}

/-- Past the text there is no terminator. -/
theorem padded_term_past {i : ℕ} (hi : head + body.ended.length ≤ i) :
    (body.padded head).term i = false := by
  refine (Marks.of_past ?_).2.1
  rw [List.length_append, length_padding]
  exact hi

/-- The last bytes, as a vector. -/
def tailHeld (st : SimdCursorStepper) (ctx : StepCtx) (needsVirtualTerm : Bool) :
    Option HeldVector :=
  if 0 < ctx.scanEnd - ctx.scanStart ∨ needsVirtualTerm = true then
    some (st.scanVector (SimdIndexStepper.tailVector ⟨st.delim, st.termA, st.termB, none, false⟩
      (slice ctx.buf ctx.scanStart (ctx.scanEnd - ctx.scanStart)) needsVirtualTerm) ctx.scanStart)
  else none

theorem drain_eq (st : SimdCursorStepper) (ctx : StepCtx) {tail : Option HeldVector}
    (htail : tailHeld st ctx (decide (0 < ctx.scanEnd) &&
      !(ctx.buf[ctx.scanEnd - 1]?.any st.isTerm)) = tail) :
    st.drain ctx = (publishHeld st (tail.any fun tail => lsb tail.term)
      (ctx.buf.take ctx.scanEnd) ctx.totalConsumed).bind fun st => tail.elim (.ok st) fun tail =>
        SimdCursorStepper.publish st tail false (ctx.buf.take ctx.scanEnd) ctx.totalConsumed := by
  simp only [tailHeld, SimdIndexStepper.tailVector] at htail
  rw [SimdCursorStepper.drain, publishHeld]
  simp only [htail]
  cases st.pending with
  | none => cases tail <;> rfl
  | some held =>
      simp only [Option.elim_some]
      generalize SimdCursorStepper.publish _ held _ _ _ = published
      cases published <;> cases tail <;> rfl

theorem Trails.drain (hquote : body.config.quote = none) {st : SimdCursorStepper} {state : σ}
    (hend : body.AtEnd origin lo ctx)
    (h : body.Trails head origin j lo rest ⟨st, ctx.buf, 0, 0, state⟩)
    (hj : 64 * j = head + origin + ctx.scanStart) (hstart : ctx.scanStart ≤ ctx.scanEnd)
    (hnear : ctx.scanEnd < ctx.scanStart + 64) :
    match st.drain ctx with
      | .error err => body.Blames ⟨origin, ctx.buf.take ctx.scanEnd, st.cellStart⟩ state err
      | .ok st' => ∃ upTo, body.ended.length ≤ upTo ∧
          body.Queued origin lo upTo rest ⟨st', ctx.buf, 0, 0, state⟩ := by
  have htext := hend.text_end
  have horigin := hend.shows.origin_le
  have hlt := hend.lo_lt
  have hlength := body.length_ended
  have hlo := h.queued.lo_le
  rw [frontier] at hlo
  have hshows := hend.shows.take ctx.scanEnd
  have hseen : origin + (ctx.buf.take ctx.scanEnd).length = body.text.length := by
    have hall := hend.all
    rw [List.length_take]
    omega
  have hisTerm : st.isTerm = body.config.isTerminator := h.queued.isTerm_eq
  have hreads := hend.reads_tail (show lo ≤ origin + ctx.scanStart by omega) hstart hnear hj
  have htail := hend.tail_eq (show lo ≤ origin + ctx.scanStart by omega) hstart
  have hheld : ∀ needsVirtualTerm, SimdIndexStepper.tailVector
      ⟨st.delim, st.termA, st.termB, none, false⟩
        (slice ctx.buf ctx.scanStart (ctx.scanEnd - ctx.scanStart)) needsVirtualTerm =
      SimdIndexStepper.tailVector (scannerConfigOf body.config)
        (slice ctx.buf ctx.scanStart (ctx.scanEnd - ctx.scanStart)) needsVirtualTerm := by
    have hdelim : st.delim = body.config.delimiter := h.queued.delim
    have hterms : st.termA = body.config.terminator.bytes.1 ∧
      st.termB = body.config.terminator.bytes.2 := h.queued.terms
    intro needsVirtualTerm
    simp only [SimdIndexStepper.tailVector, scannerConfigOf, hdelim, hterms.1, hterms.2, hquote]
  rw [drain_eq st ctx rfl, tailHeld, hisTerm, hend.step.total]
  simp only [hheld]
  generalize (decide (0 < ctx.scanEnd) &&
    !(ctx.buf[ctx.scanEnd - 1]?.any body.config.isTerminator)) = needsVirtualTerm at hreads htail
  by_cases hfeed : 0 < ctx.scanEnd - ctx.scanStart ∨ needsVirtualTerm = true
  · have hscan := scanVector_eq h.queued hquote hreads
      (show (ctx.scanStart : ℤ) = 64 * (j : ℤ) - head - origin by omega)
    rw [held] at hscan
    have hvector := Option.some.inj hscan
    have hpublish := h.publish hquote (show lsb (st.scanVector
      (SimdIndexStepper.tailVector (scannerConfigOf body.config)
        (slice ctx.buf ctx.scanStart (ctx.scanEnd - ctx.scanStart)) needsVirtualTerm)
      ctx.scanStart).term = _ by rw [hvector, lsb_window]) hshows (Or.inr hseen)
    simp only [if_pos hfeed, Option.any_some, Option.elim_some]
    generalize publishHeld st _ _ _ = published at hpublish
    cases published with
    | error err => exact hpublish
    | ok st₁ =>
        have hfrontier : 64 * j - head = frontier head (j + 1) := rfl
        have hsame : st₁.cellStart = st.cellStart := by
          have hplace := hpublish.1.start
          have hplace' := h.queued.start
          simp only at hplace hplace'
          omega
        have hlast := (hfrontier ▸ hpublish.1 : body.Queued origin lo (64 * j - head) rest
          ⟨st₁, ctx.buf, 0, 0, state⟩).publish hquote rfl
          (padded_term_past (show head + body.ended.length ≤ 64 * (j + 1) by omega)).symm hshows
          (Or.inr hseen)
        simp only [Except.bind, hvector]
        rw [← hsame]
        generalize SimdCursorStepper.publish st₁ _ _ _ _ = published at hlast
        cases published with
        | error err => exact hlast
        | ok st₂ => exact ⟨_, by omega, hlast.1⟩
  · -- the text ends with a vector, and on a terminator
    rw [not_or, Nat.not_lt, Nat.le_zero_eq, Bool.not_eq_true] at hfeed
    obtain ⟨hnone, rfl⟩ := hfeed
    have hwhole : body.ended.length = body.text.length := by
      have hdrop := congrArg List.length htail
      rw [if_neg Bool.false_ne_true, List.length_drop, hnone, slice_zero] at hdrop
      change 0 = _ at hdrop
      omega
    have hpublish := h.publish hquote (show false = _ from
      (padded_term_past (show head + body.ended.length ≤ 64 * j by omega)).symm) hshows
      (Or.inr hseen)
    rw [if_neg (by rw [hnone]; decide)]
    simp only [Option.any_none, Option.elim_none]
    generalize publishHeld st _ _ _ = published at hpublish
    cases published with
    | error err => exact hpublish
    | ok st₁ =>
        refine ⟨_, ?_, hpublish.1⟩
        rw [frontier]
        omega

/-- The record next to be handed out at the end of the text, if there is one. -/
theorem Queued.handNext (hquote : body.config.quote = none) (hctx : body.StepAt origin ctx)
    (htext : origin + ctx.scanEnd = body.text.length) (hupTo : body.ended.length ≤ upTo)
    (h : body.Queued origin lo upTo rest w) (hbuf : w.buf.length = ctx.buf.length)
    (hmore : body.n ≤ rest.length) :
    ∃ (row : Row body.n) (more : List Cell), rest = row.cells ++ more ∧
      origin ≤ row.final.stop ∧ row.final.stop ≤ row.final.bound ∧
      row.final.bound ≤ origin + w.buf.length ∧
      match SimdCursorStepper.emitRecords body.acc w 1 with
      | (_, state, .error err) => body.kept state ∧ ∀ walk, body.Blames walk state err
      | (buf, state, .ok place) =>
          place = (row.final.bound + 1 - origin, row.final.stop - origin) ∧
            buf.length = w.buf.length ∧ body.kept state ∧
            (body.chunkEnd ≤ body.base + row.final.bound → body.outcome body.chunkEnd =
              (state, .ok (some (max body.chunkEnd (body.base + row.final.stop))))) ∧
            (body.base + row.final.bound < body.chunkEnd →
              body.Queued origin (row.final.bound + 1) upTo more (movedTo w buf state
                (row.final.bound + 1 - origin) (body.base + row.final.stop) body.n)) := by
  have hview := hctx.view
  have hchain := h.handed.chain
  have hall : bounded upTo rest = rest := takeWhile_all hchain hupTo
  have hlength := body.length_ended
  have horigin := h.shows.origin_le
  obtain ⟨rows, more, hrows, hrest⟩ := h.rows (show 1 * body.n ≤ _ by rw [hall]; omega)
  obtain ⟨row, rfl⟩ := List.length_eq_one_iff.mp hrows
  rw [hall, List.flatMap_singleton] at hrest
  have hcells : row.final ∈ rest := by
    rw [hrest]
    exact List.mem_append_left _ row.final_mem
  obtain ⟨hat, hloCell⟩ := hchain.cellAt hcells
  have hcell := hat.lo_le
  have hstop := hat.stop_le_bound
  have hbound := hchain.bound_lt body.proper hcells
  have hsplit : rest = ([] ++ [row]).flatMap Row.cells ++ more := by
    rw [hrest, List.nil_append, List.flatMap_singleton]
  have hhanded := (hsplit ▸ h : body.Queued origin lo upTo
    (([] ++ [row]).flatMap Row.cells ++ more) w).handOut hquote (by omega) (by omega)
    hctx.valid hctx.within (by omega) (fun _ hnone => by cases hnone)
  rw [List.length_nil, Nat.zero_add, Nat.one_mul] at hhanded
  exact ⟨row, more, hrest, by omega, hstop, by omega, hhanded⟩

theorem Queued.finalizeLoop (hquote : body.config.quote = none) (hctx : body.StepAt origin ctx)
    (htext : origin + ctx.scanEnd = body.text.length) (hupTo : body.ended.length ≤ upTo)
    (fuel : ℕ) (h : body.Queued origin lo upTo rest w) (hbuf : w.buf.length = ctx.buf.length)
    (hfuel : rest.length < fuel) :
    body.kept (SimdCursorStepper.finalizeLoop body.acc ctx fuel w).1 ∧
      match SimdCursorStepper.finalizeLoop body.acc ctx fuel w with
      | (left, .ok finalEnd) => body.outcome body.chunkEnd = (left, .ok finalEnd) ∧
          (finalEnd = none → w.st.lastRecordEnd = none)
      | (left, .error err) => ∀ walk, body.Blames walk left err := by
  induction fuel generalizing lo rest w with
  | zero => cases hfuel
  | succ fuel ih =>
      have hn := body.n_pos
      have hview := hctx.view
      have hchain := h.handed.chain
      have hall : bounded upTo rest = rest := takeWhile_all hchain hupTo
      have hremaining := hctx.remaining
      have hlo := h.handed.lo_le
      have horigin := h.shows.origin_le
      have hlength := body.length_ended
      rw [SimdCursorStepper.finalizeLoop]
      simp only [h.count, h.length_bounds, hall]
      by_cases hmore : body.n ≤ rest.length
      · rw [if_pos hmore]
        obtain ⟨row, more, hrest, hstop, hbound, hfits, hhanded⟩ :=
          h.handNext hquote hctx htext hupTo hbuf hmore
        generalize SimdCursorStepper.emitRecords body.acc w 1 = result at hhanded
        obtain ⟨buf', state', err | ⟨cs, lastRunStart⟩⟩ := result
        · exact hhanded
        · obtain ⟨hplace, hlength', hkept, hpast, hnext⟩ := hhanded
          obtain ⟨rfl, rfl⟩ := Prod.mk.inj hplace
          have hend := @handoff_eq _ body origin (by omega) row.final hstop
            (decide (ctx.remainingInChunk < row.final.bound + 1 - origin))
          rw [← hremaining, ← hctx.total] at hend
          simp only [hend]
          by_cases hreached : ctx.remainingInChunk < row.final.bound + 1 - origin
          · rw [decide_eq_true hreached, if_pos rfl]
            exact ⟨hkept, hpast (by omega), fun hnone => by cases hnone⟩
          · rw [decide_eq_false hreached, if_neg Bool.false_ne_true]
            have hshort : more.length < fuel := by
              have hlong := congrArg List.length hrest
              rw [List.length_append, row.length_cells] at hlong
              omega
            obtain ⟨hkept', hresult⟩ := ih (hnext (by omega)) (hlength'.trans hbuf) hshort
            refine ⟨hkept', ?_⟩
            split at hresult
            · next left finalEnd hloop =>
                rw [movedTo] at hloop
                simp only [Bool.false_eq_true, if_false, hloop]
                exact ⟨hresult.1, fun hnone => by cases hresult.2 hnone⟩
            · next left err hloop =>
                rw [movedTo] at hloop
                simp only [Bool.false_eq_true, if_false, hloop]
                exact hresult
      · rw [if_neg hmore]
        have hclosed := closed_of_unquoted hquote
        have hphase := h.phase
        rw [hall] at hphase
        obtain rfl := rest_eq_nil hchain hclosed hphase (by omega)
        exact ⟨h.handed.kept, h.handed.finish hclosed, fun hnone => hnone⟩

theorem cursor_publish_keeps {st st' : SimdCursorStepper} {held : HeldVector} {next : Bool}
    {view : Bytes} {totalConsumed : ℕ}
    (h : SimdCursorStepper.publish st held next view totalConsumed = .ok st') :
    st'.lastRecordEnd = st.lastRecordEnd ∧ st'.cellStart = st.cellStart := by
  rw [SimdCursorStepper.publish] at h
  simp only at h
  split at h
  · cases h
  · cases h
    exact ⟨rfl, rfl⟩

theorem publishHeld_keeps {st st' : SimdCursorStepper} {next : Bool} {view : Bytes}
    {totalConsumed : ℕ} (h : publishHeld st next view totalConsumed = .ok st') :
    st'.lastRecordEnd = st.lastRecordEnd ∧ st'.cellStart = st.cellStart := by
  rw [publishHeld] at h
  cases hpending : st.pending with
  | none =>
      rw [hpending] at h
      cases h
      exact ⟨rfl, rfl⟩
  | some held =>
      rw [hpending, Option.elim_some] at h
      have hkeeps := cursor_publish_keeps h
      exact hkeeps

theorem cursor_drain_last {st st' : SimdCursorStepper} (h : st.drain ctx = .ok st') :
    st'.lastRecordEnd = st.lastRecordEnd := by
  rw [drain_eq st ctx rfl] at h
  generalize tailHeld st ctx _ = tail at h
  cases hheld : publishHeld st (tail.any fun tail => lsb tail.term) (ctx.buf.take ctx.scanEnd)
      ctx.totalConsumed with
  | error err =>
      rw [hheld] at h
      cases h
  | ok st₁ =>
      have hlast := (publishHeld_keeps hheld).1
      rw [hheld] at h
      cases tail with
      | none =>
          cases h
          exact hlast
      | some tail => exact (cursor_publish_keeps h).1.trans hlast

theorem cursor_finalize_spec (hquote : body.config.quote = none) (hctx : body.StepAt origin ctx)
    {st : SimdCursorStepper} {state : σ}
    (h : body.Waits origin lo ctx.scanStart ctx.scanEnd st ctx.buf state)
    (hall : ctx.scanEnd = ctx.buf.length) (htext : origin + ctx.buf.length = body.text.length) :
    body.kept (SimdCursorStepper.finalize body.acc st ctx state).1 ∧
      match SimdCursorStepper.finalize body.acc st ctx state with
      | (left, .ok finalEnd) =>
          body.outcome body.chunkEnd = (left, .ok (finalEnd.or st.lastRecordEnd))
      | (left, .error err) =>
          body.Blames ⟨origin, ctx.buf.take ctx.scanEnd, st.cellStart⟩ left err := by
  obtain ⟨head, j, rest, htrails, hhead, hj, -⟩ := h.trails
  have hstart := h.resume_le
  have hnear := h.near
  have hlo := htrails.queued.lo_le
  have horigin := htrails.queued.shows.origin_le
  have hhanded := htrails.queued.handed
  rw [frontier] at hlo
  rw [SimdCursorStepper.finalize]
  by_cases hnone : ctx.scanEnd = 0 ∧ ctx.scanStart = 0 ∧ st.pending = none
  · rw [if_pos hnone]
    obtain ⟨rfl, hclosed⟩ := hhanded.at_end (by omega)
    refine ⟨hhanded.kept, ?_⟩
    simp only [Option.or_self]
    exact hhanded.finish hclosed
  · rw [if_neg hnone]
    have hpos : 0 < ctx.scanEnd := by
      by_contra hzero
      have hpending := htrails.pending
      rw [show j = 0 by omega] at hpending
      exact hnone ⟨by omega, by omega, hpending⟩
    have hend : body.AtEnd origin lo ctx :=
      ⟨hctx, htrails.queued.shows, hall, by omega, by omega⟩
    have hdrain := htrails.drain hquote hend hj hstart hnear
    cases hdrained : st.drain ctx with
    | error err =>
        rw [hdrained] at hdrain
        exact ⟨hhanded.kept, hdrain⟩
    | ok st' =>
        rw [hdrained] at hdrain
        obtain ⟨upTo, hupTo, hqueued⟩ := hdrain
        have hlast := cursor_drain_last hdrained
        have hcount := hqueued.length_bounds
        rw [show bounded upTo rest = rest from takeWhile_all hqueued.handed.chain hupTo] at hcount
        have hloop := hqueued.finalizeLoop hquote hctx (by omega) hupTo (st'.bounds.length + 1)
          rfl (by
            simp only [Nat.sub_zero] at hcount
            omega)
        refine ⟨hloop.1, ?_⟩
        have hresult := hloop.2
        simp only
        generalize SimdCursorStepper.finalizeLoop body.acc ctx (st'.bounds.length + 1)
          ⟨st', ctx.buf, 0, 0, state⟩ = result at hresult
        obtain ⟨left, err | finalEnd⟩ := result
        · exact hresult _
        · simp only at hresult ⊢
          rw [hresult.1]
          cases finalEnd with
          | some end_ => rfl
          | none =>
              have hnothing : st'.lastRecordEnd = none := hresult.2 rfl
              rw [← hlast, hnothing]
              rfl

theorem Waits.consume {resumeAt scanEnd : ℕ} {st : SimdCursorStepper} {buf : Bytes} {state : σ}
    (h : body.Waits origin lo resumeAt scanEnd st buf state) (hpos : 0 < st.cellStart)
    (hle : st.cellStart ≤ buf.length) :
    body.Waits (origin + st.cellStart) lo (resumeAt - st.cellStart) (scanEnd - st.cellStart)
      (st.consume st.cellStart) (buf.drop st.cellStart) state := by
  obtain ⟨head, j, rest, htrails, hhead, hj, haligned⟩ := h.trails
  have hq := htrails.queued
  have hstart : lo = origin + st.cellStart := hq.start
  have hlo := hq.lo_le
  have hresume := h.resume_le
  have hnear := h.near
  rw [frontier] at hlo
  refine ⟨⟨head, j, rest, ⟨?_, ?_⟩, hhead, by omega, fun hflag => ?_⟩, by omega, by omega⟩
  · have hbounds : st.bounds = (bounded (frontier head j) rest).map (boundAt origin) := hq.bounds
    exact {
      delim := hq.delim
      terms := hq.terms
      count := hq.count
      start := by
        simp only [SimdCursorStepper.consume]
        omega
      shows := hq.shows.drop hstart.ge hle
      handed := hq.handed
      head_le := Nat.zero_le _
      bounds := by
        simp only [SimdCursorStepper.consume, List.drop_zero, hbounds, List.map_map]
        congr 1
        funext cell
        exact Nat.sub_sub _ _ _
      runs := hq.runs
      lo_le := hq.lo_le
      phase := hq.phase }
  · have hpending : st.pending = body.held head origin j := htrails.pending
    simp only [SimdCursorStepper.consume, hpending]
    cases j with
    | zero => rfl
    | succ k =>
        simp only [held, Option.map_some, Option.some.injEq, HeldVector.mk.injEq, true_and]
        omega
  · obtain ⟨rfl, rfl, rfl⟩ := haligned hflag
    omega

theorem cursor_drives (body : Body σ) (hquote : body.config.quote = none) :
    body.Drives (SimdCursorStepper.stepper body.acc) SimdCursorStepper.cellStart
      SimdCursorStepper.lastRecordEnd body.Waits where
  shows := by
    intro origin lo resumeAt scanEnd st buf state h
    obtain ⟨head, j, rest, htrails, -⟩ := h.trails
    exact htrails.queued.shows
  kept := by
    intro origin lo resumeAt scanEnd st buf state h
    obtain ⟨head, j, rest, htrails, -⟩ := h.trails
    exact htrails.queued.handed.kept
  lo_eq := by
    intro origin lo resumeAt scanEnd st buf state h
    obtain ⟨head, j, rest, htrails, -, hj, -⟩ := h.trails
    have hstart : lo = origin + st.cellStart := htrails.queued.start
    have hlo := htrails.queued.lo_le
    have hresume := h.resume_le
    rw [frontier] at hlo
    exact ⟨hstart, by omega⟩
  view := by
    intro origin lo resumeAt scanEnd st buf state buf' h hshows
    obtain ⟨head, j, rest, htrails, hhead, hj, haligned⟩ := h.trails
    have hq := htrails.queued
    exact ⟨⟨head, j, rest, ⟨⟨hq.delim, hq.terms, hq.count, hq.start, hshows, hq.handed, hq.head_le,
      hq.bounds, hq.runs, hq.lo_le, hq.phase⟩, htrails.pending⟩, hhead, hj, haligned⟩,
      h.resume_le, h.near⟩
  consume := by
    intro origin lo resumeAt scanEnd st buf state h hle
    split_ifs with hpos
    · exact h.consume hpos hle
    · rw [Nat.eq_zero_of_not_pos hpos]
      exact h
  last_consume := fun _ _ => rfl
  step := by
    intro origin lo scanned ctx st state hctx hrests hscanned
    exact cursor_step_spec hquote hctx hrests hscanned
  finalize := by
    intro origin lo ctx st state hctx hrests hall htext
    exact cursor_finalize_spec hquote hctx hrests hall htext

theorem waits_new (body : Body σ) (isa : Isa) :
    body.Waits 0 0 0 0 (.new isa body.config) body.text body.initial := by
  have hnone : bounded 0 body.cells = [] :=
    body.chain.takeWhile_eq_nil (fun _ hcell => hcell.lo_le_bound) le_rfl
  refine ⟨⟨0, 0, body.cells, ⟨?_, rfl⟩, by omega, rfl, fun _ => ⟨rfl, rfl, rfl⟩⟩, le_rfl,
    by omega⟩
  rw [show frontier 0 0 = 0 from rfl]
  exact {
    delim := rfl
    terms := ⟨rfl, rfl⟩
    count := by
      change body.config.fieldCount.getD 0 = body.n
      rw [body.count, Option.getD_some]
    start := rfl
    shows := ⟨le_rfl, (Nat.zero_add _).le, fun _ _ _ => rfl, fun hlt => by omega⟩
    handed := body.at_start
    head_le := Nat.zero_le _
    bounds := by
      rw [hnone]
      rfl
    runs := fun _ i hi => by omega
    lo_le := le_rfl
    phase := by
      rw [hnone]
      rfl }

/-- What the cursor stepper makes of a body. -/
theorem cursor_post (body : Body σ) (hquote : body.config.quote = none) (isa : Isa)
    {reader : ChunkReader} (hpending : reader.pending = body.text)
    (hremaining : reader.chunkRemaining = body.chunkEnd - body.base) :
    body.Post reader.schedule (ChunkDriver.run (SimdCursorStepper.stepper body.acc) body.output
      (.new reader body.base) (.new isa body.config) body.initial) :=
  (body.cursor_drives hquote).run hpending hremaining (body.waits_new isa) rfl

end Body

end Csveee.Simd
