import Csveee.Parser.Simd.CursorFinish
import Csveee.Parser.Simd.IndexOverwrite

/-!
# The cursor stepper over overwritten fields

The boundaries at hand do not change with the bytes in front of them, and what is read to hand
the records out, to place an error, or to tell the next boundaries lies behind the records
that were handed out.
-/

namespace Csveee.Simd

open Positions Slice

variable {σ : Type}

namespace Body

variable {body : Body σ} {acc : Accumulator σ} {origin lo upTo head j cursor : ℕ}
  {rest : List Cell} {w : Flush SimdCursorStepper σ} {ctx : StepCtx} {buf : Bytes}

theorem Queued.withAcc (h : body.Queued origin lo upTo rest w)
    (hverdicts : body.acc.SameVerdicts acc) (hshows : body.Shows origin lo buf) :
    (body.withAcc hverdicts).Queued origin lo upTo rest { w with buf := buf } :=
  ⟨h.delim, h.terms, h.count, h.start, hshows.withAcc hverdicts, h.handed.withAcc hverdicts,
    h.head_le, h.bounds, h.runs, h.lo_le, h.phase⟩

/-- The records at hand are handed out alike from another buffer that shows the text. -/
theorem Queued.emitRecords_alike (h : body.Queued origin lo upTo rest w)
    (hquote : body.config.quote = none) (hverdicts : body.acc.SameVerdicts acc) {count : ℕ}
    (hpos : 1 ≤ count) (hcount : count * body.n ≤ w.st.bounds.length - w.head)
    (hfits : ∀ cell ∈ bounded upTo rest, cell.bound ≤ origin + w.buf.length)
    (hshows : body.Shows origin lo buf) (hlength : buf.length = w.buf.length) :
    ∃ buf', SimdCursorStepper.emitRecords acc { w with buf := buf } count =
      (buf', (SimdCursorStepper.emitRecords body.acc w count).2) := by
  rw [h.length_bounds] at hcount
  obtain ⟨rows, more, hrows, hsplit⟩ := h.rows hcount
  obtain ⟨tail, htail⟩ : bounded upTo rest <+: rest := List.takeWhile_prefix _
  have hlt : count - 1 < rows.length := by omega
  have hrest : rest = (rows.take (count - 1) ++ [rows[count - 1]]).flatMap Row.cells ++
      ((rows.drop count).flatMap Row.cells ++ (more ++ tail)) := by
    rw [← split_rows _ hpos hlt, ← List.append_assoc, ← hsplit, htail]
  have htaken : (rows.take (count - 1)).length + 1 = count := by
    rw [List.length_take]
    omega
  have hmem := List.getElem_mem hlt
  have hbound := (h.bound_lt hsplit _ hmem).2
  have hfit := hfits rows[count - 1].final (by
    rw [hsplit]
    exact List.mem_append_left _ (List.mem_flatMap_of_mem hmem rows[count - 1].final_mem))
  subst hrest
  obtain ⟨left, -, hleft⟩ := h.emitRecords_eq hquote hbound hfit
  obtain ⟨right, -, hright⟩ : ∃ buf', _ ∧ SimdCursorStepper.emitRecords acc { w with buf := buf }
      ((rows.take (count - 1)).length + 1) = (buf', loopOutcome _
        (emitRows acc ((rows.take (count - 1) ++ [rows[count - 1]]).map body.recordOf) w.state)) :=
    (h.withAcc hverdicts hshows).emitRecords_eq hquote hbound (hlength ▸ hfit)
  rw [htaken, emitRows_alike hverdicts] at hright
  rw [htaken] at hleft
  exact ⟨right, by rw [hright, hleft]⟩

theorem flushPlan_spec (remaining : ℕ) (w : Flush SimdCursorStepper σ)
    (havail : (w.st.bounds.length - w.head) / w.st.fieldCounter.n ≠ 0) :
    1 ≤ (flushPlan remaining w).1 ∧
      (flushPlan remaining w).1 ≤ (w.st.bounds.length - w.head) / w.st.fieldCounter.n := by
  rw [flushPlan]
  simp only
  split_ifs with hzero hall
  · exact ⟨le_rfl, Nat.pos_of_ne_zero havail⟩
  · exact ⟨Nat.pos_of_ne_zero havail, le_rfl⟩
  · exact ⟨Nat.succ_pos _, recordsBefore_lt (Nat.pos_of_ne_zero havail)
      (Bool.eq_false_of_not_eq_true hall)⟩

/-- A flush comes to the same. -/
theorem Queued.flush_alike (h : body.Queued origin lo upTo rest w)
    (hquote : body.config.quote = none) (hverdicts : body.acc.SameVerdicts acc)
    (hbuf : upTo ≤ origin + w.buf.length) (hshows : body.Shows origin lo buf)
    (hlength : buf.length = w.buf.length) (remaining totalConsumed : ℕ) :
    ∃ buf', SimdCursorStepper.flush acc remaining totalConsumed { w with buf := buf } =
      ({ (SimdCursorStepper.flush body.acc remaining totalConsumed w).1 with buf := buf' },
        (SimdCursorStepper.flush body.acc remaining totalConsumed w).2) := by
  have hn := body.n_pos
  rw [flush_eq, flush_eq]
  simp only
  split_ifs with havail
  · exact ⟨buf, rfl⟩
  · obtain ⟨hpos, hle⟩ := flushPlan_spec remaining w havail
    rw [h.count] at hle
    obtain ⟨buf', halike⟩ := h.emitRecords_alike hquote hverdicts hpos
      ((Nat.le_div_iff_mul_le (by omega)).mp hle) (fun cell hcell => by
        have hlt := List.mem_takeWhile_imp hcell
        have hbound := of_decide_eq_true hlt
        omega) hshows hlength
    change ∃ buf', flushed remaining totalConsumed { w with buf := buf } (flushPlan remaining w)
      (SimdCursorStepper.emitRecords acc { w with buf := buf } (flushPlan remaining w).1) = _
    rw [halike]
    obtain ⟨left, state, err | place⟩ :=
      SimdCursorStepper.emitRecords body.acc w (flushPlan remaining w).1
    · exact ⟨buf', rfl⟩
    · exact ⟨buf', rfl⟩

/-- A flush, and where both runs stand behind it. -/
theorem Queued.flush_both (h : body.Queued origin lo upTo rest w)
    (hquote : body.config.quote = none) (hverdicts : body.acc.SameVerdicts acc)
    (hctx : body.StepAt origin ctx) (hupTo : upTo ≤ origin + ctx.scanEnd)
    (hbuf : w.buf.length = ctx.buf.length) (hshows : body.Shows origin lo buf)
    (hlength : buf.length = w.buf.length) :
    ∃ buf', SimdCursorStepper.flush acc ctx.remainingInChunk ctx.totalConsumed
        { w with buf := buf } =
      ({ (SimdCursorStepper.flush body.acc ctx.remainingInChunk ctx.totalConsumed w).1 with
          buf := buf' },
        (SimdCursorStepper.flush body.acc ctx.remainingInChunk ctx.totalConsumed w).2) ∧
      ∀ w', SimdCursorStepper.flush body.acc ctx.remainingInChunk ctx.totalConsumed w =
          (w', .ok none) →
        ∃ lo' rest', body.Queued origin lo' upTo rest' w' ∧ SameQueue w w' ∧
          body.Shows origin lo' buf' ∧ buf'.length = w'.buf.length := by
  have hview := hctx.view
  obtain ⟨buf', halike⟩ := h.flush_alike hquote hverdicts (by omega) hshows hlength
    ctx.remainingInChunk ctx.totalConsumed
  refine ⟨buf', halike, fun w' hflushed => ?_⟩
  have hleft := h.flush hquote hctx hupTo hbuf
  have hright := (h.withAcc hverdicts hshows).flush hquote (hctx.withAcc hverdicts) hupTo
    (hlength.trans hbuf)
  rw [hflushed] at hleft
  rw [show (body.withAcc hverdicts).acc = acc from rfl, halike, hflushed] at hright
  obtain ⟨lo', rest', -, hqueued, hqueue⟩ := hleft
  obtain ⟨lo'', rest'', -, hqueued', hqueue'⟩ := hright
  have hstart := hqueued.start
  have hstart' := hqueued'.start
  simp only at hstart'
  have hthere := hqueued'.shows.ofAcc
  rw [show lo'' = lo' by omega] at hthere
  refine ⟨lo', rest', hqueued, hqueue, hthere, ?_⟩
  have hsize := hqueue'.length
  rw [hqueue.length]
  exact hsize.trans hlength

/-! ## Vector by vector -/

theorem cursor_publish_alike {st : SimdCursorStepper} {view view' : Bytes}
    (hsame : SameOn (fun i => st.cellStart ≤ i) view view') (held : HeldVector) (next : Bool)
    (totalConsumed : ℕ) :
    SimdCursorStepper.publish st held next view' totalConsumed =
      SimdCursorStepper.publish st held next view totalConsumed := by
  rw [SimdCursorStepper.publish, SimdCursorStepper.publish]
  simp only [SimdCursorStepper.arityError, locateBadRecord_alike hsame]

theorem publishHeld_alike {st : SimdCursorStepper} {view view' : Bytes}
    (hsame : SameOn (fun i => st.cellStart ≤ i) view view') (next : Bool) (totalConsumed : ℕ) :
    publishHeld st next view' totalConsumed = publishHeld st next view totalConsumed := by
  rw [publishHeld, publishHeld]
  cases st.pending with
  | none => rfl
  | some held => exact @cursor_publish_alike { st with pending := none } _ _ hsame held next _

/-- What two runs have in common between two vectors. -/
structure TrailsAlike (body : Body σ) (head origin j lo : ℕ) (rest : List Cell)
    (w : Flush SimdCursorStepper σ) (buf : Bytes) : Prop where
  trails : body.Trails head origin j lo rest w
  shows : body.Shows origin lo buf
  length : buf.length = w.buf.length

theorem TrailsAlike.sameOn (h : body.TrailsAlike head origin j lo rest w buf) :
    SameOn (fun i => w.st.cellStart ≤ i) w.buf buf := by
  have hstart := h.trails.queued.start
  exact (h.trails.queued.shows.sameOn h.shows h.length).mono fun i hi => by omega

theorem cursor_vectorLoop_succ (acc : Accumulator σ) (ctx : StepCtx) (fuel cursor : ℕ)
    (w : Flush SimdCursorStepper σ) :
    SimdCursorStepper.vectorLoop acc ctx (fuel + 1) cursor w =
      if cursor + vectorBytes ≤ ctx.scanEnd then
        let next := w.st.scanVector (slice w.buf cursor vectorBytes) cursor
        match publishHeld w.st (lsb next.term) (w.buf.take ctx.scanEnd) ctx.totalConsumed with
        | .error err => (cursor + vectorBytes, w, some (.error err))
        | .ok st =>
            let w := { w with st := { st with pending := some next } }
            if st.bounds.length - w.head < emitBatchFields then
              SimdCursorStepper.vectorLoop acc ctx fuel (cursor + vectorBytes) w
            else
              match SimdCursorStepper.flush acc ctx.remainingInChunk ctx.totalConsumed w with
              | (w, .error err) => (cursor + vectorBytes, w, some (.error err))
              | (w, .ok (some end_)) => (cursor + vectorBytes, w, some (.done end_))
              | (w, .ok none) =>
                  SimdCursorStepper.vectorLoop acc ctx fuel (cursor + vectorBytes)
                    (if compactThreshold ≤ w.head then
                      { w with
                        st := { w.st with bounds := w.st.bounds.drop w.head }
                        head := 0 }
                    else w)
      else (cursor, w, none) := by
  rw [SimdCursorStepper.vectorLoop]
  split_ifs
  · simp only [publishHeld]
    cases w.st.pending <;> rfl
  · rfl

theorem cursor_vectorLoop_alike (hquote : body.config.quote = none)
    (hverdicts : body.acc.SameVerdicts acc) (hctx : body.StepAt origin ctx)
    (other : Bytes) (fuel : ℕ) (h : body.TrailsAlike head origin j lo rest w buf)
    (hj : 64 * j = head + origin + cursor) (hbuf : w.buf.length = ctx.buf.length)
    (hcursor : cursor ≤ ctx.scanEnd) :
    ∃ buf', SimdCursorStepper.vectorLoop acc { ctx with buf := other } fuel cursor
        { w with buf := buf } =
      ((SimdCursorStepper.vectorLoop body.acc ctx fuel cursor w).1,
        { (SimdCursorStepper.vectorLoop body.acc ctx fuel cursor w).2.1 with buf := buf' },
        (SimdCursorStepper.vectorLoop body.acc ctx fuel cursor w).2.2) ∧
      ∀ cursor' w', SimdCursorStepper.vectorLoop body.acc ctx fuel cursor w = (cursor', w', none) →
        ∃ j' lo' rest', body.TrailsAlike head origin j' lo' rest' w' buf' ∧
          64 * j' = head + origin + cursor' ∧ cursor' ≤ ctx.scanEnd ∧
          w'.buf.length = ctx.buf.length := by
  induction fuel generalizing cursor j lo rest w buf with
  | zero =>
      refine ⟨buf, rfl, fun cursor' w' hdone => ?_⟩
      cases hdone
      exact ⟨j, lo, rest, h, hj, hcursor, hbuf⟩
  | succ fuel ih =>
      have hview := hctx.view
      have htrails := h.trails
      have hshows := htrails.queued.shows
      have hstart := htrails.queued.start
      have hlo := htrails.queued.lo_le
      have hfrontier : frontier head (j + 1) = origin + cursor := by
        rw [frontier]
        omega
      rw [frontier] at hlo
      have hsame := h.sameOn
      have hread : slice buf cursor 64 = slice w.buf cursor 64 :=
        hsame.slice fun i hi _ => show w.st.cellStart ≤ i by omega
      rw [cursor_vectorLoop_succ, cursor_vectorLoop_succ, vectorBytes]
      simp only [hread, publishHeld_alike (hsame.take ctx.scanEnd)]
      split_ifs with hroom
      · have hadvance := htrails.advance hquote (reads_slice hj hshows (by omega) (by omega))
          (show (cursor : ℤ) = 64 * (j : ℤ) - head - origin by omega) (hshows.take ctx.scanEnd)
          (Or.inl (by rw [hfrontier, List.length_take]; omega))
        rw [← hctx.total] at hadvance
        generalize publishHeld w.st _ _ _ = published at hadvance ⊢
        cases published with
        | error err => exact ⟨buf, rfl, fun _ _ hdone => by cases hdone⟩
        | ok st =>
            obtain ⟨htrails', -⟩ := hadvance
            have hlater : body.TrailsAlike head origin (j + 1) lo rest { w with st := { st with
                pending := some (w.st.scanVector (slice w.buf cursor 64) cursor) } } buf :=
              ⟨htrails', h.shows, h.length⟩
            simp only
            split_ifs with hfew
            · exact ih hlater (by omega) hbuf hroom
            · obtain ⟨buf', halike, hmore⟩ := htrails'.queued.flush_both hquote hverdicts hctx
                (by rw [hfrontier]; omega) hbuf h.shows h.length
              simp only at halike
              rw [halike]
              generalize SimdCursorStepper.flush body.acc ctx.remainingInChunk ctx.totalConsumed
                { w with st := { st with
                  pending := some (w.st.scanVector (slice w.buf cursor 64) cursor) } } = flushed
                at hmore
              obtain ⟨w', err | _ | end_⟩ := flushed
              · exact ⟨buf', rfl, fun _ _ hdone => by cases hdone⟩
              · obtain ⟨lo', rest', hqueued, hqueue, hshows', hlength'⟩ := hmore w' rfl
                obtain ⟨hsize, hpending⟩ := hqueue.sameSize
                have htrails'' : body.Trails head origin (j + 1) lo' rest' w' :=
                  ⟨hqueued, hpending.trans htrails'.pending⟩
                have hbuf' : w'.buf.length = ctx.buf.length := hsize.length.trans hbuf
                simp only
                split_ifs with hcompact
                · exact ih ⟨⟨hqueued.dropPrefix _, htrails''.pending⟩, hshows', hlength'⟩ (by omega)
                    hbuf' hroom
                · exact ih ⟨htrails'', hshows', hlength'⟩ (by omega) hbuf' hroom
              · exact ⟨buf', rfl, fun _ _ hdone => by cases hdone⟩
      · refine ⟨buf, rfl, fun cursor' w' hdone => ?_⟩
        cases hdone
        exact ⟨j, lo, rest, h, hj, hcursor, hbuf⟩

/-- The prologue reads the text's first bytes, before anything is handed out. -/
theorem cursor_prologue_alike {st : SimdCursorStepper} {state : σ}
    (h : body.Trails head origin j lo rest ⟨st, ctx.buf, 0, 0, state⟩)
    (haligned : st.needsAlignPrologue = true → head = 0 ∧ origin = 0 ∧ j = 0)
    (hshows : body.Shows origin lo buf) (hlength : buf.length = ctx.buf.length) :
    SimdCursorStepper.prologue st { ctx with buf := buf } = SimdCursorStepper.prologue st ctx := by
  rw [SimdCursorStepper.prologue, SimdCursorStepper.prologue]
  by_cases hneeds : st.needsAlignPrologue = true ∧ ctx.scanStart = 0 ∧ st.pending = none
  · obtain ⟨rfl, rfl, rfl⟩ := haligned hneeds.1
    have hlo : lo ≤ 0 := h.queued.lo_le
    have hsame := h.queued.shows.sameOn hshows hlength
    have hbuf : buf = ctx.buf := List.ext_getElem? fun i => hsame.values i (by omega)
    rw [hbuf]
  · rw [if_neg hneeds, if_neg hneeds]

/-- A step comes to the same, but for the bytes it leaves behind. -/
theorem cursor_step_alike (hquote : body.config.quote = none)
    (hverdicts : body.acc.SameVerdicts acc) (hctx : body.StepAt origin ctx)
    {st : SimdCursorStepper} {state : σ} {scanned : ℕ}
    (h : body.Waits origin lo ctx.scanStart scanned st ctx.buf state)
    (hscanned : scanned < ctx.scanEnd) (hshows : body.Shows origin lo buf)
    (hlength : buf.length = ctx.buf.length) :
    ∃ buf', SimdCursorStepper.step acc st { ctx with buf := buf } state =
      { SimdCursorStepper.step body.acc st ctx state with buf := buf' } := by
  obtain ⟨head, j, rest, htrails, hhead, hj, haligned⟩ := h.trails
  have hstart := h.resume_le
  obtain ⟨head', j', hprologue, -, hj', hle, -⟩ := htrails.prologue hquote hctx hhead hj
    (by omega) haligned
  have halike := cursor_prologue_alike htrails haligned hshows hlength
  rw [SimdCursorStepper.step, SimdCursorStepper.step]
  simp only
  rw [halike]
  generalize SimdCursorStepper.prologue st ctx = entered at hprologue hj' hle
  obtain ⟨st', cursor⟩ := entered
  simp only at hprologue hj' hle ⊢
  obtain ⟨buf', hlooped, hmore⟩ := cursor_vectorLoop_alike hquote hverdicts hctx buf
    (ctx.scanEnd - cursor) ⟨hprologue, hshows, hlength⟩ hj' rfl hle
  simp only at hlooped
  rw [hlooped]
  generalize SimdCursorStepper.vectorLoop body.acc ctx (ctx.scanEnd - cursor) cursor
    ⟨st', ctx.buf, 0, 0, state⟩ = looped at hmore
  obtain ⟨cursor', w, _ | result⟩ := looped
  · obtain ⟨j'', lo', rest', hthere, hj'', hcursor, hbuf⟩ := hmore cursor' w rfl
    simp only
    split_ifs with hready
    · obtain ⟨buf'', hflush, -⟩ := hthere.trails.queued.flush_both hquote hverdicts hctx
        (by rw [frontier]; omega) hbuf hthere.shows hthere.length
      rw [hflush]
      obtain ⟨w', err | _ | end_⟩ :=
        SimdCursorStepper.flush body.acc ctx.remainingInChunk ctx.totalConsumed w
      · exact ⟨buf'', rfl⟩
      · exact ⟨buf'', rfl⟩
      · exact ⟨buf'', rfl⟩
    · exact ⟨buf', rfl⟩
  · exact ⟨buf', rfl⟩

end Body

end Csveee.Simd
