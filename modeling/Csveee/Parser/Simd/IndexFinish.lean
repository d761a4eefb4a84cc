import Csveee.Parser.Simd.IndexSpec

/-!
# The index stepper at the end of the text

The bytes behind the last whole vector are fed as a padded one, and the vector that is
still held back is drained.  Out of quotes the offsets are then those of all cells, and the
records left are handed out one at a time; in quotes the last begin tells where the open
field starts.
-/

namespace Csveee.Simd

open Positions Slice

variable {σ : Type}

namespace Body

variable {body : Body σ} {origin lo upTo head j : ℕ} {rest : List Cell}
  {w : Flush SimdIndexStepper σ} {ctx : StepCtx}

/-- Out of quotes all is extracted; in quotes all but the removals. -/
structure Drained (body : Body σ) (origin lo : ℕ) (rest : List Cell)
    (w : Flush SimdIndexStepper σ) : Prop where
  inQuotes : w.st.scanner.inQuotes = !closed body.config body.ended
  extracted : ∃ upTo rOffs, body.ended.length ≤ upTo ∧
    body.Extracted origin lo upTo rest { w with st := { w.st with rOffs := rOffs } } ∧
      (closed body.config body.ended = true → rOffs = w.st.rOffs)

theorem publish_removals (st : SimdIndexStepper) (out : VectorOutput) (r : Mask) (base : ℤ)
    (view : Bytes) (totalConsumed : ℕ) :
    SimdIndexStepper.publish st (some { out with r := r }) base view totalConsumed =
      (SimdIndexStepper.publish st (some out) base view totalConsumed).map fun st' =>
        { st' with rOffs := extendOffsets st.rOffs r base } := by
  rw [SimdIndexStepper.publish, SimdIndexStepper.publish]
  simp only
  cases st.fieldCounter.verify out.dStruct out.term with
  | mk counter accepted => cases accepted <;> rfl

/-- The parity of the quotes, past the padded text. -/
theorem lag_inQuotes_padded (hj : head + body.ended.length ≤ 64 * j) :
    lag (Marks.of (scannerConfigOf body.config) (body.padding head ++ body.ended)).inQuotes
      (64 * j) = !closed body.config body.ended := by
  have hlength : (body.padding head ++ body.ended).length = head + body.ended.length := by
    rw [List.length_append, length_padding]
  calc lag (Marks.of (scannerConfigOf body.config) (body.padding head ++ body.ended)).inQuotes
        (64 * j)
      = lag (delayed head body.marks.inQuotes) (head + body.ended.length) := by
        rw [Scanner.lag_inQuotes_past (by omega), Scanner.inQuotes_padded neutral_padding,
          length_padding, hlength]
        rfl
    _ = lag body.marks.inQuotes body.ended.length := lag_delayed _ _ _
    _ = !closed body.config body.ended := by
        rw [closed, Bool.not_not]
        rfl

theorem Tracks.drained (h : body.Tracks head origin (j + 1) lo rest w)
    (hj : head + body.ended.length ≤ 64 * (j + 1)) {base : ℤ}
    (hbase : base = 64 * (j : ℤ) - head - origin) {view : Bytes}
    (hshows : body.Shows origin lo view) (hseen : origin + view.length = body.text.length) :
    match SimdIndexStepper.publish { w.st with scanner := w.st.scanner.finalize.1 }
        w.st.scanner.finalize.2 base view (body.base + origin) with
      | .error err => body.Blames ⟨origin, view, w.st.recordBufStart⟩ w.state err
      | .ok st => body.Drained origin lo rest { w with st := st } := by
  have hextracted : body.Extracted origin lo (64 * j - head) rest w := h.extracted
  have hpublish := hextracted.publish w.st.scanner.finalize.1 hbase hshows (Or.inr hseen)
  have hinQuotes : w.st.scanner.finalize.1.inQuotes = !closed body.config body.ended := by
    rw [Scanner.inQuotes_finalize, h.scanner]
    simp only [scannerAt, Marks.scannerAt]
    exact lag_inQuotes_padded hj
  have hlength : (body.padding head ++ body.ended).length = head + body.ended.length := by
    rw [List.length_append, length_padding]
  obtain ⟨hdelim, hterm, hquote⟩ := @Marks.of_past (scannerConfigOf body.config)
    (body.padding head ++ body.ended) (64 * (j + 1)) (by omega)
  have hupTo : body.ended.length ≤ 64 * (j + 1) - head := by omega
  by_cases hclosed : closed body.config body.ended = true
  · have hout : w.st.scanner.finalize.2 =
        some (Scanner.rebased body.marks body.config.doubledQuotes head j) := by
      have hcarry := @lag_inQuotes_padded _ body head (j + 1) hj
      rw [hclosed, Bool.not_true] at hcarry
      rw [h.scanner, scannerAt, Scanner.finalize_scannerAt ⟨hdelim, hterm, hquote, hcarry⟩,
        ← output_eq]
      rfl
    rw [hout]
    split at hpublish
    · next hpublished =>
        rw [hpublished]
        exact hpublish
    · next st hpublished =>
        rw [hpublished]
        obtain ⟨hthere, hscanner, -⟩ := hpublish
        refine ⟨?_, _, st.rOffs, hupTo, hthere, fun _ => rfl⟩
        simp only
        rw [hscanner, hinQuotes]
  · obtain ⟨r, hout⟩ : ∃ r, w.st.scanner.finalize.2 = some
        { Scanner.rebased body.marks body.config.doubledQuotes head j with r := r } := by
      obtain ⟨r, hr⟩ := @Scanner.finalize_scannerAt_open (scannerConfigOf body.config) _ j hdelim
        hterm
      refine ⟨r, ?_⟩
      rw [h.scanner, scannerAt, hr, ← output_eq]
      rfl
    rw [hout, publish_removals]
    split at hpublish
    · next hpublished =>
        rw [hpublished]
        exact hpublish
    · next st hpublished =>
        rw [hpublished]
        obtain ⟨hthere, hscanner, -⟩ := hpublish
        refine ⟨?_, _, st.rOffs, hupTo, hthere, fun hfalse => absurd hfalse hclosed⟩
        simp only
        rw [hscanner, hinQuotes]

theorem drain_spec {st : SimdIndexStepper} {state : σ} (hend : body.AtEnd origin lo ctx)
    (h : body.Tracks head origin j lo rest ⟨st, ctx.buf, 0, 0, state⟩)
    (hj : 64 * j = head + origin + ctx.scanStart) (hstart : ctx.scanStart ≤ ctx.scanEnd)
    (hnear : ctx.scanEnd < ctx.scanStart + 64) :
    match st.drain ctx with
      | .error err =>
          body.Blames ⟨origin, ctx.buf.take ctx.scanEnd, st.recordBufStart⟩ state err
      | .ok st' => body.Drained origin lo rest ⟨st', ctx.buf, 0, 0, state⟩ := by
  have htext := hend.text_end
  have horigin := hend.shows.origin_le
  have hlt := hend.lo_lt
  have hlength := body.length_ended
  have hlo := h.extracted.lo_le
  rw [frontier] at hlo
  have hshows := hend.shows.take ctx.scanEnd
  have hseen : origin + (ctx.buf.take ctx.scanEnd).length = body.text.length := by
    have hall := hend.all
    rw [List.length_take]
    omega
  have hconfig : st.scannerConfig = scannerConfigOf body.config :=
    h.extracted.waiting.scannerConfig
  have hreads := hend.reads_tail (show lo ≤ origin + ctx.scanStart by omega) hstart hnear hj
  have htail := hend.tail_eq (show lo ≤ origin + ctx.scanStart by omega) hstart
  have hisTerm : (scannerConfigOf body.config).isTerm = body.config.isTerminator := rfl
  rw [SimdIndexStepper.drain]
  simp only [hconfig, hisTerm, hend.step.total]
  generalize (decide (0 < ctx.scanEnd) &&
    !(ctx.buf[ctx.scanEnd - 1]?.any body.config.isTerminator)) = needsVirtualTerm at hreads htail
  by_cases hfeed : 0 < ctx.scanEnd - ctx.scanStart ∨ needsVirtualTerm = true
  · have hpublish := h.publish hreads
      (show (ctx.scanStart : ℤ) - vectorBytes = 64 * ((j : ℤ) - 1) - head - origin by
        rw [vectorBytes]
        omega) hshows (Or.inr hseen)
    simp only [if_pos hfeed]
    simp only [hconfig] at hpublish
    split at hpublish
    · next hpublished =>
        rw [hpublished]
        exact hpublish
    · next st₁ hpublished =>
        have hsame : st₁.recordBufStart = st.recordBufStart := by
          have hstart := hpublish.1.extracted.waiting.start
          have hstart' := h.extracted.waiting.start
          simp only at hstart hstart'
          omega
        rw [hpublished, ← hsame]
        exact hpublish.1.drained (by omega)
          (show ((ctx.scanStart + vectorBytes : ℕ) : ℤ) - vectorBytes =
              64 * (j : ℤ) - head - origin by
            rw [vectorBytes]
            omega) hshows hseen
  · -- the text ends with a vector, and on a terminator
    rw [not_or, Nat.not_lt, Nat.le_zero_eq, Bool.not_eq_true] at hfeed
    obtain ⟨hnone, rfl⟩ := hfeed
    have hwhole : body.ended.length = body.text.length := by
      have hdrop := congrArg List.length htail
      rw [if_neg Bool.false_ne_true, List.length_drop, hnone, slice_zero] at hdrop
      change 0 = _ at hdrop
      omega
    obtain ⟨j, rfl⟩ : ∃ k, j = k + 1 := ⟨j - 1, by omega⟩
    rw [if_neg (by rw [hnone]; decide)]
    exact h.drained (by omega)
      (show (ctx.scanStart : ℤ) - vectorBytes = 64 * (j : ℤ) - head - origin by
        rw [vectorBytes]
        omega) hshows hseen

/-- The position that is reported is where the field in flight starts. -/
theorem unclosedQuoteAt_eq (hend : body.AtEnd origin lo ctx) {st : SimdIndexStepper} {state : σ}
    (h : body.Extracted origin lo upTo rest ⟨st, ctx.buf, 0, 0, state⟩)
    (hupTo : body.ended.length ≤ upTo) (hopen : closed body.config body.ended = false) :
    origin + st.unclosedQuoteAt ctx = Marks.behind lo rest := by
  have hw := h.waiting
  have horigin := hend.shows.origin_le
  have htext := hend.text_end
  have hall := hend.all
  have hlength := body.length_ended
  have hchain : body.marks.Chain lo (rest ++ []) := by
    rw [List.append_nil]
    exact hw.handed.chain
  have hnil := hchain.append
  have hlo := hchain.le_behind
  have hcells := hchain.begins_append body.proper fun cell hcell => show cell.bound < upTo by
    have hbound := hchain.bound_lt body.proper (List.mem_append_left [] hcell)
    omega
  have hbegins : st.bOffs = (body.marks.begins lo upTo).map fun i => i - origin := h.begins
  have hbuf : ∀ i, i < body.text.length → lo ≤ i + 1 → origin ≤ i →
      ctx.buf[i - origin]? = body.text[i]? := by
    intro i hi hlo' horigin'
    rcases Nat.lt_or_ge i lo with hlt | hge
    · have hedge := hend.shows.edge (by omega) (by omega)
      rwa [show lo - 1 = i by omega] at hedge
    · exact hend.shows.view i hge (by omega)
  generalize Marks.behind lo rest = place at hnil hlo hcells
  have houtside := hnil.starts.outside
  have hinside : lag body.marks.inQuotes body.ended.length = true := by
    rw [closed, Bool.not_eq_false'] at hopen
    exact hopen
  have hlt : place < body.ended.length := by
    have hle := hnil.starts.le body.proper
    rcases Nat.lt_or_eq_of_le hle with hlt | heq
    · exact hlt
    · rw [heq, hinside] at houtside
      cases houtside
  -- the text ends on a terminator, so the open field is not empty
  have hquote : body.marks.quote place = true → place + 1 < body.ended.length := by
    intro hquote
    have hterm := @term_last body.config body.text (List.ne_nil_of_length_pos (by
      change 0 < body.ended.length
      omega))
    change body.marks.term (body.ended.length - 1) = true at hterm
    by_contra hge
    have hnot := (body.proper.quote _ hquote).2
    rw [show place = body.ended.length - 1 by omega, hterm] at hnot
    cases hnot
  have hmark : ∀ i, i < body.text.length →
      body.marks.quote i = body.text[i]?.any (isQuote body.config) := by
    intro i hi
    rw [marks, marksOf_quote, ended, getElem?_terminated hi]
  have hlast : st.bOffs.getLast? = some ((if place ≠ 0 ∧ body.marks.quote place = true then
      place + 1 else place) - origin) := by
    rw [hbegins, hcells, hnil.starts.begins_eq body.proper hnil.stops_nil (by omega)
      fun hq => by have hthis := hquote hq; omega, List.map_append, List.map_singleton,
      List.getLast?_append_of_ne_nil _ (List.cons_ne_nil _ _)]
    rfl
  have hconfig : st.scannerConfig = scannerConfigOf body.config := hw.scannerConfig
  rw [SimdIndexStepper.unclosedQuoteAt, hlast, hconfig, Option.getD_some]
  by_cases hopens : place ≠ 0 ∧ body.marks.quote place = true
  · have hthis := hquote hopens.2
    have hbyte := hbuf place (by omega) (by omega) (by omega)
    have hq := hopens.2
    rw [hmark place (by omega), Option.any_eq_true] at hq
    obtain ⟨b, hb, hq⟩ := hq
    have hthere : ctx.buf[place + 1 - origin - 1]? = (scannerConfigOf body.config).quote := by
      rw [show place + 1 - origin - 1 = place - origin by omega, hbyte, hb]
      exact (eq_of_beq hq).symm
    rw [if_pos hopens, if_pos ⟨by omega, by omega, hthere⟩]
    omega
  · rw [if_neg hopens, if_neg ?_]
    · omega
    · rintro ⟨hpos, -, hq⟩
      have hfront := hnil.starts.not_quote body.proper
      obtain ⟨k, rfl⟩ : ∃ k, place = k + 1 := ⟨place - 1, by omega⟩
      have hbyte := hbuf k (by omega) hlo (by omega)
      rw [lag_succ, hmark k (by omega)] at hfront
      rw [show k + 1 - origin - 1 = k - origin by omega, hbyte,
        List.getElem?_eq_getElem (by omega)] at hq
      rw [List.getElem?_eq_getElem (by omega), Option.any_some, isQuote] at hfront
      exact beq_eq_false_iff_ne.mp hfront hq.symm

theorem finished_all (hchain : body.marks.Chain lo rest) (hupTo : body.ended.length ≤ upTo) :
    body.finished upTo rest = rest := by
  rw [finished, List.takeWhile_eq_self_iff]
  intro cell hcell
  obtain ⟨hat, -⟩ := hchain.cellAt hcell
  have hbound := hchain.bound_lt body.proper hcell
  have hfin := (hat.fin_le body.proper).1
  have hstop := hat.stop_le_bound
  exact decide_eq_true (by omega)

theorem lt_of_quote {i : ℕ} (hquote : body.marks.quote i = true) : i < body.text.length := by
  have hlength := body.length_ended
  have hlt : i < body.ended.length := by
    by_contra hge
    rw [(body.proper.past i (by omega)).2.2] at hquote
    cases hquote
  have hterm := @term_last body.config body.text (List.ne_nil_of_length_pos (by
    change 0 < body.ended.length
    omega))
  change body.marks.term (body.ended.length - 1) = true at hterm
  by_contra hge
  have hnot := (body.proper.quote i hquote).2
  rw [show i = body.ended.length - 1 by omega, hterm] at hnot
  cases hnot

/-- The offsets of the padding go, and no other. -/
theorem Waiting.trimmed {st : SimdIndexStepper} {buf : Bytes} {state : σ} {scanEnd : ℕ}
    (h : body.Waiting origin lo upTo rest ⟨st, buf, 0, 0, state⟩)
    (htext : origin + scanEnd = body.text.length) :
    body.Waiting origin lo upTo rest ⟨{ st with
      bOffs := st.bOffs.filter fun x => decide (x ≤ scanEnd)
      eOffs := st.eOffs.filter fun x => decide (x ≤ scanEnd)
      rOffs := st.rOffs.filter fun x => decide (x < scanEnd) }, buf, 0, 0, state⟩ := by
  have hlength := body.length_ended
  have horigin := h.shows.origin_le
  have hcell : ∀ cell ∈ body.finished upTo rest, body.beginAt origin cell ≤ scanEnd ∧
      body.finAt origin cell ≤ scanEnd := by
    intro cell hcell
    have hmem : cell ∈ rest := (List.takeWhile_sublist _).mem hcell
    obtain ⟨hat, -⟩ := h.handed.chain.cellAt hmem
    have hbound := h.handed.chain.bound_lt body.proper hmem
    have hstop := hat.stop_le_bound
    have hfin := (hat.fin_le body.proper).1
    have hbegin := (hat.begin_le body.proper).2
    rw [beginAt, finAt]
    omega
  have hends : st.eOffs = (body.finished upTo rest).map (body.finAt origin) := h.ends
  have hremovals : st.rOffs = body.removals origin lo upTo := h.removals
  have hkeepEnds : st.eOffs.filter (fun x => decide (x ≤ scanEnd)) = st.eOffs := by
    rw [List.filter_eq_self, hends]
    intro x hx
    obtain ⟨cell, hmem, rfl⟩ := List.mem_map.mp hx
    exact decide_eq_true (hcell cell hmem).2
  have hkeepRemovals : st.rOffs.filter (fun x => decide (x < scanEnd)) = st.rOffs := by
    rw [List.filter_eq_self, hremovals]
    intro x hx
    obtain ⟨i, hi, rfl⟩ := List.mem_map.mp hx
    obtain ⟨hrange, hr⟩ := mem_positions.mp hi
    rw [Marks.r, Bool.and_eq_true, Bool.and_eq_true, Bool.and_eq_true] at hr
    have hlt := lt_of_quote hr.1.1.1
    exact decide_eq_true (by omega)
  rw [hkeepEnds, hkeepRemovals]
  obtain ⟨more, hmore⟩ := h.begins
  have hbegins : st.bOffs = (body.finished upTo rest).map (body.beginAt origin) ++ more := hmore
  refine ⟨h.scannerConfig, h.count, h.start, h.shows, h.handed,
    ⟨⟨Nat.zero_le _, Nat.zero_le _⟩, Nat.zero_le _, fun _ => rfl⟩,
    ⟨more.filter fun x => decide (x ≤ scanEnd), ?_⟩, h.ends, h.removals⟩
  change st.bOffs.filter _ = _
  rw [hbegins, List.filter_append, List.filter_eq_self.mpr]
  intro x hx
  obtain ⟨cell, hmem, rfl⟩ := List.mem_map.mp hx
  exact decide_eq_true (hcell cell hmem).1

/-- The walk over the run of a record, to the end of the text. -/
theorem Shows.recordEnd_eq {buf : Bytes} (h : body.Shows origin lo buf) {cell : Cell}
    (hat : body.marks.CellAt cell) (hlo : lo ≤ cell.lo) (hlast : cell.last = true)
    (hbound : cell.bound < body.ended.length) {limit : ℕ} (hlimit : limit ≤ buf.length)
    (htext : origin + limit = body.text.length) :
    cell.stop - origin + runLength body.config.isTerminator buf (cell.stop - origin + 1) limit =
      cell.bound - origin := by
  have horigin := h.origin_le
  have hcell := hat.lo_le
  have hlength := body.length_ended
  rcases Nat.lt_or_ge cell.stop body.text.length with hin | hout
  · rw [h.runLength_run hat hlo hlast (by omega) (by omega)]
    -- a terminator spliced in belongs to no run
    have hnear : cell.bound < body.text.length := by
      by_contra hfar
      obtain ⟨hnot, -⟩ := @term_of_spliced body.config body.text (by
        change body.ended.length = _
        omega)
      have hrun := (hat.term hlast).2.1 (body.text.length - 1) (by omega) (by omega)
      rw [Marks.termOoq, Bool.and_eq_true] at hrun
      change body.marks.term _ = false at hnot
      rw [hnot] at hrun
      cases hrun.1
    omega
  · have hspliced := last_of_spliced body.distinct hat hbound hout
    rw [runLength_of_le (by omega), ← hspliced.2, Nat.add_zero]

/-- Fewer cells than a record has are none. -/
theorem rest_eq_nil (hchain : body.marks.Chain lo rest)
    (hclosed : closed body.config body.ended = true) {phase : ℕ}
    (hphase : phaseAfter body.n 0 (rest.map Cell.last) = some phase)
    (hshort : rest.length < body.n) : rest = [] := by
  rcases List.eq_nil_or_concat rest with hnil | ⟨front, cell, hrest⟩
  · exact hnil
  · rw [List.concat_eq_append] at hrest
    have hlast := last_of_closed hchain hclosed (show rest.getLast? = some cell by
      rw [hrest, List.getLast?_append_of_ne_nil _ (List.cons_ne_nil _ _)]
      rfl)
    have hlong : front.length + 1 = rest.length := by
      rw [hrest, List.length_append, List.length_singleton]
    have hkind := ((phaseAfter_eq_some (by omega) _ _).mp hphase).1 front.length cell.last (by
      rw [hrest, List.map_append, List.getElem?_append_right (by rw [List.length_map]),
        List.length_map, Nat.sub_self]
      rfl)
    rw [Nat.add_zero, Nat.mod_eq_of_lt (by omega)] at hkind
    have hfull := hkind.mp hlast
    omega

/-- The run behind the next record at hand: where it starts, and its last byte. -/
def nextRun (scanEnd : ℕ) (w : Flush SimdIndexStepper σ) : ℕ × ℕ :=
  let isTerm := w.st.scannerConfig.isTerm
  let lastE := w.st.eOffs.getD (w.head + w.st.fieldCounter.n - 1) 0
  let runStart := lastE + runLength (fun c => !isTerm c) w.buf lastE scanEnd
  (runStart, runStart + runLength isTerm w.buf (runStart + 1) scanEnd)

theorem finalizeLoop_succ (acc : Accumulator σ) (ctx : StepCtx) (fuel : ℕ)
    (w : Flush SimdIndexStepper σ) :
    SimdIndexStepper.finalizeLoop acc ctx (fuel + 1) w =
      if w.st.fieldCounter.n ≤ w.st.eOffs.length - w.head then
        match SimdIndexStepper.emitPending acc ctx.totalConsumed ctx.remainingInChunk 1
            (decide (ctx.remainingInChunk < (nextRun ctx.scanEnd w).2 + 1))
            ((nextRun ctx.scanEnd w).1, some (nextRun ctx.scanEnd w).2) w with
        | (w, .error err) => (w.state, .error err)
        | (w, .ok (some _)) => (w.state, .ok w.st.lastRecordEnd)
        | (w, .ok none) => SimdIndexStepper.finalizeLoop acc ctx fuel w
      else (w.state, .ok w.st.lastRecordEnd) := rfl

/-- The record next to be handed out at the end of the text, if there is one. -/
theorem Waiting.handNext (hctx : body.StepAt origin ctx)
    (htext : origin + ctx.scanEnd = body.text.length) (hupTo : body.ended.length ≤ upTo)
    {phase : ℕ} (h : body.Waiting origin lo upTo rest w)
    (hphase : phaseAfter body.n 0 (rest.map Cell.last) = some phase)
    (hbuf : w.buf.length = ctx.buf.length) (hmore : body.n ≤ rest.length) :
    ∃ (row : Row body.n) (more : List Cell), rest = row.cells ++ more ∧
      phaseAfter body.n 0 (more.map Cell.last) = some phase ∧
      body.Handed origin (row.final.bound + 1) upTo more body.n w
        (SimdIndexStepper.emitPending body.acc (body.base + origin) ctx.remainingInChunk 1
          (decide (ctx.remainingInChunk < (nextRun ctx.scanEnd w).2 + 1))
          ((nextRun ctx.scanEnd w).1, some (nextRun ctx.scanEnd w).2) w) := by
  have hn := body.n_pos
  have hview := hctx.view
  have hchain := h.handed.chain
  have hlength := body.length_ended
  have horigin := h.shows.origin_le
  have hrect := (phaseAfter_eq_some (by omega) _ _).mp hphase
  have hisTerm : (scannerConfigOf body.config).isTerm = body.config.isTerminator := rfl
  obtain ⟨rows, more, hrows, hrest⟩ := Row.exists_rows hn.1 1 rest fun i hi => by
    have hlt : i < rest.length := by omega
    refine ⟨rest[i], List.getElem?_eq_getElem hlt, ?_⟩
    have hkind := hrect.1 i rest[i].last (by
      rw [List.getElem?_map, List.getElem?_eq_getElem hlt]
      rfl)
    rwa [Nat.add_zero] at hkind
  obtain ⟨row, rfl⟩ := List.length_eq_one_iff.mp hrows
  have hcells : row.final ∈ rest := by
    rw [hrest, List.flatMap_singleton]
    exact List.mem_append_left _ row.final_mem
  obtain ⟨hat, hlo⟩ := hchain.cellAt hcells
  have hcell := hat.lo_le
  have hstop := hat.stop_le_bound
  have hbound := hchain.bound_lt body.proper hcells
  have hfin := hat.fin_le body.proper
  have hget : (body.finished upTo rest)[body.n - 1]? = some row.final := by
    have hlast := Row.getElem?_flatMap hn.1 [row] more (k := 0) (by simp)
    rw [Nat.zero_add, Nat.one_mul, ← hrest] at hlast
    rw [finished_all hchain hupTo, hlast]
    rfl
  have hend := h.getD_eOffs hget
  have hwalk := h.shows.runLength_field hat hlo
    (show body.marks.fin row.final ≤ origin + ctx.scanEnd by omega) (by omega)
    fun _ => row.term
  rw [htext, show min row.final.stop body.text.length = row.final.stop by omega] at hwalk
  have hrun := h.shows.recordEnd_eq hat hlo row.term hbound (by omega) htext
  rw [← Nat.add_sub_assoc hn.1] at hend
  have hnext : nextRun ctx.scanEnd w =
      (row.final.stop - origin, row.final.bound - origin) := by
    rw [nextRun]
    simp only [h.count, h.scannerConfig, hisTerm, hend, hwalk, hrun]
  rw [hnext]
  have hremaining := hctx.remaining
  have hhanded := (hrest ▸ h : body.Waiting origin lo upTo
    (([] ++ [row]).flatMap Row.cells ++ more) w).handOut (by omega) (by omega) hctx.valid
    hctx.within (by omega) hremaining
    (show RunOf _ _ _ _ (row.final.stop - origin, some (row.final.bound - origin)) from
      ⟨rfl, Or.inl ⟨rfl, by omega⟩⟩) (fun _ hnone => by cases hnone)
    (show decide (ctx.remainingInChunk < row.final.bound - origin + 1) = true ↔ _ by
      rw [decide_eq_true_eq]
      omega)
  rw [List.length_nil, Nat.zero_add, Nat.one_mul] at hhanded
  rw [hrest, List.map_append, Row.phaseAfter_flatMap hn.1] at hphase
  rw [List.flatMap_singleton] at hrest
  exact ⟨row, more, hrest, hphase, hhanded⟩

theorem finalizeLoop_spec (hctx : body.StepAt origin ctx)
    (htext : origin + ctx.scanEnd = body.text.length)
    (hclosed : closed body.config body.ended = true) (hupTo : body.ended.length ≤ upTo)
    (fuel : ℕ) {phase : ℕ} (h : body.Waiting origin lo upTo rest w)
    (hphase : phaseAfter body.n 0 (rest.map Cell.last) = some phase)
    (hbuf : w.buf.length = ctx.buf.length) (hfuel : rest.length < fuel) :
    body.kept (SimdIndexStepper.finalizeLoop body.acc ctx fuel w).1 ∧
      match SimdIndexStepper.finalizeLoop body.acc ctx fuel w with
      | (left, .ok finalEnd) => body.outcome body.chunkEnd = (left, .ok finalEnd) ∧
          (finalEnd = none → w.st.lastRecordEnd = none)
      | (left, .error err) => ∀ walk, body.Blames walk left err := by
  induction fuel generalizing lo rest w phase with
  | zero => cases hfuel
  | succ fuel ih =>
      have hn := body.n_pos
      have hchain := h.handed.chain
      have hcount : w.st.eOffs.length - w.head = rest.length := by
        have hends := congrArg List.length h.ends
        rwa [List.length_drop, List.length_map, finished_all hchain hupTo] at hends
      rw [finalizeLoop_succ, h.count, hcount]
      by_cases hmore : body.n ≤ rest.length
      · obtain ⟨row, more, hrest, hphase', hhanded⟩ :=
          h.handNext hctx htext hupTo hphase hbuf hmore
        rw [if_pos hmore, hctx.total]
        generalize SimdIndexStepper.emitPending body.acc (body.base + origin) ctx.remainingInChunk 1
          _ _ w = result at hhanded
        obtain ⟨w', err | _ | end_⟩ := result
        · exact hhanded
        · obtain ⟨-, hw', hunmoved⟩ := hhanded
          have hshort : more.length < fuel := by
            have hlong := congrArg List.length hrest
            rw [List.length_append, row.length_cells] at hlong
            omega
          obtain ⟨hkept, hresult⟩ := ih hw' hphase' (hunmoved.length.trans hbuf) hshort
          refine ⟨hkept, ?_⟩
          split at hresult
          · next left finalEnd hloop =>
              simp only [hloop]
              exact ⟨hresult.1, fun hnone => hunmoved.last (hresult.2 hnone)⟩
          · next left err hloop =>
              simp only [hloop]
              exact hresult
        · obtain ⟨hkept, hlast, hout⟩ := hhanded
          refine ⟨hkept, ?_⟩
          simp only [hlast]
          exact ⟨hout, fun hnone => by cases hnone⟩
      · rw [if_neg hmore]
        obtain rfl := rest_eq_nil hchain hclosed hphase (by omega)
        exact ⟨h.handed.kept, h.handed.finish hclosed, fun hnone => hnone⟩

/-- Publishing moves nothing. -/
theorem publish_keeps {st st' : SimdIndexStepper} {out : Option VectorOutput} {base : ℤ}
    {view : Bytes} {totalConsumed : ℕ}
    (h : SimdIndexStepper.publish st out base view totalConsumed = .ok st') :
    st'.lastRecordEnd = st.lastRecordEnd ∧ st'.recordBufStart = st.recordBufStart := by
  cases out with
  | none =>
      cases h
      exact ⟨rfl, rfl⟩
  | some out =>
      rw [SimdIndexStepper.publish] at h
      split at h
      · cases h
      · cases h
        exact ⟨rfl, rfl⟩

theorem drain_last {st st' : SimdIndexStepper} (h : st.drain ctx = .ok st') :
    st'.lastRecordEnd = st.lastRecordEnd := by
  rw [SimdIndexStepper.drain] at h
  simp only at h
  split at h
  · cases h
  · rename_i fed st₁ cursor hfed
    have hlast := (publish_keeps h).1
    split_ifs at hfed
    · cases hpublished : SimdIndexStepper.publish { st with scanner := _ } _ _ _ _ with
      | error err =>
          rw [hpublished] at hfed
          cases hfed
      | ok st₂ =>
          rw [hpublished] at hfed
          cases hfed
          have hlast' := (publish_keeps hpublished).1
          exact hlast.trans hlast'
    · cases hfed
      exact hlast

theorem finalize_spec (hctx : body.StepAt origin ctx) {st : SimdIndexStepper} {state : σ}
    (h : body.Rests origin lo ctx.scanStart ctx.scanEnd st ctx.buf state)
    (hall : ctx.scanEnd = ctx.buf.length) (htext : origin + ctx.buf.length = body.text.length) :
    body.kept (SimdIndexStepper.finalize body.acc st ctx state).1 ∧
      match SimdIndexStepper.finalize body.acc st ctx state with
      | (left, .ok finalEnd) =>
          body.outcome body.chunkEnd = (left, .ok (finalEnd.or st.lastRecordEnd))
      | (left, .error err) =>
          body.Blames ⟨origin, ctx.buf.take ctx.scanEnd, st.recordBufStart⟩ left err := by
  obtain ⟨head, j, rest, htracks, hj, -⟩ := h.tracks
  have hstart := h.resume_le
  have hnear := h.near
  have hlo := htracks.extracted.lo_le
  have horigin := htracks.extracted.waiting.shows.origin_le
  have hhanded := htracks.extracted.waiting.handed
  rw [frontier] at hlo
  rw [SimdIndexStepper.finalize]
  by_cases hnone : ctx.scanEnd = 0 ∧ ctx.scanStart = 0
  · rw [if_pos hnone]
    have hlast : (armed st).lastRecordEnd = st.lastRecordEnd := by
      rw [armed]
      split_ifs <;> rfl
    simp only [hlast] at hhanded
    obtain ⟨rfl, hclosed⟩ := hhanded.at_end (by omega)
    refine ⟨hhanded.kept, ?_⟩
    simp only [Option.or_self]
    exact hhanded.finish hclosed
  · rw [if_neg hnone]
    have hfresh : st.needsChunkStartB = false := by
      by_contra htrue
      have hzero := h.fresh (Bool.eq_true_of_not_eq_false htrue)
      exact hnone ⟨hzero, by omega⟩
    rw [armed_of_not hfresh] at htracks hhanded
    have hend : body.AtEnd origin lo ctx :=
      ⟨hctx, htracks.extracted.waiting.shows, hall, by omega, by omega⟩
    have hdrain := drain_spec hend htracks hj hstart hnear
    cases hdrained : st.drain ctx with
    | error err =>
        rw [hdrained] at hdrain
        exact ⟨hhanded.kept, hdrain⟩
    | ok st' =>
        rw [hdrained] at hdrain
        have hlast := drain_last hdrained
        obtain ⟨upTo, rOffs, hupTo, hextracted, hremovals⟩ := hdrain.extracted
        have hchain := hextracted.waiting.handed.chain
        have hphase := hextracted.phase
        rw [kinds_eq hchain, takeWhile_all hchain hupTo] at hphase
        have hquotes : st'.scanner.inQuotes = !closed body.config body.ended := hdrain.inQuotes
        simp only [hquotes]
        cases hclosed : closed body.config body.ended with
        | false =>
            have hplace := unclosedQuoteAt_eq hend hextracted hupTo hclosed
            have hblames := @Blames.unclosed _ body
              ⟨origin, ctx.buf.take ctx.scanEnd, st.recordBufStart⟩ _ _ _ _ _
              hextracted.waiting.handed hclosed hphase
            rw [← hplace, ← Nat.add_assoc, ← hctx.total] at hblames
            exact ⟨hhanded.kept, hblames⟩
        | true =>
            rw [hremovals hclosed] at hextracted
            have hwaiting := hextracted.waiting.trimmed (show origin + ctx.scanEnd = _ by omega)
            have hcount := congrArg List.length hwaiting.ends
            rw [finished_all hchain hupTo, List.length_map] at hcount
            simp only [List.drop_zero] at hcount
            have hloop := finalizeLoop_spec hctx (by omega) hclosed hupTo
              ((st'.eOffs.filter fun x => decide (x ≤ ctx.scanEnd)).length + 1) hwaiting hphase rfl
              (by omega)
            rw [Bool.not_true, if_neg Bool.false_ne_true]
            refine ⟨hloop.1, ?_⟩
            have hresult := hloop.2
            split at hresult
            · next left finalEnd hout =>
                simp only [hout]
                rw [hresult.1]
                cases finalEnd with
                | some end_ => rfl
                | none =>
                    have hnothing : st'.lastRecordEnd = none := hresult.2 rfl
                    rw [← hlast, hnothing]
                    rfl
            · next left err hout =>
                simp only [hout]
                exact hresult _

theorem Waiting.consume {st : SimdIndexStepper} {buf : Bytes} {state : σ}
    (h : body.Waiting origin lo upTo rest ⟨st, buf, 0, 0, state⟩)
    (hle : st.recordBufStart ≤ buf.length) :
    body.Waiting (origin + st.recordBufStart) lo upTo rest
      ⟨st.consume st.recordBufStart, buf.drop st.recordBufStart, 0, 0, state⟩ where
  scannerConfig := h.scannerConfig
  count := h.count
  start := by
    have hstart : lo = origin + st.recordBufStart := h.start
    simp only [SimdIndexStepper.consume]
    omega
  shows := h.shows.drop h.start.ge hle
  handed := h.handed
  heads := ⟨⟨Nat.zero_le _, Nat.zero_le _⟩, Nat.zero_le _, fun _ => rfl⟩
  begins := by
    obtain ⟨more, hmore⟩ := h.begins
    refine ⟨more.map fun x => x - st.recordBufStart, ?_⟩
    have hbegins : st.bOffs = (body.finished upTo rest).map (body.beginAt origin) ++ more := hmore
    simp only [SimdIndexStepper.consume, List.drop_zero, hbegins, List.map_append, List.map_map]
    congr 2
    funext cell
    exact Nat.sub_sub _ _ _
  ends := by
    have hends : st.eOffs = (body.finished upTo rest).map (body.finAt origin) := h.ends
    simp only [SimdIndexStepper.consume, List.drop_zero, hends, List.map_map]
    congr 1
    funext cell
    exact Nat.sub_sub _ _ _
  removals := by
    have hremovals : st.rOffs = body.removals origin lo upTo := h.removals
    rw [Body.removals] at hremovals
    simp only [SimdIndexStepper.consume, List.drop_zero, hremovals, List.map_map]
    rw [Body.removals]
    congr 1
    funext i
    exact Nat.sub_sub _ _ _

theorem Rests.consume {resumeAt scanEnd : ℕ} {st : SimdIndexStepper} {buf : Bytes} {state : σ}
    (h : body.Rests origin lo resumeAt scanEnd st buf state) (hpos : 0 < st.recordBufStart)
    (hle : st.recordBufStart ≤ buf.length) :
    body.Rests (origin + st.recordBufStart) lo (resumeAt - st.recordBufStart)
      (scanEnd - st.recordBufStart) (st.consume st.recordBufStart)
      (buf.drop st.recordBufStart) state := by
  obtain ⟨head, j, rest, htracks, hj, haligned⟩ := h.tracks
  have hstart := htracks.extracted.waiting.start
  have hlo := htracks.extracted.lo_le
  have hresume := h.resume_le
  have hnear := h.near
  have hsame : (armed st).recordBufStart = st.recordBufStart := by
    rw [armed]
    split_ifs <;> rfl
  simp only [hsame] at hstart
  rw [frontier] at hlo
  have hfresh : st.needsChunkStartB = false := by
    by_contra htrue
    have hzero := h.fresh (Bool.eq_true_of_not_eq_false htrue)
    omega
  rw [armed_of_not hfresh] at htracks
  refine ⟨⟨head, j, rest, ?_, by omega, fun hflag => ?_⟩, by omega, by omega, fun hflag => ?_⟩
  · rw [armed_of_not (show (st.consume st.recordBufStart).needsChunkStartB = false from hfresh)]
    refine ⟨⟨htracks.extracted.waiting.consume hle, htracks.extracted.lo_le, ?_,
      htracks.extracted.phase⟩, htracks.scanner⟩
    have hbegins : st.bOffs = (body.marks.begins lo (frontier head j)).map fun i => i - origin :=
      htracks.extracted.begins
    simp only [SimdIndexStepper.consume, List.drop_zero, hbegins, List.map_map]
    congr 1
    funext i
    exact Nat.sub_sub _ _ _
  · obtain ⟨rfl, rfl, rfl⟩ := haligned hflag
    omega
  · rw [show (st.consume st.recordBufStart).needsChunkStartB = st.needsChunkStartB from rfl,
      hfresh] at hflag
    cases hflag

theorem index_drives (body : Body σ) :
    body.Drives (SimdIndexStepper.stepper body.acc) SimdIndexStepper.recordBufStart
      SimdIndexStepper.lastRecordEnd body.Rests where
  shows := by
    intro origin lo resumeAt scanEnd st buf state h
    obtain ⟨head, j, rest, htracks, -, -⟩ := h.tracks
    exact htracks.extracted.waiting.shows
  kept := by
    intro origin lo resumeAt scanEnd st buf state h
    obtain ⟨head, j, rest, htracks, -, -⟩ := h.tracks
    exact htracks.extracted.waiting.handed.kept
  lo_eq := by
    intro origin lo resumeAt scanEnd st buf state h
    obtain ⟨head, j, rest, htracks, hj, -⟩ := h.tracks
    have hstart := htracks.extracted.waiting.start
    have hlo := htracks.extracted.lo_le
    have hresume := h.resume_le
    have hsame : (armed st).recordBufStart = st.recordBufStart := by
      rw [armed]
      split_ifs <;> rfl
    simp only [hsame] at hstart
    rw [frontier] at hlo
    exact ⟨hstart, by omega⟩
  view := by
    intro origin lo resumeAt scanEnd st buf state buf' h hshows
    obtain ⟨head, j, rest, htracks, hj, haligned⟩ := h.tracks
    have hw := htracks.extracted.waiting
    exact ⟨⟨head, j, rest, ⟨⟨⟨hw.scannerConfig, hw.count, hw.start, hshows, hw.handed, hw.heads,
      hw.begins, hw.ends, hw.removals⟩, htracks.extracted.lo_le, htracks.extracted.begins,
      htracks.extracted.phase⟩, htracks.scanner⟩, hj, haligned⟩, h.resume_le, h.near, h.fresh⟩
  consume := by
    intro origin lo resumeAt scanEnd st buf state h hle
    split_ifs with hpos
    · exact h.consume hpos hle
    · rw [Nat.eq_zero_of_not_pos hpos]
      exact h
  last_consume := fun _ _ => rfl
  step := by
    intro origin lo scanned ctx st state hctx hrests hscanned
    have hstep := step_spec hctx hrests hscanned
    rw [Stepped] at hstep
    exact hstep
  finalize := by
    intro origin lo ctx st state hctx hrests hall htext
    exact finalize_spec hctx hrests hall htext

theorem rests_new (body : Body σ) (isa : Isa) :
    body.Rests 0 0 0 0 (.new isa body.config) body.text body.initial := by
  have hnone : body.finished 0 body.cells = [] :=
    body.chain.takeWhile_eq_nil (fun _ hcell => (hcell.fin_le body.proper).2) le_rfl
  refine ⟨⟨0, 0, body.cells, ⟨⟨?_, le_rfl, ?_, ?_⟩, rfl⟩, rfl, fun _ => ⟨rfl, rfl, rfl⟩⟩, le_rfl,
    by omega, fun _ => rfl⟩
  · exact {
      scannerConfig := rfl
      count := by
        change body.config.fieldCount.getD 0 = body.n
        rw [body.count, Option.getD_some]
      start := rfl
      shows := ⟨le_rfl, (Nat.zero_add _).le, fun _ _ _ => rfl, fun hlt => by omega⟩
      handed := body.at_start
      heads := ⟨⟨Nat.zero_le _, Nat.zero_le _⟩, Nat.zero_le _, fun _ => rfl⟩
      begins := ⟨[0], by rw [show frontier 0 0 = 0 from rfl, hnone]; rfl⟩
      ends := by
        rw [show frontier 0 0 = 0 from rfl, hnone]
        rfl
      removals := by
        rw [Body.removals, show frontier 0 0 = 0 from rfl, positions_of_le le_rfl]
        rfl }
  · rw [Marks.begins, if_pos rfl, show frontier 0 0 = 0 from rfl, positions_of_le le_rfl]
    rfl
  · rw [show frontier 0 0 = 0 from rfl, positions_of_le le_rfl]
    rfl

theorem index_post (body : Body σ) (isa : Isa) {reader : ChunkReader}
    (hpending : reader.pending = body.text)
    (hremaining : reader.chunkRemaining = body.chunkEnd - body.base) :
    body.Post reader.schedule (ChunkDriver.run (SimdIndexStepper.stepper body.acc) body.output
      (.new reader body.base) (.new isa body.config) body.initial) :=
  body.index_drives.run hpending hremaining (body.rests_new isa) rfl

end Body

end Csveee.Simd
