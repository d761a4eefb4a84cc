import Csveee.Parser.Simd.Feed
import Csveee.Parser.Simd.IndexFlush

/-!
# The index stepper, vector by vector

A vector adds the offsets of the one before it.  Between two vectors the pending offsets
are those of the text from where the next record starts up to where the vectors are
resolved.
-/

namespace Csveee.Simd

open Positions Slice

variable {σ : Type}

namespace Body

/-- What is extracted, up to a place: the fields' offsets, and how far into its record the
last one is. -/
structure Extracted (body : Body σ) (origin lo upTo : ℕ) (rest : List Cell)
    (w : Flush SimdIndexStepper σ) : Prop where
  waiting : body.Waiting origin lo upTo rest w
  lo_le : lo ≤ upTo
  begins : w.st.bOffs.drop w.head = (body.marks.begins lo upTo).map fun i => i - origin
  phase : phaseAfter body.n 0 ((positions body.marks.dStruct lo upTo).map body.marks.runEnd) =
    some w.st.fieldCounter.phase

variable {body : Body σ} {origin lo upTo head j : ℕ} {rest : List Cell}
  {w : Flush SimdIndexStepper σ} {cursor : ℕ}

theorem begins_upTo (marks : Marks) {upTo' : ℕ} (hlo : lo ≤ upTo) (hle : upTo ≤ upTo') :
    marks.begins lo upTo' = marks.begins lo upTo ++ positions marks.b upTo upTo' := by
  rw [Marks.begins, Marks.begins]
  split_ifs with hzero
  · rw [← positions_append (Nat.zero_le upTo) hle]
    rfl
  · rw [positions_append hlo hle]

theorem finAt_eq (hchain : body.marks.Chain lo rest) :
    (body.finished upTo rest).map (body.finAt origin) =
      (positions body.marks.e lo upTo).map fun i => i - origin := by
  rw [hchain.positions_e body.proper, List.map_map]
  rfl

theorem Extracted.withScanner (h : body.Extracted origin lo upTo rest w) (scanner : Scanner) :
    body.Extracted origin lo upTo rest { w with st := { w.st with scanner := scanner } } :=
  have hw := h.waiting
  ⟨⟨hw.scannerConfig, hw.count, hw.start, hw.shows, hw.handed, hw.heads, hw.begins, hw.ends,
    hw.removals⟩, h.lo_le, h.begins, h.phase⟩

theorem Extracted.phase_upTo (h : body.Extracted origin lo upTo rest w) {upTo' : ℕ}
    (hle : upTo ≤ upTo') :
    phaseAfter body.n 0 ((positions body.marks.dStruct lo upTo').map body.marks.runEnd) =
      phaseAfter body.n w.st.fieldCounter.phase
        ((positions body.marks.dStruct upTo upTo').map body.marks.runEnd) := by
  rw [← positions_append h.lo_le hle, List.map_append, phaseAfter_append, h.phase,
    Option.bind_some]

theorem Extracted.arityError (h : body.Extracted origin lo upTo rest w) {upTo' : ℕ}
    (hle : upTo ≤ upTo') {view : Bytes} (hshows : body.Shows origin lo view)
    (hseen : upTo' ≤ origin + view.length ∨ origin + view.length = body.text.length)
    (hphase : phaseAfter body.n w.st.fieldCounter.phase
      ((positions body.marks.dStruct upTo upTo').map body.marks.runEnd) = none) :
    body.Blames ⟨origin, view, w.st.recordBufStart⟩ w.state
      (w.st.arityError view (body.base + origin)) := by
  have hw := h.waiting
  rw [← h.phase_upTo hle, kinds_eq hw.handed.chain] at hphase
  rw [SimdIndexStepper.arityError, hw.scannerConfig, hw.count]
  exact .misfit (@Misfit.intro _ _ ⟨origin, view, w.st.recordBufStart⟩ _ _ _ _ _ _ _ hw.start
    hw.handed hshows hseen hphase (Prod.mk.eta).symm)

/-- What the verifier makes of a vector's boundaries. -/
theorem Extracted.publish_eq (h : body.Extracted origin lo (64 * j - head) rest w)
    (scanner : Scanner) {out : VectorOutput}
    (hd : out.dStruct = window (delayed head body.marks.dStruct) j)
    (hterm : out.term = window (delayed head body.marks.runEnd) j) (base : ℤ) (view : Bytes)
    (totalConsumed : ℕ) :
    SimdIndexStepper.publish { w.st with scanner := scanner } (some out) base view totalConsumed =
      match phaseAfter body.n w.st.fieldCounter.phase ((positions body.marks.dStruct
          (64 * j - head) (64 * (j + 1) - head)).map body.marks.runEnd) with
      | none => .error (w.st.arityError view totalConsumed)
      | some phase => .ok { w.st with
          scanner := scanner
          fieldCounter := { w.st.fieldCounter with phase := phase }
          bOffs := extendOffsets w.st.bOffs out.b base
          eOffs := extendOffsets w.st.eOffs out.e base
          rOffs := extendOffsets w.st.rOffs out.r base } := by
  have hn := body.n_pos
  have hcount := h.waiting.count
  have hphase := phaseAfter_lt (by omega) h.phase
  rw [SimdIndexStepper.publish]
  simp only
  rw [verify_spec (by omega) (by omega), hd, hterm, kinds_window, FieldCounter.accept, hcount]
  cases phaseAfter body.n w.st.fieldCounter.phase ((positions body.marks.dStruct
    (64 * j - head) (64 * (j + 1) - head)).map body.marks.runEnd) <;> rfl

theorem Extracted.begins_upTo (h : body.Extracted origin lo (64 * j - head) rest w)
    {base : ℤ} (hbase : base = 64 * (j : ℤ) - head - origin) :
    (extendOffsets w.st.bOffs (window (delayed head body.marks.b) j) base).drop w.head =
      (body.marks.begins lo (64 * (j + 1) - head)).map fun i => i - origin := by
  rw [extendOffsets_window _ _ head origin j hbase,
    List.drop_append_of_le_length h.waiting.heads.1.1, h.begins, ← List.map_append,
    ← Body.begins_upTo _ h.lo_le (by omega)]

/-- The offsets that one more vector adds. -/
theorem Extracted.extend (h : body.Extracted origin lo (64 * j - head) rest w)
    (scanner : Scanner) {base : ℤ} (hbase : base = 64 * (j : ℤ) - head - origin) {phase : ℕ}
    (hphase : phaseAfter body.n w.st.fieldCounter.phase ((positions body.marks.dStruct
      (64 * j - head) (64 * (j + 1) - head)).map body.marks.runEnd) = some phase)
    {out : VectorOutput}
    (hout : out = Scanner.rebased body.marks body.config.doubledQuotes head j) :
    body.Extracted origin lo (64 * (j + 1) - head) rest { w with st := { w.st with
      scanner := scanner
      fieldCounter := { w.st.fieldCounter with phase := phase }
      bOffs := extendOffsets w.st.bOffs out.b base
      eOffs := extendOffsets w.st.eOffs out.e base
      rOffs := extendOffsets w.st.rOffs out.r base } } := by
  have hw := h.waiting
  have hle : 64 * j - head ≤ 64 * (j + 1) - head := by omega
  subst hout
  have hbegins := h.begins_upTo hbase
  simp only [Scanner.rebased]
  refine ⟨?_, le_trans h.lo_le hle, hbegins, (h.phase_upTo hle).trans hphase⟩
  exact {
    scannerConfig := hw.scannerConfig
    count := hw.count
    start := hw.start
    shows := hw.shows
    handed := hw.handed
    heads := by
      obtain ⟨⟨hb, he⟩, hr, hzero⟩ := hw.heads
      simp only [extendOffsets_window _ _ head origin j hbase, List.length_append]
      exact ⟨by omega, by omega, hzero⟩
    begins := by
      obtain ⟨more, hmore⟩ := hw.handed.chain.begins_eq body.proper (64 * (j + 1) - head)
      refine ⟨more.map fun i => i - origin, ?_⟩
      simp only
      rw [hbegins, hmore, List.map_append, List.map_map]
      rfl
    ends := by
      simp only
      rw [extendOffsets_window _ _ head origin j hbase, List.drop_append_of_le_length
        hw.heads.1.2, hw.ends, finAt_eq hw.handed.chain, ← List.map_append,
        positions_append h.lo_le hle, finAt_eq hw.handed.chain]
    removals := by
      simp only
      rw [extendOffsets_window _ _ head origin j hbase, List.drop_append_of_le_length
        hw.heads.2.1, hw.removals, removals, ← List.map_append, positions_append h.lo_le hle]
      rfl }

/-- The flags that only `step` itself clears, and the size of the buffer. -/
structure SameFlags (w w' : Flush SimdIndexStepper σ) : Prop where
  needsAlignPrologue : w'.st.needsAlignPrologue = w.st.needsAlignPrologue
  needsChunkStartB : w'.st.needsChunkStartB = w.st.needsChunkStartB
  length : w'.buf.length = w.buf.length

theorem SameFlags.trans {w w' w'' : Flush SimdIndexStepper σ} (h : SameFlags w w')
    (h' : SameFlags w' w'') : SameFlags w w'' :=
  ⟨h'.needsAlignPrologue.trans h.needsAlignPrologue,
    h'.needsChunkStartB.trans h.needsChunkStartB, h'.length.trans h.length⟩

variable {ctx : StepCtx}

theorem Extracted.moved {taken : List (Row body.n)} {back : List Cell}
    {w' : Flush SimdIndexStepper σ}
    (h : body.Extracted origin lo upTo (taken.flatMap Row.cells ++ back) w)
    (hlo : Marks.behind lo (taken.flatMap Row.cells) ≤ upTo)
    (hw : body.Waiting origin (Marks.behind lo (taken.flatMap Row.cells)) upTo back w')
    (hunmoved : Unmoved (taken.length * body.n) w w') :
    body.Extracted origin (Marks.behind lo (taken.flatMap Row.cells)) upTo back w' where
  waiting := hw
  lo_le := hlo
  begins := by
    have hchain := h.waiting.handed.chain
    have hbegins := hchain.begins_append body.proper (fun cell hcell =>
      lt_of_lt_of_le (hchain.bound_lt_behind hcell) hlo)
    rw [hunmoved.st, hunmoved.head]
    simp only
    rw [← List.drop_drop, h.begins, hbegins, List.map_append, List.drop_left']
    rw [List.length_map, List.length_map, Row.length_flatMap]
  phase := by
    have hchain := h.waiting.handed.chain
    have hall : ∀ cell ∈ taken.flatMap Row.cells, decide (cell.bound < upTo) = true :=
      fun cell hcell => decide_eq_true (lt_of_lt_of_le (hchain.bound_lt_behind hcell) hlo)
    have hphase := h.phase
    rw [kinds_eq hchain, List.takeWhile_append_of_pos hall, List.map_append,
      Row.phaseAfter_flatMap body.n_pos.1] at hphase
    rw [kinds_eq hw.handed.chain, hphase, hunmoved.st]

theorem Extracted.flush (h : body.Extracted origin lo upTo rest w) (hctx : body.StepAt origin ctx)
    (hupTo : upTo ≤ origin + ctx.scanEnd) (hbuf : w.buf.length = ctx.buf.length) :
    match SimdIndexStepper.flushRecords body.acc (upTo - origin) ctx.remainingInChunk
        ctx.totalConsumed w with
      | (w', .error err) => ∀ walk, body.Ended walk w'.state (.error err)
      | (w', .ok (some end_)) => ∀ walk, body.Ended walk w'.state (.done end_)
      | (w', .ok none) => ∃ lo' rest', lo ≤ lo' ∧ body.Extracted origin lo' upTo rest' w' ∧
          w'.st.scanner = w.st.scanner ∧ SameFlags w w' := by
  have hview := hctx.view
  have hphase := h.phase
  rw [kinds_eq h.waiting.handed.chain] at hphase
  obtain ⟨taken, back, rfl, hhanded⟩ := h.waiting.flush h.lo_le hphase hctx.valid hctx.within
    hupTo (by omega) hctx.remaining
  rw [hctx.total]
  generalize SimdIndexStepper.flushRecords body.acc (upTo - origin) ctx.remainingInChunk
    (body.base + origin) w = result at hhanded
  obtain ⟨w', err | _ | end_⟩ := result
  · exact fun walk => ⟨hhanded.1, hhanded.2 walk⟩
  · obtain ⟨hlo, hw, hunmoved⟩ := hhanded
    refine ⟨_, back, h.waiting.handed.chain.le_behind, h.moved hlo hw hunmoved, ?_⟩
    have hst := hunmoved.st
    exact ⟨by rw [hst], by rw [hst], by rw [hst], hunmoved.length⟩
  · exact fun _ => ⟨hhanded.1, hhanded.2.2⟩

/-- The scanner ahead of the `j`-th vector. -/
def scannerAt (body : Body σ) (head j : ℕ) : Scanner :=
  (Marks.of (scannerConfigOf body.config) (body.padding head ++ body.ended)).scannerAt
    (scannerConfigOf body.config) j

theorem output_eq : (Marks.of (scannerConfigOf body.config)
    (body.padding head ++ body.ended)).output body.config.doubledQuotes =
      Scanner.rebased body.marks body.config.doubledQuotes head := by
  rw [Scanner.output_of_padded neutral_padding, length_padding]
  rfl

theorem step_scannerAt {v : Bytes} (hv : body.Reads head j v) :
    (body.scannerAt head j).step v = (body.scannerAt head (j + 1),
      match j with
      | 0 => none
      | j + 1 => some (Scanner.rebased body.marks body.config.doubledQuotes head j)) := by
  rw [scannerAt, Scanner.step_scannerAt hv]
  cases j with
  | zero => rfl
  | succ j =>
      rw [← output_eq]
      rfl

/-- Between two vectors. -/
structure Tracks (body : Body σ) (head origin j lo : ℕ) (rest : List Cell)
    (w : Flush SimdIndexStepper σ) : Prop where
  extracted : body.Extracted origin lo (frontier head j) rest w
  scanner : w.st.scanner = body.scannerAt head j

theorem Extracted.publish (h : body.Extracted origin lo (64 * j - head) rest w)
    (scanner : Scanner) {base : ℤ} (hbase : base = 64 * (j : ℤ) - head - origin) {view : Bytes}
    (hshows : body.Shows origin lo view)
    (hseen : 64 * (j + 1) - head ≤ origin + view.length ∨
      origin + view.length = body.text.length) :
    match SimdIndexStepper.publish { w.st with scanner := scanner }
        (some (Scanner.rebased body.marks body.config.doubledQuotes head j)) base view
        (body.base + origin) with
      | .error err => body.Blames ⟨origin, view, w.st.recordBufStart⟩ w.state err
      | .ok st => body.Extracted origin lo (64 * (j + 1) - head) rest { w with st := st } ∧
          st.scanner = scanner ∧ SameFlags w { w with st := st } := by
  rw [h.publish_eq _ rfl rfl]
  cases hphase : phaseAfter body.n w.st.fieldCounter.phase ((positions body.marks.dStruct
      (64 * j - head) (64 * (j + 1) - head)).map body.marks.runEnd) with
  | none =>
      exact h.arityError (show 64 * j - head ≤ 64 * (j + 1) - head by omega) hshows hseen hphase
  | some phase => exact ⟨h.extend _ hbase hphase rfl, rfl, rfl, rfl, rfl⟩

theorem Tracks.publish (h : body.Tracks head origin j lo rest w) {v : Bytes}
    (hv : body.Reads head j v) {base : ℤ}
    (hbase : base = 64 * ((j : ℤ) - 1) - head - origin) {view : Bytes}
    (hshows : body.Shows origin lo view)
    (hseen : frontier head (j + 1) ≤ origin + view.length ∨
      origin + view.length = body.text.length) :
    match SimdIndexStepper.publish { w.st with scanner := (w.st.scanner.step v).1 }
        (w.st.scanner.step v).2 base view (body.base + origin) with
      | .error err => body.Blames ⟨origin, view, w.st.recordBufStart⟩ w.state err
      | .ok st => body.Tracks head origin (j + 1) lo rest { w with st := st } ∧
          SameFlags w { w with st := st } := by
  rw [h.scanner, step_scannerAt hv]
  cases j with
  | zero => exact ⟨⟨h.extracted.withScanner _, rfl⟩, rfl, rfl, rfl⟩
  | succ j =>
      have hextracted : body.Extracted origin lo (64 * j - head) rest w := h.extracted
      have hpublish := hextracted.publish (body.scannerAt head (j + 1 + 1))
        (show base = 64 * (j : ℤ) - head - origin by omega) hshows hseen
      simp only
      split at hpublish
      · next hpublished =>
          rw [hpublished]
          exact hpublish
      · next hpublished =>
          rw [hpublished]
          exact ⟨⟨hpublish.1, hpublish.2.1⟩, hpublish.2.2⟩

/-- What the loop does not need any more goes. -/
theorem Tracks.dropPrefix (h : body.Tracks head origin j lo rest w) :
    body.Tracks head origin j lo rest
      { w with st := w.st.dropEmittedPrefix w.head w.rHead, head := 0, rHead := 0 } :=
  have hw := h.extracted.waiting
  ⟨⟨⟨hw.scannerConfig, hw.count, hw.start, hw.shows, hw.handed,
    ⟨⟨Nat.zero_le _, Nat.zero_le _⟩, Nat.zero_le _, fun _ => rfl⟩, hw.begins, hw.ends, hw.removals⟩,
    h.extracted.lo_le, h.extracted.begins, h.extracted.phase⟩, h.scanner⟩

/-- What the loop over the vectors comes to. -/
def Looped (body : Body σ) (head origin lo : ℕ) (ctx : StepCtx)
    (w : Flush SimdIndexStepper σ) :
    ℕ × Flush SimdIndexStepper σ × Option StepResult → Prop
  | (_, w', some result) =>
      body.Ended ⟨origin, w'.buf.take ctx.scanEnd, w'.st.recordBufStart⟩ w'.state result
  | (cursor', w', none) => ∃ j' lo' rest', lo ≤ lo' ∧ body.Tracks head origin j' lo' rest' w' ∧
      64 * j' = head + origin + cursor' ∧ cursor' ≤ ctx.scanEnd ∧ ctx.scanEnd < cursor' + 64 ∧
      SameFlags w w'

theorem Looped.of_sameFlags {w' : Flush SimdIndexStepper σ} (hflags : SameFlags w w')
    {lo' : ℕ} (hlo : lo ≤ lo') {result : ℕ × Flush SimdIndexStepper σ × Option StepResult}
    (h : body.Looped head origin lo' ctx w' result) :
    body.Looped head origin lo ctx w result := by
  obtain ⟨cursor', w'', _ | result⟩ := result
  · obtain ⟨j', lo'', rest', hlo', htracks, hj, hcursor, hend, hflags'⟩ := h
    exact ⟨j', lo'', rest', hlo.trans hlo', htracks, hj, hcursor, hend, hflags.trans hflags'⟩
  · exact h

theorem vectorLoop_spec (hctx : body.StepAt origin ctx) (fuel : ℕ) {cursor : ℕ}
    (h : body.Tracks head origin j lo rest w) (hj : 64 * j = head + origin + cursor)
    (hbuf : w.buf.length = ctx.buf.length) (hcursor : cursor ≤ ctx.scanEnd)
    (hfuel : ctx.scanEnd ≤ cursor + fuel) :
    body.Looped head origin lo ctx w
      (SimdIndexStepper.vectorLoop body.acc ctx fuel cursor w) := by
  induction fuel generalizing cursor j lo rest w with
  | zero => exact ⟨j, lo, rest, le_rfl, h, hj, hcursor, by omega, rfl, rfl, rfl⟩
  | succ fuel ih =>
      have hview := hctx.view
      have hlo := h.extracted.lo_le
      have hfrontier : frontier head (j + 1) = origin + cursor := by
        rw [frontier]
        omega
      rw [frontier] at hlo
      rw [SimdIndexStepper.vectorLoop, vectorBytes]
      split_ifs with hroom
      · have hshows := h.extracted.waiting.shows
        have hpublish := h.publish (reads_slice hj hshows (by omega) (by omega))
          (show (cursor : ℤ) - 64 = 64 * ((j : ℤ) - 1) - head - origin by omega)
          (hshows.take ctx.scanEnd) (Or.inl (by rw [hfrontier, List.length_take]; omega))
        rw [← hctx.total] at hpublish
        simp only [Nat.cast_ofNat]
        split at hpublish
        · next err hpublished =>
            rw [hpublished]
            exact ⟨h.extracted.waiting.handed.kept, hpublish⟩
        · next st hpublished =>
            rw [hpublished]
            obtain ⟨htracks, hflags⟩ := hpublish
            simp only
            split_ifs with hfew
            · exact (ih htracks (by omega) hbuf hroom (by omega)).of_sameFlags hflags le_rfl
            · have hflush := htracks.extracted.flush hctx (by rw [hfrontier]; omega) hbuf
              rw [hfrontier, Nat.add_sub_cancel_left] at hflush
              rw [Nat.add_sub_cancel]
              generalize SimdIndexStepper.flushRecords body.acc cursor ctx.remainingInChunk
                ctx.totalConsumed { w with st := st } = flushed at hflush
              obtain ⟨w', err | _ | end_⟩ := flushed
              · exact hflush ⟨origin, w'.buf.take ctx.scanEnd, w'.st.recordBufStart⟩
              · obtain ⟨lo', rest', hmono, hextracted, hscanner, hflags'⟩ := hflush
                have htracks' : body.Tracks head origin (j + 1) lo' rest' w' :=
                  ⟨by rw [hfrontier]; exact hextracted, hscanner.trans htracks.scanner⟩
                have hsame := hflags.trans hflags'
                have hbuf' : w'.buf.length = ctx.buf.length := hsame.length.trans hbuf
                simp only
                split_ifs with hcompact
                · refine Looped.of_sameFlags ?_ hmono
                    (ih htracks'.dropPrefix (by omega) hbuf' hroom (by omega))
                  exact ⟨hsame.1, hsame.2, hsame.3⟩
                · exact (ih htracks' (by omega) hbuf' hroom (by omega)).of_sameFlags hsame hmono
              · exact hflush ⟨origin, w'.buf.take ctx.scanEnd, w'.st.recordBufStart⟩
      · exact ⟨j, lo, rest, le_rfl, h, hj, hcursor, by omega, rfl, rfl, rfl⟩

/-- The stepper with the text's first begin. -/
def armed (st : SimdIndexStepper) : SimdIndexStepper :=
  if st.needsChunkStartB then { st with bOffs := st.bOffs ++ [0], needsChunkStartB := false }
  else st

theorem armed_of_not {st : SimdIndexStepper} (h : st.needsChunkStartB = false) :
    armed st = st := by
  rw [armed, h, if_neg Bool.false_ne_true]

theorem armed_flags (st : SimdIndexStepper) : (armed st).needsChunkStartB = false ∧
    (armed st).needsAlignPrologue = st.needsAlignPrologue := by
  rw [armed]
  cases h : st.needsChunkStartB with
  | false => exact ⟨h, rfl⟩
  | true => exact ⟨rfl, rfl⟩

theorem Tracks.withFlag {st : SimdIndexStepper} {buf : Bytes} {state : σ}
    (h : body.Tracks head origin j lo rest ⟨st, buf, 0, 0, state⟩) (flag : Bool) :
    body.Tracks head origin j lo rest
      ⟨{ st with needsAlignPrologue := flag }, buf, 0, 0, state⟩ :=
  have hw := h.extracted.waiting
  ⟨⟨⟨hw.scannerConfig, hw.count, hw.start, hw.shows, hw.handed, hw.heads, hw.begins, hw.ends,
    hw.removals⟩, h.extracted.lo_le, h.extracted.begins, h.extracted.phase⟩, h.scanner⟩

/-- The vector that puts the others on boundaries. -/
theorem Tracks.headPadded {st : SimdIndexStepper} {state : σ} {misalign : ℕ}
    (h : body.Tracks 0 0 0 lo rest ⟨st, ctx.buf, 0, 0, state⟩) (hmisalign : misalign ≤ 64)
    (hview : 64 - misalign ≤ ctx.buf.length) {v : Bytes}
    (hv : v = body.padding misalign ++ ctx.buf.take (64 - misalign)) :
    body.Tracks misalign 0 1 lo rest
      ⟨{ st with scanner := (st.scanner.step v).1, needsAlignPrologue := false }, ctx.buf, 0, 0,
        state⟩ := by
  have hw := h.extracted.waiting
  have hlo := h.extracted.lo_le
  have hfrontier : frontier misalign 1 = frontier 0 0 := by
    rw [frontier, frontier]
    omega
  have hscanner : st.scanner = body.scannerAt misalign 0 := h.scanner
  refine ⟨?_, ?_⟩
  · rw [hfrontier]
    exact ⟨⟨hw.scannerConfig, hw.count, hw.start, hw.shows, hw.handed, hw.heads, hw.begins,
      hw.ends, hw.removals⟩, h.extracted.lo_le, h.extracted.begins, h.extracted.phase⟩
  · obtain rfl : lo = 0 := Nat.le_zero.mp hlo
    simp only
    rw [hscanner, step_scannerAt (hv ▸ reads_headPadded hw.shows hmisalign hview)]

/-- The prologue sets the scanner up where the loop starts. -/
theorem prologue_spec (hctx : body.StepAt origin ctx) {st : SimdIndexStepper} {state : σ}
    (h : body.Tracks head origin j lo rest ⟨st, ctx.buf, 0, 0, state⟩)
    (hj : 64 * j = head + origin + ctx.scanStart) (hstart : ctx.scanStart ≤ ctx.scanEnd)
    (haligned : st.needsAlignPrologue = true → head = 0 ∧ origin = 0 ∧ j = 0) :
    ∃ head' j', body.Tracks head' origin j' lo rest
        ⟨(SimdIndexStepper.prologue st ctx).1, ctx.buf, 0, 0, state⟩ ∧
      64 * j' = head' + origin + (SimdIndexStepper.prologue st ctx).2 ∧
      (SimdIndexStepper.prologue st ctx).2 ≤ ctx.scanEnd ∧
      (SimdIndexStepper.prologue st ctx).1.needsChunkStartB = st.needsChunkStartB ∧
      ((SimdIndexStepper.prologue st ctx).1.needsAlignPrologue = true →
        head' = 0 ∧ origin = 0 ∧ ctx.scanEnd < 64) := by
  have hview := hctx.view
  rw [SimdIndexStepper.prologue]
  by_cases hneeds : st.needsAlignPrologue = true ∧ ctx.scanStart = 0
  · obtain ⟨rfl, rfl, rfl⟩ := haligned hneeds.1
    have hconfig : st.scannerConfig = scannerConfigOf body.config :=
      h.extracted.waiting.scannerConfig
    have hmisalign := ctx.misalign.isLt
    rw [if_pos hneeds]
    simp only
    split
    · next v misalign hprologue =>
        obtain ⟨rfl, rfl, hlong⟩ := headPaddedPrologue_vector hprologue
        refine ⟨ctx.misalign, 1, h.headPadded hmisalign.le (by omega) ?_, ?_, ?_, rfl, ?_⟩
        · rw [hconfig]
          rfl
        · simp only [vectorBytes]
          omega
        · simp only [vectorBytes]
          omega
        · intro hfalse
          cases hfalse
    · refine ⟨0, 0, h.withFlag false, hj, hstart, rfl, ?_⟩
      intro hfalse
      cases hfalse
    · refine ⟨0, 0, h.withFlag _, hj, hstart, rfl, ?_⟩
      intro htrue
      exact ⟨rfl, trivial, of_decide_eq_true htrue⟩
  · rw [if_neg hneeds]
    refine ⟨head, j, h, hj, hstart, rfl, fun htrue => ?_⟩
    obtain ⟨rfl, rfl, rfl⟩ := haligned htrue
    exact absurd ⟨htrue, by omega⟩ hneeds

theorem finalFlush_spec (hctx : body.StepAt origin ctx) (h : body.Tracks head origin j lo rest w)
    (hj : 64 * j = head + origin + cursor) (hbuf : w.buf.length = ctx.buf.length)
    (hcursor : cursor ≤ ctx.scanEnd) :
    match SimdIndexStepper.finalFlush body.acc ctx cursor w with
      | (w', .error err) => ∀ walk, body.Ended walk w'.state (.error err)
      | (w', .ok (some end_)) => ∀ walk, body.Ended walk w'.state (.done end_)
      | (w', .ok none) => ∃ lo' rest', lo ≤ lo' ∧ body.Tracks head origin j lo' rest' w' ∧
          SameFlags w w' := by
  rw [SimdIndexStepper.finalFlush, vectorBytes]
  split_ifs with hready
  · have hfrontier : frontier head j = origin + (cursor - 64) := by
      rw [frontier]
      omega
    have hflush := h.extracted.flush hctx (by rw [hfrontier]; omega) hbuf
    rw [hfrontier, Nat.add_sub_cancel_left] at hflush
    generalize SimdIndexStepper.flushRecords body.acc (cursor - 64) ctx.remainingInChunk
      ctx.totalConsumed w = flushed at hflush
    obtain ⟨w', err | _ | end_⟩ := flushed
    · exact hflush
    · obtain ⟨lo', rest', hmono, hextracted, hscanner, hflags⟩ := hflush
      rw [← hfrontier] at hextracted
      exact ⟨lo', rest', hmono, ⟨hextracted, hscanner.trans h.scanner⟩, hflags⟩
    · exact hflush
  · exact ⟨lo, rest, le_rfl, h, rfl, rfl, rfl⟩

/-- A stepper at rest: the next vector starts at `resumeAt`, and what was there to be stepped
over ends within it. -/
structure Rests (body : Body σ) (origin lo resumeAt scanEnd : ℕ) (st : SimdIndexStepper)
    (buf : Bytes) (state : σ) : Prop where
  tracks : ∃ head j rest, body.Tracks head origin j lo rest ⟨armed st, buf, 0, 0, state⟩ ∧
    64 * j = head + origin + resumeAt ∧
    (st.needsAlignPrologue = true → head = 0 ∧ origin = 0 ∧ j = 0)
  resume_le : resumeAt ≤ scanEnd
  near : scanEnd < resumeAt + 64
  fresh : st.needsChunkStartB = true → scanEnd = 0

/-- What a step comes to. -/
def Stepped (body : Body σ) (origin lo : ℕ) (ctx : StepCtx)
    (out : StepOutcome SimdIndexStepper σ) : Prop :=
  match out.result with
  | .suspended resumeAt consumed last =>
      ∃ lo', body.Rests origin lo' resumeAt ctx.scanEnd out.stepper out.buf out.state ∧
        lo ≤ lo' ∧ out.buf.length = ctx.buf.length ∧ consumed = out.stepper.recordBufStart ∧
        last = out.stepper.lastRecordEnd
  | result => body.Ended ⟨origin, out.buf.take ctx.scanEnd, out.stepper.recordBufStart⟩ out.state
      result

theorem step_spec (hctx : body.StepAt origin ctx) {st : SimdIndexStepper} {state : σ}
    {scanned : ℕ} (h : body.Rests origin lo ctx.scanStart scanned st ctx.buf state)
    (hscanned : scanned < ctx.scanEnd) :
    body.Stepped origin lo ctx (SimdIndexStepper.step body.acc st ctx state) := by
  obtain ⟨head, j, rest, htracks, hj, haligned⟩ := h.tracks
  have hstart := h.resume_le
  obtain ⟨hflagB, hflagA⟩ := armed_flags st
  obtain ⟨head', j', hprologue, hj', hle, hsameB, haligned'⟩ := prologue_spec hctx htracks hj
    (by omega) (by rw [hflagA]; exact haligned)
  rw [SimdIndexStepper.step]
  simp only
  rw [← armed]
  generalize SimdIndexStepper.prologue (armed st) ctx = entered
    at hprologue hj' hle hsameB haligned'
  obtain ⟨st', cursor⟩ := entered
  simp only at hprologue hj' hle hsameB haligned' ⊢
  have hlooped := vectorLoop_spec hctx (ctx.scanEnd - cursor) hprologue hj' rfl hle (by omega)
  generalize SimdIndexStepper.vectorLoop body.acc ctx (ctx.scanEnd - cursor) cursor
    ⟨st', ctx.buf, 0, 0, state⟩ = looped at hlooped
  obtain ⟨cursor', w, _ | result⟩ := looped
  · obtain ⟨j'', lo', rest', hlo', htracks', hj'', hcursor, hend, hflags⟩ := hlooped
    have hflush := finalFlush_spec hctx htracks' hj'' hflags.length hcursor
    simp only
    generalize SimdIndexStepper.finalFlush body.acc ctx cursor' w = flushed at hflush
    obtain ⟨w', err | _ | end_⟩ := flushed
    · exact hflush ⟨origin, w'.buf.take ctx.scanEnd, w'.st.recordBufStart⟩
    · obtain ⟨lo'', rest'', hlo'', htracks'', hflags'⟩ := hflush
      have hsame := hflags.trans hflags'
      have hst : (if w'.head ≠ 0 then w'.st.dropEmittedPrefix w'.head w'.rHead else w'.st) =
          w'.st.dropEmittedPrefix w'.head w'.rHead := by
        split_ifs with hhead
        · rfl
        · have hzero := htracks''.extracted.waiting.heads.2.2 (not_not.mp hhead)
          rw [not_not.mp hhead, hzero]
          rfl
      simp only [hst]
      have hnotB : (w'.st.dropEmittedPrefix w'.head w'.rHead).needsChunkStartB = false :=
        hsame.needsChunkStartB.trans (hsameB.trans hflagB)
      refine ⟨lo'', ⟨⟨head', j'', rest'', ?_, hj'', ?_⟩, hcursor, hend, ?_⟩, hlo'.trans hlo'',
        hsame.length, rfl, rfl⟩
      · rw [armed_of_not hnotB]
        exact htracks''.dropPrefix
      · intro hflag
        obtain ⟨hhead, horigin, hshort⟩ := haligned' (hsame.needsAlignPrologue.symm.trans hflag)
        exact ⟨hhead, horigin, by omega⟩
      · intro hflag
        rw [hnotB] at hflag
        cases hflag
    · exact hflush ⟨origin, w'.buf.take ctx.scanEnd, w'.st.recordBufStart⟩
  · simp only
    cases result with
    | suspended => exact hlooped.elim
    | done | error => exact hlooped

end Body

end Csveee.Simd
