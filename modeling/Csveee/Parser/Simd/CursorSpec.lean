import Csveee.Parser.Simd.CursorFlush
import Csveee.Parser.Simd.Feed

/-!
# The cursor stepper, vector by vector

A vector's boundaries are published once the next vector shows where its last run ends.
Between two vectors the boundaries at hand are those of the text up to the vector that is
held back.
-/

namespace Csveee.Simd

open Positions Slice

variable {σ : Type}

namespace Body

variable {body : Body σ} {origin lo upTo head j cursor : ℕ} {rest : List Cell}
  {w : Flush SimdCursorStepper σ} {ctx : StepCtx}

/-- The marks of the padded text. -/
def padded (body : Body σ) (head : ℕ) : Marks :=
  .of (scannerConfigOf body.config) (body.padding head ++ body.ended)

section Padded

variable (hquote : body.config.quote = none)

include hquote

theorem padded_unquoted : (body.padded head).delimOoq = (body.padded head).delim ∧
    (body.padded head).termOoq = (body.padded head).term := by
  have hnone : ∀ i, (body.padded head).quote i = false := by
    intro i
    rw [padded, Marks.of]
    simp only [scannerConfigOf, hquote]
    rfl
  have hout : ∀ i, (body.padded head).inQuotes i = false :=
    fun i => parity_of_none fun k _ => hnone k
  constructor <;> funext i
  · rw [Marks.delimOoq, hout, Bool.not_false, Bool.and_true]
  · rw [Marks.termOoq, hout, Bool.not_false, Bool.and_true]

/-- The masks that a held vector is published with. -/
theorem published_masks (k : ℕ) :
    terminatorRunEnds (window (body.padded head).term k) ((body.padded head).term (64 * (k + 1))) =
        window (delayed head body.marks.runEnd) k ∧
      window (body.padded head).delim k ||| window (delayed head body.marks.runEnd) k =
        window (delayed head body.marks.dStruct) k := by
  obtain ⟨hdelim, hterm⟩ := @padded_unquoted _ body head hquote
  obtain ⟨-, -, -, hstruct, hrunEnd⟩ := Scanner.streams_padded
    (@neutral_padding _ body head) body.ended body.config.doubledQuotes
  rw [length_padding] at hstruct hrunEnd
  have hends := terminatorRunEnds_window (body.padded head) k
  rw [hterm] at hends
  constructor
  · rw [hends]
    exact congrArg (window · k) hrunEnd
  · calc window (body.padded head).delim k ||| window (delayed head body.marks.runEnd) k
        = window (body.padded head).delimOoq k ||| window (body.padded head).runEnd k := by
          rw [hdelim]
          exact congrArg (_ ||| window · k) hrunEnd.symm
      _ = window (body.padded head).dStruct k := window_or _ _ k
      _ = window (delayed head body.marks.dStruct) k := congrArg (window · k) hstruct

omit hquote in
theorem term_padded_eq (i : ℕ) : (body.padded head).term (head + i) = body.marks.term i := by
  have hpadded := congrFun (Scanner.term_padded (@neutral_padding _ body head) body.ended)
    (head + i)
  rw [length_padding, delayed, if_neg (by omega), Nat.add_sub_cancel_left] at hpadded
  exact hpadded

end Padded

/-- The boundaries in front of a place, told by the streams. -/
theorem bounded_eq (hchain : body.marks.Chain lo rest) :
    (bounded upTo rest).map (boundAt origin) =
        (positions body.marks.dStruct lo upTo).map (fun i => i - origin) ∧
      (bounded upTo rest).map Cell.last =
        (positions body.marks.dStruct lo upTo).map body.marks.runEnd := by
  constructor
  · rw [hchain.positions_dStruct body.proper, List.map_map]
    rfl
  · exact (kinds_eq hchain).symm

theorem Queued.arityError (h : body.Queued origin lo upTo rest w)
    (hquote : body.config.quote = none) {upTo' : ℕ} (hle : upTo ≤ upTo') {view : Bytes}
    (hshows : body.Shows origin lo view)
    (hseen : upTo' ≤ origin + view.length ∨ origin + view.length = body.text.length)
    (hphase : phaseAfter body.n w.st.fieldCounter.phase
      ((positions body.marks.dStruct upTo upTo').map body.marks.runEnd) = none) :
    body.Blames ⟨origin, view, w.st.cellStart⟩ w.state
      (w.st.arityError view (body.base + origin)) := by
  have hsofar := h.phase
  rw [(@bounded_eq _ body origin _ _ _ h.handed.chain).2] at hsofar
  have hall : phaseAfter body.n 0
      ((positions body.marks.dStruct lo upTo').map body.marks.runEnd) = none := by
    rw [← positions_append h.lo_le hle, List.map_append, phaseAfter_append, hsofar,
      Option.bind_some, hphase]
  rw [kinds_eq h.handed.chain] at hall
  have hmisfit := @Misfit.intro _ _ ⟨origin, view, w.st.cellStart⟩ _ _ _ _ _ _ _ h.start h.handed
    hshows hseen hall (Prod.mk.eta).symm
  rw [hquote] at hmisfit
  rw [SimdCursorStepper.arityError, h.count, h.delim, h.terms.1, h.terms.2]
  exact .misfit hmisfit

theorem Queued.publish {k : ℕ} (h : body.Queued origin lo (64 * k - head) rest w)
    (hquote : body.config.quote = none) {base : ℤ} (hbase : base = 64 * (k : ℤ) - head - origin)
    {next : Bool} (hnext : next = (body.padded head).term (64 * (k + 1))) {view : Bytes}
    (hshows : body.Shows origin lo view)
    (hseen : 64 * (k + 1) - head ≤ origin + view.length ∨
      origin + view.length = body.text.length) :
    match SimdCursorStepper.publish w.st
        ⟨window (body.padded head).delim k, window (body.padded head).term k, base⟩ next view
        (body.base + origin) with
      | .error err => body.Blames ⟨origin, view, w.st.cellStart⟩ w.state err
      | .ok st => body.Queued origin lo (64 * (k + 1) - head) rest { w with st := st } ∧
          SameQueue w { w with st := st } := by
  have hn := body.n_pos
  have hchain := h.handed.chain
  have hle : 64 * k - head ≤ 64 * (k + 1) - head := by omega
  have hphase := phaseAfter_lt (by omega) h.phase
  obtain ⟨hends, hstruct⟩ := @published_masks _ body head hquote k
  rw [SimdCursorStepper.publish]
  simp only [hnext, hends, hstruct]
  rw [verify_spec (by rw [h.count]; omega) (by rw [h.count]; omega), kinds_window,
    FieldCounter.accept, h.count]
  cases hverdict : phaseAfter body.n w.st.fieldCounter.phase ((positions body.marks.dStruct
      (64 * k - head) (64 * (k + 1) - head)).map body.marks.runEnd) with
  | none => exact h.arityError hquote hle hshows hseen hverdict
  | some phase =>
      refine ⟨?_, ⟨rfl, rfl⟩⟩
      obtain ⟨hbounds, hkinds⟩ := @bounded_eq _ body origin lo (64 * k - head) rest hchain
      obtain ⟨hbounds', hkinds'⟩ := @bounded_eq _ body origin lo (64 * (k + 1) - head) rest hchain
      exact {
        delim := h.delim
        terms := h.terms
        count := rfl
        start := h.start
        shows := h.shows
        handed := h.handed
        head_le := by
          have hhead := h.head_le
          simp only [extendOffsets_window _ _ head origin k hbase, List.length_append]
          omega
        bounds := by
          simp only
          rw [extendOffsets_window _ _ head origin k hbase,
            List.drop_append_of_le_length h.head_le, h.bounds, hbounds, hbounds',
            ← List.map_append, positions_append h.lo_le hle]
        runs := by
          intro hruns i hi hterm
          simp only [Bool.or_eq_false_iff] at hruns
          rcases Nat.lt_or_ge i (64 * k - head) with hlt | hge
          · exact h.runs hruns.1 i hlt hterm
          · -- this vector's runs are what its run ends are
            have hsame := bne_eq_false_iff_eq.mp hruns.2
            have hlane := congrArg (fun m : Mask => m.getLsbD (head + i - 64 * k)) hsame
            rw [getLsbD_window_of_lt _ _ (by omega), getLsbD_window_of_lt _ _ (by omega),
              show 64 * k + (head + i - 64 * k) = head + i by omega, term_padded_eq, hterm,
              delayed, if_neg (by omega), Nat.add_sub_cancel_left] at hlane
            exact hlane
        lo_le := le_trans h.lo_le hle
        phase := by
          have hsofar := h.phase
          rw [hkinds] at hsofar
          rw [hkinds', ← positions_append h.lo_le hle, List.map_append, phaseAfter_append,
            hsofar, Option.bind_some]
          exact hverdict }

/-- The vector that is held back. -/
def held (body : Body σ) (head origin : ℕ) : ℕ → Option HeldVector
  | 0 => none
  | k + 1 => some ⟨window (body.padded head).delim k, window (body.padded head).term k,
      64 * (k : ℤ) - head - origin⟩

/-- Between two vectors. -/
structure Trails (body : Body σ) (head origin j lo : ℕ) (rest : List Cell)
    (w : Flush SimdCursorStepper σ) : Prop where
  queued : body.Queued origin lo (frontier head j) rest w
  pending : w.st.pending = body.held head origin j

theorem Queued.withPending (h : body.Queued origin lo upTo rest w)
    (pending : Option HeldVector) :
    body.Queued origin lo upTo rest { w with st := { w.st with pending := pending } } :=
  ⟨h.delim, h.terms, h.count, h.start, h.shows, h.handed, h.head_le, h.bounds, h.runs, h.lo_le,
    h.phase⟩

theorem Queued.withFlag (h : body.Queued origin lo upTo rest w) (flag : Bool) :
    body.Queued origin lo upTo rest { w with st := { w.st with needsAlignPrologue := flag } } :=
  ⟨h.delim, h.terms, h.count, h.start, h.shows, h.handed, h.head_le, h.bounds, h.runs, h.lo_le,
    h.phase⟩

theorem scanVector_eq (h : body.Queued origin lo upTo rest w) (hquote : body.config.quote = none)
    {v : Bytes} (hv : body.Reads head j v) {base : ℤ}
    (hbase : base = 64 * (j : ℤ) - head - origin) :
    some (w.st.scanVector v base) = body.held head origin (j + 1) := by
  rw [Reads, Scanner.Reads] at hv
  have hmatch : matchStructural v body.config.delimiter body.config.terminator.bytes.1
      body.config.terminator.bytes.2 none = (body.padded head).structural j := by
    rw [← hquote]
    exact hv
  rw [SimdCursorStepper.scanVector, h.delim, h.terms.1, h.terms.2, hmatch, hbase]
  rfl

/-- What is published in front of the next vector. -/
def publishHeld (st : SimdCursorStepper) (next : Bool) (view : Bytes) (totalConsumed : ℕ) :
    Except Error SimdCursorStepper :=
  st.pending.elim (.ok st) fun held =>
    SimdCursorStepper.publish { st with pending := none } held next view totalConsumed

theorem publishHeld_eq (st : SimdCursorStepper) (next : Bool) (view : Bytes)
    (totalConsumed : ℕ) : publishHeld st next view totalConsumed = match st.pending with
      | none => .ok st
      | some held =>
          SimdCursorStepper.publish { st with pending := none } held next view totalConsumed := by
  rw [publishHeld]
  cases st.pending <;> rfl

theorem Trails.publish (h : body.Trails head origin j lo rest w)
    (hquote : body.config.quote = none) {next : Bool}
    (hnext : next = (body.padded head).term (64 * j)) {view : Bytes}
    (hshows : body.Shows origin lo view)
    (hseen : frontier head (j + 1) ≤ origin + view.length ∨
      origin + view.length = body.text.length) :
    match publishHeld w.st next view (body.base + origin) with
      | .error err => body.Blames ⟨origin, view, w.st.cellStart⟩ w.state err
      | .ok st => body.Queued origin lo (frontier head (j + 1)) rest { w with st := st } ∧
          st.needsAlignPrologue = w.st.needsAlignPrologue := by
  rw [publishHeld, h.pending]
  cases j with
  | zero => exact ⟨h.queued, rfl⟩
  | succ k =>
      have hqueued : body.Queued origin lo (64 * k - head) rest w := h.queued
      have hpublish := (hqueued.withPending none).publish hquote rfl hnext hshows hseen
      rw [held, Option.elim_some]
      split at hpublish
      · next hpublished =>
          rw [hpublished]
          exact hpublish
      · next st hpublished =>
          rw [hpublished]
          refine ⟨hpublish.1, ?_⟩
          have hst := hpublish.2.st
          simp only at hst
          rw [hst]

/-- One more vector. -/
theorem Trails.advance (h : body.Trails head origin j lo rest w)
    (hquote : body.config.quote = none) {v : Bytes} (hv : body.Reads head j v) {base : ℤ}
    (hbase : base = 64 * (j : ℤ) - head - origin) {view : Bytes}
    (hshows : body.Shows origin lo view)
    (hseen : frontier head (j + 1) ≤ origin + view.length ∨
      origin + view.length = body.text.length) :
    match publishHeld w.st (lsb (w.st.scanVector v base).term) view (body.base + origin) with
      | .error err => body.Blames ⟨origin, view, w.st.cellStart⟩ w.state err
      | .ok st => body.Trails head origin (j + 1) lo rest
            { w with st := { st with pending := some (w.st.scanVector v base) } } ∧
          st.needsAlignPrologue = w.st.needsAlignPrologue := by
  have hscan := scanVector_eq h.queued hquote hv hbase
  rw [held] at hscan
  have hnext : lsb (w.st.scanVector v base).term = (body.padded head).term (64 * j) := by
    rw [Option.some.inj hscan, lsb_window]
  have hpublish := h.publish hquote hnext hshows hseen
  generalize publishHeld w.st (lsb (w.st.scanVector v base).term) view (body.base + origin) =
    published at hpublish
  cases published with
  | error err => exact hpublish
  | ok st => exact ⟨⟨hpublish.1.withPending _, hscan⟩, hpublish.2⟩

/-- What the loop does not need any more goes. -/
theorem Queued.dropPrefix (h : body.Queued origin lo upTo rest w) (rHead : ℕ) :
    body.Queued origin lo upTo rest { w with
      st := { w.st with bounds := w.st.bounds.drop w.head }
      head := 0
      rHead := rHead } :=
  ⟨h.delim, h.terms, h.count, h.start, h.shows, h.handed, Nat.zero_le _, h.bounds, h.runs, h.lo_le,
    h.phase⟩

/-- The flag that the prologue clears, and the size of the buffer. -/
structure SameSize (w w' : Flush SimdCursorStepper σ) : Prop where
  needsAlignPrologue : w'.st.needsAlignPrologue = w.st.needsAlignPrologue
  length : w'.buf.length = w.buf.length

theorem SameSize.trans {w w' w'' : Flush SimdCursorStepper σ} (h : SameSize w w')
    (h' : SameSize w' w'') : SameSize w w'' :=
  ⟨h'.needsAlignPrologue.trans h.needsAlignPrologue, h'.length.trans h.length⟩

theorem SameQueue.sameSize {w w' : Flush SimdCursorStepper σ} (h : SameQueue w w') :
    SameSize w w' ∧ w'.st.pending = w.st.pending := by
  refine ⟨⟨?_, h.length⟩, ?_⟩ <;> rw [h.st]

/-- What the loop over the vectors comes to. -/
def Walked (body : Body σ) (head origin lo : ℕ) (ctx : StepCtx)
    (w : Flush SimdCursorStepper σ) :
    ℕ × Flush SimdCursorStepper σ × Option StepResult → Prop
  | (_, w', some result) =>
      body.Ended ⟨origin, w'.buf.take ctx.scanEnd, w'.st.cellStart⟩ w'.state result
  | (cursor', w', none) => ∃ j' lo' rest', lo ≤ lo' ∧ body.Trails head origin j' lo' rest' w' ∧
      64 * j' = head + origin + cursor' ∧ cursor' ≤ ctx.scanEnd ∧ ctx.scanEnd < cursor' + 64 ∧
      SameSize w w'

theorem Walked.of_sameSize {w' : Flush SimdCursorStepper σ} (hsame : SameSize w w') {lo' : ℕ}
    (hlo : lo ≤ lo') {result : ℕ × Flush SimdCursorStepper σ × Option StepResult}
    (h : body.Walked head origin lo' ctx w' result) : body.Walked head origin lo ctx w result := by
  obtain ⟨cursor', w'', _ | result⟩ := result
  · obtain ⟨j', lo'', rest', hlo', htrails, hj, hcursor, hend, hsame'⟩ := h
    exact ⟨j', lo'', rest', hlo.trans hlo', htrails, hj, hcursor, hend, hsame.trans hsame'⟩
  · exact h

/-- The vectors of a step. -/
theorem Trails.vectorLoop (hquote : body.config.quote = none) (hctx : body.StepAt origin ctx)
    (fuel : ℕ) (h : body.Trails head origin j lo rest w) (hj : 64 * j = head + origin + cursor)
    (hbuf : w.buf.length = ctx.buf.length) (hcursor : cursor ≤ ctx.scanEnd)
    (hfuel : ctx.scanEnd ≤ cursor + fuel) :
    body.Walked head origin lo ctx w
      (SimdCursorStepper.vectorLoop body.acc ctx fuel cursor w) := by
  induction fuel generalizing cursor j lo rest w with
  | zero => exact ⟨j, lo, rest, le_rfl, h, hj, hcursor, by omega, rfl, rfl⟩
  | succ fuel ih =>
      have hview := hctx.view
      have hlo := h.queued.lo_le
      have hfrontier : frontier head (j + 1) = origin + cursor := by
        rw [frontier]
        omega
      rw [frontier] at hlo
      rw [SimdCursorStepper.vectorLoop, vectorBytes]
      split_ifs with hroom
      · have hshows := h.queued.shows
        have hadvance := h.advance hquote (reads_slice hj hshows (by omega) (by omega))
          (show (cursor : ℤ) = 64 * (j : ℤ) - head - origin by omega) (hshows.take ctx.scanEnd)
          (Or.inl (by rw [hfrontier, List.length_take]; omega))
        rw [← hctx.total] at hadvance
        simp only
        split
        · next err hpublished =>
            rw [(publishHeld_eq w.st _ _ _).trans hpublished] at hadvance
            exact ⟨h.queued.handed.kept, hadvance⟩
        · next st hpublished =>
            rw [(publishHeld_eq w.st _ _ _).trans hpublished] at hadvance
            obtain ⟨htrails, hflag⟩ := hadvance
            have hsize : SameSize w { w with st := { st with
              pending := some (w.st.scanVector (slice w.buf cursor 64) cursor) } } := ⟨hflag, rfl⟩
            split_ifs with hfew
            · exact (ih htrails (by omega) hbuf hroom (by omega)).of_sameSize hsize le_rfl
            · have hflush := htrails.queued.flush hquote hctx (by rw [hfrontier]; omega) hbuf
              generalize SimdCursorStepper.flush body.acc ctx.remainingInChunk ctx.totalConsumed
                { w with st := { st with
                  pending := some (w.st.scanVector (slice w.buf cursor 64) cursor) } } = flushed
                at hflush
              obtain ⟨w', err | _ | end_⟩ := flushed
              · exact hflush ⟨origin, w'.buf.take ctx.scanEnd, w'.st.cellStart⟩
              · obtain ⟨lo', rest', hmono, hqueued, hqueue⟩ := hflush
                obtain ⟨hsize', hpending⟩ := hqueue.sameSize
                have htrails' : body.Trails head origin (j + 1) lo' rest' w' :=
                  ⟨hqueued, hpending.trans htrails.pending⟩
                have hsame := hsize.trans hsize'
                have hbuf' : w'.buf.length = ctx.buf.length := hsame.length.trans hbuf
                simp only
                split_ifs with hcompact
                · refine Walked.of_sameSize ?_ hmono (ih ⟨hqueued.dropPrefix _, htrails'.pending⟩
                    (by omega) hbuf' hroom (by omega))
                  exact ⟨hsame.1, hsame.2⟩
                · exact (ih htrails' (by omega) hbuf' hroom (by omega)).of_sameSize hsame hmono
              · exact hflush ⟨origin, w'.buf.take ctx.scanEnd, w'.st.cellStart⟩
      · exact ⟨j, lo, rest, le_rfl, h, hj, hcursor, by omega, rfl, rfl⟩

/-- The prologue holds the vector that puts the others on boundaries. -/
theorem Trails.prologue (hquote : body.config.quote = none) (hctx : body.StepAt origin ctx)
    {st : SimdCursorStepper} {state : σ}
    (h : body.Trails head origin j lo rest ⟨st, ctx.buf, 0, 0, state⟩) (hhead : head < 64)
    (hj : 64 * j = head + origin + ctx.scanStart) (hstart : ctx.scanStart ≤ ctx.scanEnd)
    (haligned : st.needsAlignPrologue = true → head = 0 ∧ origin = 0 ∧ j = 0) :
    ∃ head' j', body.Trails head' origin j' lo rest
        ⟨(SimdCursorStepper.prologue st ctx).1, ctx.buf, 0, 0, state⟩ ∧ head' < 64 ∧
      64 * j' = head' + origin + (SimdCursorStepper.prologue st ctx).2 ∧
      (SimdCursorStepper.prologue st ctx).2 ≤ ctx.scanEnd ∧
      ((SimdCursorStepper.prologue st ctx).1.needsAlignPrologue = true →
        head' = 0 ∧ origin = 0 ∧ ctx.scanEnd < 64) := by
  have hview := hctx.view
  rw [SimdCursorStepper.prologue]
  by_cases hneeds : st.needsAlignPrologue = true ∧ ctx.scanStart = 0 ∧ st.pending = none
  · obtain ⟨rfl, rfl, rfl⟩ := haligned hneeds.1
    have hmisalign := ctx.misalign.isLt
    obtain rfl : lo = 0 := Nat.le_zero.mp h.queued.lo_le
    have hpad : neutralPad st.delim st.termA st.termB none =
        neutralPad (scannerConfigOf body.config).delim (scannerConfigOf body.config).term
          (scannerConfigOf body.config).termB (scannerConfigOf body.config).quote := by
      have hdelim : st.delim = body.config.delimiter := h.queued.delim
      have hterms : st.termA = body.config.terminator.bytes.1 ∧
        st.termB = body.config.terminator.bytes.2 := h.queued.terms
      simp only [scannerConfigOf, hdelim, hterms.1, hterms.2, hquote]
    rw [if_pos hneeds]
    simp only
    split
    · next v misalign hprologue =>
        obtain ⟨rfl, rfl, hlong⟩ := headPaddedPrologue_vector hprologue
        refine ⟨ctx.misalign, 1, ⟨?_, ?_⟩, hmisalign, ?_, ?_, ?_⟩
        · rw [show frontier ctx.misalign 1 = frontier 0 0 by rw [frontier, frontier]; omega]
          have hq := h.queued
          exact ⟨hq.delim, hq.terms, hq.count, hq.start, hq.shows, hq.handed, hq.head_le, hq.bounds,
            hq.runs, hq.lo_le, hq.phase⟩
        · have hreads := reads_headPadded h.queued.shows hmisalign.le (by simp only; omega)
          rw [hpad]
          exact scanVector_eq h.queued hquote hreads (by simp)
        · simp only [vectorBytes]
          omega
        · simp only [vectorBytes]
          omega
        · intro hfalse
          cases hfalse
    · refine ⟨0, 0, ⟨h.queued.withFlag false, h.pending⟩, hhead, hj, hstart, ?_⟩
      intro hfalse
      cases hfalse
    · refine ⟨0, 0, ⟨h.queued.withFlag _, h.pending⟩, hhead, hj, hstart, ?_⟩
      intro htrue
      exact ⟨rfl, trivial, of_decide_eq_true htrue⟩
  · rw [if_neg hneeds]
    refine ⟨head, j, h, hhead, hj, hstart, fun htrue => ?_⟩
    obtain ⟨rfl, rfl, rfl⟩ := haligned htrue
    exact absurd ⟨htrue, by omega, h.pending⟩ hneeds

/-- A stepper at rest: the next vector starts at `resumeAt`, and what was there to be stepped
over ends within it. -/
structure Waits (body : Body σ) (origin lo resumeAt scanEnd : ℕ) (st : SimdCursorStepper)
    (buf : Bytes) (state : σ) : Prop where
  trails : ∃ head j rest, body.Trails head origin j lo rest ⟨st, buf, 0, 0, state⟩ ∧ head < 64 ∧
    64 * j = head + origin + resumeAt ∧
    (st.needsAlignPrologue = true → head = 0 ∧ origin = 0 ∧ j = 0)
  resume_le : resumeAt ≤ scanEnd
  near : scanEnd < resumeAt + 64

theorem cursor_step_spec (hquote : body.config.quote = none) (hctx : body.StepAt origin ctx)
    {st : SimdCursorStepper} {state : σ} {scanned : ℕ}
    (h : body.Waits origin lo ctx.scanStart scanned st ctx.buf state)
    (hscanned : scanned < ctx.scanEnd) :
    match (SimdCursorStepper.step body.acc st ctx state).result with
      | .suspended resumeAt consumed last =>
          ∃ lo', body.Waits origin lo' resumeAt ctx.scanEnd
              (SimdCursorStepper.step body.acc st ctx state).stepper
              (SimdCursorStepper.step body.acc st ctx state).buf
              (SimdCursorStepper.step body.acc st ctx state).state ∧
            lo ≤ lo' ∧
            (SimdCursorStepper.step body.acc st ctx state).buf.length = ctx.buf.length ∧
            consumed = (SimdCursorStepper.step body.acc st ctx state).stepper.cellStart ∧
            last = (SimdCursorStepper.step body.acc st ctx state).stepper.lastRecordEnd
      | result => body.Ended ⟨origin, (SimdCursorStepper.step body.acc st ctx state).buf.take
          ctx.scanEnd, (SimdCursorStepper.step body.acc st ctx state).stepper.cellStart⟩
            (SimdCursorStepper.step body.acc st ctx state).state result := by
  obtain ⟨head, j, rest, htrails, hhead, hj, haligned⟩ := h.trails
  have hstart := h.resume_le
  obtain ⟨head', j', hprologue, hhead', hj', hle, haligned'⟩ := htrails.prologue hquote hctx hhead
    hj (by omega) haligned
  rw [SimdCursorStepper.step]
  generalize SimdCursorStepper.prologue st ctx = entered at hprologue hj' hle haligned'
  obtain ⟨st', cursor⟩ := entered
  simp only at hprologue hj' hle haligned' ⊢
  have hwalked := hprologue.vectorLoop hquote hctx (ctx.scanEnd - cursor) hj' rfl hle (by omega)
  generalize SimdCursorStepper.vectorLoop body.acc ctx (ctx.scanEnd - cursor) cursor
    ⟨st', ctx.buf, 0, 0, state⟩ = walked at hwalked
  obtain ⟨cursor', w, _ | result⟩ := walked
  · obtain ⟨j'', lo', rest', hlo', htrails', hj'', hcursor, hend, hsize⟩ := hwalked
    have hflush := htrails'.queued.flushReady hquote hctx (by rw [frontier]; omega) hsize.length
    simp only
    generalize (if w.st.fieldCounter.n ≤ w.st.bounds.length - w.head then
        SimdCursorStepper.flush body.acc ctx.remainingInChunk ctx.totalConsumed w
      else (w, .ok none)) = flushed at hflush
    obtain ⟨w', err | _ | end_⟩ := flushed
    · exact hflush ⟨origin, w'.buf.take ctx.scanEnd, w'.st.cellStart⟩
    · obtain ⟨lo'', rest'', hlo'', hqueued, hqueue⟩ := hflush
      obtain ⟨hsize', hpending⟩ := hqueue.sameSize
      have hsame := hsize.trans hsize'
      refine ⟨lo'', ⟨⟨head', j'', rest'', ⟨hqueued.dropPrefix 0, hpending.trans htrails'.pending⟩,
        hhead', hj'', fun hflag => ?_⟩, hcursor, hend⟩, hlo'.trans hlo'', hsame.length, rfl, rfl⟩
      obtain ⟨hzero, horigin, hshort⟩ := haligned' (hsame.needsAlignPrologue.symm.trans hflag)
      exact ⟨hzero, horigin, by omega⟩
    · exact hflush ⟨origin, w'.buf.take ctx.scanEnd, w'.st.cellStart⟩
  · simp only
    cases result with
    | suspended => exact hwalked.elim
    | done | error => exact hwalked

end Body

end Csveee.Simd
