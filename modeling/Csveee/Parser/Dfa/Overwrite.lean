import Csveee.Lib.Agreement
import Csveee.Parser.Overwrite
import Csveee.Parser.Dfa.Buffering

/-!
# The byte automaton over overwritten fields

The fields of a record in flight lie from where it starts up to the read position.  The
stepper reads nothing in front of them any more, so what is left behind there does not matter.
-/

namespace Csveee.Dfa

open Slice

variable {σ : Type}

/-- Where the record in flight lies. -/
structure Placed (st : DfaStepper) (pos : ℕ) : Prop where
  within : SpansWithin st.fieldStart st.refs
  behind : ∀ span ∈ st.refs, st.recordBufStart ≤ span.1
  recordBufStart_le : st.recordBufStart ≤ st.fieldStart
  fieldStart_le : st.fieldStart ≤ st.writePos
  writePos_le : st.writePos ≤ pos
  spans : st.pendingSpans = []

/-- The cursor, and another buffer that is alike from the record in flight on. -/
structure Twins (length : ℕ) (cur : Cursor σ) (buf : Bytes) : Prop where
  same : SameOn (fun i => cur.st.recordBufStart ≤ i) cur.buf buf
  placed : Placed cur.st cur.pos
  length : cur.buf.length = length

/-- A move comes to the same over the other buffer. -/
def MovesAlike (length scanEnd : ℕ) (out out' : Cursor σ × Option StepResult) : Prop :=
  ∃ buf, out' = ({ out.1 with buf := buf }, out.2) ∧
    match out.2 with
    | none => Twins length out.1 buf ∧ out.1.pos ≤ scanEnd
    | some (.suspended ..) => False
    | some _ => True

section Moves

variable {config : StepperConfig} {acc acc' : Accumulator σ} {length scanEnd : ℕ}
  {cur : Cursor σ} {buf : Bytes}

theorem Twins.scanRun {needles : StructuralNeedles} {endian : Endian} (h : Twins length cur buf)
    (hwf : needles.WellFormed endian) (hpos : cur.pos ≤ scanEnd) (hend : scanEnd ≤ length) :
    let out := cur.st.scanRun endian needles scanEnd cur.buf cur.pos
    ∃ buf', cur.st.scanRun endian needles scanEnd buf cur.pos = (out.1, buf', out.2.2) ∧
      Twins length { cur with st := out.1, buf := out.2.1, pos := out.2.2 } buf' ∧
        out.2.2 ≤ scanEnd := by
  obtain ⟨hsame, hplaced, hlength⟩ := h
  have hlength' := hsame.length
  have hrecord := hplaced.recordBufStart_le
  have hfield := hplaced.fieldStart_le
  have hwrite := hplaced.writePos_le
  have hread : ∀ len, slice buf cur.pos len = slice cur.buf cur.pos len :=
    fun len => hsame.slice fun i hi _ => by omega
  have hhay : (slice cur.buf cur.pos (scanEnd - cur.pos)).length = scanEnd - cur.pos :=
    length_slice_of_le _ _ _ (by omega)
  have hk := (StructuralNeedles.find_spec hwf (slice cur.buf cur.pos (scanEnd - cur.pos))).1
  simp only [scanRun_eq endian needles scanEnd cur.st cur.buf cur.pos hpos (by omega),
    scanRun_eq endian needles scanEnd cur.st buf cur.pos hpos (by omega), hread]
  generalize (needles.find endian (slice cur.buf cur.pos (scanEnd - cur.pos))).getD
    (slice cur.buf cur.pos (scanEnd - cur.pos)).length = k at hk
  have hlenk : (slice cur.buf cur.pos k).length = k := length_slice_of_le _ _ _ (by omega)
  refine ⟨_, rfl, ⟨?_, ?_, ?_⟩, by omega⟩
  · simp only
    split_ifs
    · exact hsame.overlay (by omega)
    · exact hsame
  · exact {
      within := hplaced.within
      behind := hplaced.behind
      recordBufStart_le := hrecord
      fieldStart_le := by
        simp only
        omega
      writePos_le := by
        simp only
        omega
      spans := hplaced.spans }
  · simp only
    split_ifs
    · rw [length_overlay (by omega), hlength]
    · exact hlength

theorem Twins.enterState (h : Twins length cur buf) (hsound : SearchSound config.dfa)
    {ctx : StepCtx} (hpos : cur.pos ≤ ctx.scanEnd) (hend : ctx.scanEnd ≤ length) :
    MovesAlike length ctx.scanEnd (enterState config ctx cur)
      (enterState config ctx { cur with buf := buf }) := by
  rw [Dfa.enterState, Dfa.enterState]
  simp only
  cases hstate : cur.st.dfaState with
  | inField =>
      obtain ⟨buf', hrun, htwins, hle⟩ := h.scanRun hsound.inField hpos hend
      simp only [hrun]
      exact ⟨buf', rfl, ⟨htwins, hle⟩⟩
  | inQuotedField =>
      obtain ⟨buf', hrun, htwins, hle⟩ := h.scanRun hsound.inQuoted hpos hend
      simp only [hrun]
      exact ⟨buf', rfl, ⟨htwins, hle⟩⟩
  | recordStart =>
      obtain ⟨hsame, hplaced, hlength⟩ := h
      have hrecord := hplaced.recordBufStart_le
      have hfield := hplaced.fieldStart_le
      have hwrite := hplaced.writePos_le
      have hread : slice buf cur.pos (ctx.scanEnd - cur.pos) =
          slice cur.buf cur.pos (ctx.scanEnd - cur.pos) :=
        hsame.slice fun i hi _ => by omega
      have hle := (List.takeWhile_sublist (l := slice cur.buf cur.pos (ctx.scanEnd - cur.pos))
        fun b => !config.dfa.recordStartStructural b).length_le
      rw [length_slice_of_le _ _ _ (by omega)] at hle
      simp only [hread]
      split_ifs
      · exact ⟨buf, rfl, trivial⟩
      · refine ⟨buf, rfl, ⟨⟨hsame, ?_, hlength⟩, by simp only; omega⟩⟩
        exact ⟨hplaced.within, hplaced.behind, hrecord, hfield, by simp only; omega, hplaced.spans⟩
  | _ => exact ⟨buf, rfl, ⟨h, hpos⟩⟩

/-- The record in flight is handed out alike, whatever is left behind of it. -/
theorem emitInFlight_alike (hverdicts : acc.SameVerdicts acc') {limit : ℕ}
    (hsame : SameOn (fun i => cur.st.recordBufStart ≤ i) cur.buf buf)
    (hbehind : ∀ span ∈ cur.st.refs, cur.st.recordBufStart ≤ span.1)
    (hwithin : SpansWithin limit cur.st.refs) (hlimit : limit ≤ cur.buf.length)
    (hrecord : cur.st.recordBufStart ≤ limit) :
    ∃ buf', emitInFlight config acc' { cur with buf := buf } =
        ({ (emitInFlight config acc cur).1 with buf := buf' },
          (emitInFlight config acc cur).2) ∧
      ((emitInFlight config acc cur).2 = .ok () →
        SameOn (fun i => limit ≤ i) (emitInFlight config acc cur).1.buf buf' ∧
          Emitted limit cur (emitInFlight config acc cur).1) := by
  have hrecords : (cur.st.refs.map fun span => slice buf span.1 span.2) =
      cur.st.refs.map fun span => slice cur.buf span.1 span.2 := by
    apply List.map_congr_left
    intro span hspan
    have hthis := hbehind span hspan
    exact hsame.slice fun i hi _ => by omega
  obtain ⟨hstate, hresult⟩ := hverdicts cur.state
    (cur.st.refs.map fun span => slice cur.buf span.1 span.2)
  rw [emitInFlight, emitInFlight]
  simp only [emitRecord, hrecords, hstate, hresult]
  cases cur.st.checkArity config with
  | error err => exact ⟨buf, rfl, fun hok => by cases hok⟩
  | ok =>
      refine ⟨_, rfl, fun _ => ?_⟩
      simp only
      generalize (acc cur.state _).fields = news
      generalize (acc' cur.state _).fields = news'
      obtain ⟨hlength, hdrop⟩ := writeBack_spec cur.st.refs news cur.buf hwithin hlimit
      obtain ⟨hlength', hdrop'⟩ := writeBack_spec cur.st.refs news' buf hwithin
        (hsame.length ▸ hlimit)
      have hleft := SameOn.of_drop hlength hdrop
      have hright := SameOn.of_drop hlength' hdrop'
      refine ⟨⟨by rw [hlength', hlength, hsame.length], fun i hi => ?_⟩, rfl, hlength, hdrop, rfl⟩
      rw [hright.values i hi, hsame.values i (le_trans hrecord hi), hleft.values i hi]

theorem Placed.pushField {st : DfaStepper} {pos : ℕ} (h : Placed st pos) (config : StepperConfig)
    (buf : Bytes) :
    SpansWithin st.writePos (st.pushField config buf).refs ∧
      ∀ span ∈ (st.pushField config buf).refs, st.recordBufStart ≤ span.1 := by
  have hrecord := h.recordBufStart_le
  have hfield := h.fieldStart_le
  have htrim := (trimSpan_spec buf st.fieldStart (st.writePos - st.fieldStart)).2
  rw [DfaStepper.pushField]
  constructor
  · refine (h.within.mono hfield).append fun span hspan => ?_
    rw [List.mem_singleton] at hspan
    split_ifs at hspan <;> rw [hspan] <;> simp only <;> omega
  · intro span hspan
    rcases List.mem_append.mp hspan with hold | hnew
    · exact h.behind span hold
    · rw [List.mem_singleton] at hnew
      split_ifs at hnew <;> rw [hnew] <;> simp only <;> omega

/-- The span of a field is the same over both buffers. -/
theorem pushField_alike {st : DfaStepper} {buf buf' : Bytes} (config : StepperConfig)
    (hrecord : st.recordBufStart ≤ st.fieldStart)
    (hsame : SameOn (fun i => st.recordBufStart ≤ i) buf buf') :
    st.pushField config buf' = st.pushField config buf := by
  have hread : slice buf' st.fieldStart (st.writePos - st.fieldStart) =
      slice buf st.fieldStart (st.writePos - st.fieldStart) :=
    hsame.slice fun i hi _ => by omega
  simp only [DfaStepper.pushField, trimSpan, hread]

theorem Twins.applyAction (h : Twins length cur buf) (hverdicts : acc.SameVerdicts acc')
    (hpos : cur.pos ≤ scanEnd) (hend : scanEnd ≤ length) (remaining totalConsumed : ℕ)
    (s : State) :
    MovesAlike length scanEnd (applyAction config acc remaining totalConsumed s cur)
      (applyAction config acc' remaining totalConsumed s { cur with buf := buf }) := by
  obtain ⟨hsame, hplaced, hlength⟩ := h
  have hrecord := hplaced.recordBufStart_le
  have hfield := hplaced.fieldStart_le
  have hwrite := hplaced.writePos_le
  obtain ⟨hwithin, hbehind⟩ := hplaced.pushField config cur.buf
  rw [Dfa.applyAction, Dfa.applyAction]
  simp only [pushField_alike config hrecord hsame]
  split_ifs with herror hother
  · exact ⟨buf, rfl, trivial⟩
  · refine ⟨buf, rfl, ⟨⟨hsame, ?_, hlength⟩, hpos⟩⟩
    exact ⟨hwithin.mono hwrite, hbehind, hrecord.trans (hfield.trans hwrite), le_rfl, le_rfl,
      hplaced.spans⟩
  · obtain ⟨buf', hemit, hmore⟩ := @emitInFlight_alike _ config acc acc'
      { cur with st := (cur.st.pushField config cur.buf).startFieldAt totalConsumed cur.pos } buf
      hverdicts cur.pos hsame hbehind (hwithin.mono hwrite) (by simp only; omega)
      (hrecord.trans (hfield.trans hwrite))
    simp only at hemit
    rw [hemit]
    cases hresult : emitInFlight config acc { cur with
        st := (cur.st.pushField config cur.buf).startFieldAt totalConsumed cur.pos } with
    | mk out result =>
        rw [hresult] at hmore
        cases result with
        | error err => exact ⟨buf', rfl, trivial⟩
        | ok =>
            obtain ⟨hsame', hemitted⟩ := hmore rfl
            have hpos' : out.pos = cur.pos := hemitted.pos
            have hrefs : out.st.refs = [] := congrArg DfaStepper.refs hemitted.st
            simp only
            split_ifs
            · exact ⟨buf', rfl, trivial⟩
            · refine ⟨buf', rfl, ⟨⟨?_, ?_, hemitted.length.trans hlength⟩, ?_⟩⟩
              · simp only [DfaStepper.startFieldAt, hpos']
                exact hsame'
              · refine ⟨?_, ?_, le_rfl, le_rfl, le_rfl,
                  (congrArg DfaStepper.pendingSpans hemitted.st).trans hplaced.spans⟩
                · intro span hspan
                  simp only [DfaStepper.startFieldAt, hrefs, List.not_mem_nil] at hspan
                · intro span hspan
                  simp only [DfaStepper.startFieldAt, hrefs, List.not_mem_nil] at hspan
              · simp only [hpos']
                exact hpos

theorem Twins.takeByte (h : Twins length cur buf) (hpos : cur.pos < length) (trans : Transition)
    (byte : Byte) : ∃ buf', takeByte trans byte { cur with buf := buf } =
      { takeByte trans byte cur with buf := buf' } ∧ Twins length (takeByte trans byte cur) buf' ∧
        (takeByte trans byte cur).pos = cur.pos + 1 := by
  obtain ⟨hsame, hplaced, hlength⟩ := h
  have hlength' := hsame.length
  have hrecord := hplaced.recordBufStart_le
  have hfield := hplaced.fieldStart_le
  have hwrite := hplaced.writePos_le
  rw [Dfa.takeByte, Dfa.takeByte]
  cases trans.hasOutput with
  | false =>
      exact ⟨buf, rfl, ⟨hsame, ⟨hplaced.within, hplaced.behind, hrecord, hfield,
        Nat.le_succ_of_le hwrite, hplaced.spans⟩, hlength⟩, rfl⟩
  | true =>
      refine ⟨buf.set cur.st.writePos byte, rfl, ⟨?_, ?_, ?_⟩, rfl⟩
      · simp only [if_true]
        rw [set_eq_overlay (by omega : cur.st.writePos < cur.buf.length) byte,
          set_eq_overlay (by omega : cur.st.writePos < buf.length) byte]
        exact hsame.overlay (by simp only [List.length_singleton]; omega)
      · exact ⟨hplaced.within, hplaced.behind, hrecord, Nat.le_succ_of_le hfield,
          Nat.succ_le_succ hwrite, hplaced.spans⟩
      · simp only [if_true, List.length_set]
        exact hlength

theorem Twins.stepByte (h : Twins length cur buf) (hverdicts : acc.SameVerdicts acc')
    {ctx : StepCtx} (hpos : cur.pos < ctx.scanEnd) (hend : ctx.scanEnd ≤ length) (byte : Byte) :
    MovesAlike length ctx.scanEnd (stepByte config acc ctx byte cur)
      (stepByte config acc' ctx byte { cur with buf := buf }) := by
  rw [stepByte_eq, stepByte_eq]
  simp only
  obtain ⟨buf', htake, htwins, hpos'⟩ := h.takeByte (by omega)
    (config.dfa.transition cur.st.dfaState byte) byte
  rw [htake]
  split_ifs
  · exact htwins.applyAction hverdicts (by omega) hend _ _ _
  · refine ⟨buf', rfl, ⟨⟨htwins.same, ?_, htwins.length⟩, by simp only; omega⟩⟩
    have hplaced := htwins.placed
    exact ⟨hplaced.within, hplaced.behind, hplaced.recordBufStart_le, hplaced.fieldStart_le,
      hplaced.writePos_le, hplaced.spans⟩

theorem stepLoop_alike (hverdicts : acc.SameVerdicts acc') (hsound : SearchSound config.dfa)
    {ctx : StepCtx} (hend : ctx.scanEnd ≤ length) (fuel : ℕ) (cur : Cursor σ) (buf : Bytes)
    (h : Twins length cur buf) (hpos : cur.pos ≤ ctx.scanEnd) :
    MovesAlike length ctx.scanEnd (stepLoop config acc ctx fuel cur)
      (stepLoop config acc' ctx fuel { cur with buf := buf }) := by
  induction fuel generalizing cur buf with
  | zero => exact ⟨buf, rfl, ⟨h, hpos⟩⟩
  | succ fuel ih =>
      rw [stepLoop, stepLoop]
      simp only
      by_cases hmore : cur.pos < ctx.scanEnd
      · rw [if_pos hmore, if_pos hmore]
        obtain ⟨buf', henter, hentered⟩ := h.enterState hsound hpos hend
        rw [henter]
        generalize enterState config ctx cur = entered at hentered
        obtain ⟨cur', _ | result⟩ := entered
        · obtain ⟨htwins, hle⟩ := hentered
          simp only at htwins hle ⊢
          by_cases hdone : ctx.scanEnd ≤ cur'.pos
          · rw [if_pos hdone, if_pos hdone]
            exact ⟨buf', rfl, ⟨htwins, hle⟩⟩
          · rw [if_neg hdone, if_neg hdone]
            have hplaced := htwins.placed
            have hrecord := hplaced.recordBufStart_le
            have hfield := hplaced.fieldStart_le
            have hwrite := hplaced.writePos_le
            rw [htwins.same.values cur'.pos (by omega)]
            cases cur'.buf[cur'.pos]? with
            | none => exact ⟨buf', rfl, ⟨htwins, hle⟩⟩
            | some byte =>
                obtain ⟨buf'', hstep, hstepped⟩ := @Twins.stepByte _ config _ _ _ _ _ htwins
                  hverdicts _ (by omega) hend byte
                simp only
                rw [hstep]
                generalize Dfa.stepByte config acc ctx byte cur' = stepped at hstepped
                obtain ⟨cur'', _ | result⟩ := stepped
                · obtain ⟨htwins', hle'⟩ := hstepped
                  exact ih cur'' buf'' htwins' hle'
                · exact ⟨buf'', rfl, hstepped⟩
        · exact ⟨buf', rfl, hentered⟩
      · rw [if_neg hmore, if_neg hmore]
        exact ⟨buf, rfl, ⟨h, hpos⟩⟩

/-- The loop works on the cursor's buffer. -/
theorem stepLoop_buf (ctx : StepCtx) (buf : Bytes) (fuel : ℕ) (cur : Cursor σ) :
    stepLoop config acc { ctx with buf := buf } fuel cur = stepLoop config acc ctx fuel cur := by
  induction fuel generalizing cur with
  | zero => rfl
  | succ fuel ih =>
      rw [stepLoop, stepLoop]
      simp only [ih]
      rfl

end Moves

section Runs

variable {config : StepperConfig} {acc acc' : Accumulator σ}

/-- Two runs between two steps. -/
structure AwaitsAlike (driver : ChunkDriver) (pending : Bytes) (st : DfaStepper) : Prop where
  same : SameOn (fun i => st.recordBufStart ≤ i) driver.reader.pending pending
  placed : Placed st.resume driver.resumeAt
  refs : st.refs = []
  resumeAt_le : driver.resumeAt ≤ driver.validated
  validated_le : driver.validated ≤ driver.reader.pending.length

theorem AwaitsAlike.record_le {driver : ChunkDriver} {pending : Bytes} {st : DfaStepper}
    (h : AwaitsAlike driver pending st) : st.recordBufStart ≤ driver.resumeAt :=
  h.placed.recordBufStart_le.trans (h.placed.fieldStart_le.trans h.placed.writePos_le)

/-- The record in flight, once what lies in front of it is consumed. -/
theorem Placed.consume {st : DfaStepper} {pos n : ℕ} (h : Placed st pos)
    (hn : n ≤ st.recordBufStart ∨ st.refs = [] ∧ st.fieldStart = st.writePos) :
    Placed (st.suspend.consume n).resume (pos - n) := by
  have hrecord := h.recordBufStart_le
  have hfield := h.fieldStart_le
  have hwrite := h.writePos_le
  rw [consume_suspend_resume h.spans]
  refine ⟨?_, ?_, ?_, ?_, ?_, h.spans⟩
  · intro span hspan
    obtain ⟨old, hold, rfl⟩ := List.mem_map.mp hspan
    have hbehind := h.behind old hold
    have hwithin := h.within old hold
    rcases hn with hn | ⟨hrefs, -⟩
    · simp only
      omega
    · rw [hrefs] at hold
      exact absurd hold List.not_mem_nil
  · intro span hspan
    obtain ⟨old, hold, rfl⟩ := List.mem_map.mp hspan
    have hbehind := h.behind old hold
    simp only
    omega
  · simp only
    omega
  · simp only
    omega
  · simp only
    omega

/-- What is consumed is not needed by either run. -/
theorem Twins.awaits {fresh : ChunkDriver} {cur : Cursor σ} {buf pending : Bytes}
    (h : Twins fresh.reader.available cur buf) (hpos : cur.pos ≤ fresh.validated)
    (hview : fresh.validated ≤ fresh.reader.available)
    (havail : fresh.reader.available ≤ fresh.reader.pending.length)
    (hpending : SameOn (fun i => fresh.reader.available ≤ i) fresh.reader.pending pending) :
    let n := cur.st.suspend.consumable cur.pos
    n ≤ cur.pos ∧ AwaitsAlike (fresh.advance cur.buf cur.pos n)
      ((buf ++ pending.drop fresh.reader.available).drop n)
      (if 0 < n then cur.st.suspend.consume n else cur.st.suspend) := by
  obtain ⟨hsame, hplaced, hlength⟩ := h
  have hrecord := hplaced.recordBufStart_le
  have hfield := hplaced.fieldStart_le
  have hwrite := hplaced.writePos_le
  have hneeded : cur.st.suspend.consumable cur.pos ≤ cur.pos ∧
      (cur.st.suspend.consumable cur.pos ≤ cur.st.recordBufStart ∨
        cur.st.refs = [] ∧ cur.st.fieldStart = cur.st.writePos) := by
    rw [DfaStepper.consumable]
    simp only [DfaStepper.suspend, hplaced.spans, List.nil_append, Bool.and_eq_true,
      List.isEmpty_iff, beq_iff_eq]
    split_ifs with hidle
    · exact ⟨le_rfl, Or.inr hidle⟩
    · exact ⟨by omega, Or.inl le_rfl⟩
  simp only
  generalize cur.st.suspend.consumable cur.pos = n at hneeded
  obtain ⟨hle, hneeded⟩ := hneeded
  have hst : (if 0 < n then cur.st.suspend.consume n else cur.st.suspend) =
      cur.st.suspend.consume n := by
    split_ifs with hn
    · rfl
    · rw [show n = 0 by omega, consume_zero]
  rw [hst]
  refine ⟨hle, ⟨?_, hplaced.consume hneeded, rfl, ?_, ?_⟩⟩
  · rw [← hlength] at hpending
    have hjoined := (hsame.append_drop hpending).drop n
    rw [hlength] at hjoined
    refine hjoined.mono fun i hi => ?_
    simp only [DfaStepper.consume, DfaStepper.suspend] at hi
    omega
  · simp only [ChunkDriver.advance]
    omega
  · rw [ChunkDriver.length_advance havail hlength]
    simp only [ChunkDriver.advance]
    omega

theorem finalize_alike (hverdicts : acc.SameVerdicts acc') {ctx : StepCtx} {st : DfaStepper}
    {buf : Bytes} (hsame : SameOn (fun i => st.recordBufStart ≤ i) ctx.buf buf) {pos : ℕ}
    (hplaced : Placed st.resume pos) (hpos : pos ≤ ctx.buf.length) (state : σ) :
    finalize config acc' st { ctx with buf := buf } state = finalize config acc st ctx state := by
  have hrecord := hplaced.recordBufStart_le
  have hfield := hplaced.fieldStart_le
  have hwrite := hplaced.writePos_le
  obtain ⟨hwithin, hbehind⟩ := hplaced.pushField config ctx.buf
  have hpush := @pushField_alike st.resume ctx.buf buf config hrecord hsame
  obtain ⟨buf', hemit, -⟩ := @emitInFlight_alike _ config acc acc'
    ⟨st.resume.pushField config ctx.buf, ctx.buf, ctx.scanEnd, state⟩ buf hverdicts
    st.resume.writePos hsame hbehind hwithin (by simp only; omega) (hrecord.trans hfield)
  rw [finalize, finalize]
  cases st.dfaState with
  | fieldStart | inField | afterClosingQuote =>
      simp only [hpush]
      simp only at hemit
      rw [hemit]
      generalize emitInFlight config acc ⟨st.resume.pushField config ctx.buf, ctx.buf,
        ctx.scanEnd, state⟩ = emitted
      obtain ⟨cur, err | _⟩ := emitted <;> rfl
  | _ => rfl

/-- A step over another buffer. -/
theorem step_over (config : StepperConfig) (acc : Accumulator σ) (st : DfaStepper) (ctx : StepCtx)
    (buf : Bytes) (state : σ) :
    (stepper config acc).step st { ctx with buf := buf } state =
      match stepLoop config acc ctx (ctx.scanEnd - ctx.scanStart)
          ⟨st.resume, buf, ctx.scanStart, state⟩ with
      | (cur, some result) => ⟨cur.st, cur.buf, cur.state, result⟩
      | (cur, none) => ⟨cur.st.suspend, cur.buf, cur.state, .suspended cur.pos
          (cur.st.suspend.consumable cur.pos) cur.st.suspend.lastRecordEnd⟩ := by
  rw [← stepLoop_buf ctx buf]
  rfl

/-- A step comes to the same over the other buffer. -/
theorem step_alike (hverdicts : acc.SameVerdicts acc') (hsound : SearchSound config.dfa)
    {length : ℕ} {ctx : StepCtx} {st : DfaStepper} {buf : Bytes} {state : σ}
    (h : Twins length ⟨st.resume, ctx.buf, ctx.scanStart, state⟩ buf)
    (hstart : ctx.scanStart ≤ ctx.scanEnd) (hend : ctx.scanEnd ≤ length) :
    let out := (stepper config acc).step st ctx state
    let out' := (stepper config acc').step st { ctx with buf := buf } state
    out' = { out with buf := out'.buf } ∧
      ∀ resumeAt consumable last, out.result = .suspended resumeAt consumable last →
        ∃ cur, Twins length cur out'.buf ∧ cur.pos ≤ ctx.scanEnd ∧
          out = ⟨cur.st.suspend, cur.buf, cur.state, .suspended cur.pos
            (cur.st.suspend.consumable cur.pos) cur.st.suspend.lastRecordEnd⟩ := by
  have hleft := step_over config acc st ctx ctx.buf state
  have hright := step_over config acc' st ctx buf state
  obtain ⟨buf', hloop, hmore⟩ := @stepLoop_alike _ config _ _ _ hverdicts hsound _ hend
    (ctx.scanEnd - ctx.scanStart) _ _ h hstart
  simp only at hloop
  rw [hloop] at hright
  simp only
  rw [hright, hleft]
  generalize stepLoop config acc ctx (ctx.scanEnd - ctx.scanStart)
    ⟨st.resume, ctx.buf, ctx.scanStart, state⟩ = out at hmore
  obtain ⟨cur, _ | result⟩ := out
  · exact ⟨rfl, fun _ _ _ _ => ⟨cur, hmore.1, hmore.2, rfl⟩⟩
  · refine ⟨rfl, fun resumeAt consumable last hresult => ?_⟩
    simp only at hresult
    rw [hresult] at hmore
    exact hmore.elim

/-- The driver comes to the same, whatever is left behind in the fields. -/
theorem run_alike (hverdicts : acc.SameVerdicts acc') (hsound : SearchSound config.dfa)
    (output : Output) (reader : ChunkReader) (base : ℕ) (state : σ) :
    ChunkDriver.run (stepper config acc') output (.new reader base) (.new base) state =
      ChunkDriver.run (stepper config acc) output (.new reader base) (.new base) state := by
  refine @ChunkDriver.loop_alike _ _ (stepper config acc) (stepper config acc') output
    (fun driver pending st _ _ => AwaitsAlike driver pending st) ?_ ?_ ?_ _
    (.new reader base) reader.pending _ state none (Nat.zero_le _) ?_ ?_
  · intro driver pending st state last h
    have hle := h.record_le
    have hresume := h.resumeAt_le
    refine ⟨h.same.length, List.ext_getElem? fun i => ?_⟩
    rw [List.getElem?_drop, List.getElem?_drop]
    exact h.same.values _ (by omega)
  · intro driver fresh pending st state last h hfresh hstuck hshort
    have hbuffer : SameOn (fun i => st.recordBufStart ≤ i) fresh.stepCtx.buf
        (pending.take fresh.reader.available) := by
      have hsame := h.same
      rw [← hfresh.pending] at hsame
      exact SameOn.take hsame _
    have hview := (hfresh.validated_le h.validated_le).1
    have hresume := h.resumeAt_le
    exact finalize_alike hverdicts hbuffer h.placed (by
      have hfilled := hfresh.filled
      have havail := hfresh.available_le
      have hlen := ChunkDriver.length_buffer_of_le havail
      have hle := h.validated_le
      simp only [ChunkDriver.stepCtx]
      omega) state
  · intro driver fresh pending st state last h hfresh hfresh' hprogress
    have havail := hfresh.available_le
    have hlen := ChunkDriver.length_buffer_of_le havail
    have hview := (hfresh.validated_le h.validated_le).2
    have hresume := h.resumeAt_le
    have hrecord := h.record_le
    have hpending : SameOn (fun i => st.recordBufStart ≤ i) fresh.reader.pending pending := by
      rw [hfresh.pending]
      exact h.same
    have htwins : Twins fresh.reader.available
        (⟨st.resume, fresh.reader.buffer, fresh.resumeAt, state⟩ : Cursor σ)
        (pending.take fresh.reader.available) :=
      ⟨SameOn.take hpending _, by rw [hfresh.resumeAt]; exact h.placed, hlen⟩
    obtain ⟨hout, hmore⟩ := @step_alike _ config _ _ hverdicts hsound _ fresh.stepCtx _ _ _ htwins
      (by simp only [ChunkDriver.stepCtx, hfresh.resumeAt]; omega) hview
    refine ⟨hout, fun resumeAt consumable last' hresult => ?_⟩
    obtain ⟨cur, htwins', hpos, hcur⟩ := hmore resumeAt consumable last' hresult
    rw [hcur] at hresult ⊢
    cases hresult
    obtain ⟨hn, hawaits⟩ := htwins'.awaits hpos hview havail (hpending.mono fun i hi => by omega)
    exact ⟨hn.trans hpos, htwins'.length, fun _ => rfl, hawaits⟩
  · simp only [ChunkDriver.new]
    omega
  · exact {
      same := .refl _ _
      placed := ⟨fun _ hspan => absurd hspan List.not_mem_nil,
        fun _ hspan => absurd hspan List.not_mem_nil, le_rfl, le_rfl, le_rfl, rfl⟩
      refs := rfl
      resumeAt_le := le_rfl
      validated_le := Nat.zero_le _ }

end Runs

end Csveee.Dfa
