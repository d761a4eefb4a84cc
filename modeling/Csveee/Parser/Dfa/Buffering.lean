import Csveee.Parser.Dfa.Parser
import Csveee.Parser.Dfa.Simulation
import Csveee.Parser.Validation

/-!
# The body parse does not depend on buffering

However the reader refills its buffer, the driver around the stepper comes to
what the reference comes to on the bytes of the source, as far as they pass the
validation.
-/

namespace Csveee.Dfa

open Slice

section Driver

variable {σ : Type} (config : StepperConfig) (acc : Accumulator σ) (chunkEnd base : ℕ)
  (text : Bytes) (origin : RefState σ)

/-- Between two steps: the suspended stepper, resumed at the driver's position,
holds what the reference holds after the validated bytes. -/
structure Resumes (driver : ChunkDriver) (st : DfaStepper) (state : σ) (last : Option ℕ)
    (s : RefState σ) : Prop where
  sim : Sim driver.reader.pending driver.resumeAt st.resume s
  refs : st.refs = []
  begun : s.dfaState ≠ .recordStart → Begun st s
  state : state = s.state
  last : last = s.lastRecordEnd
  resumeAt : driver.resumeAt = driver.validated
  chunkRemaining : driver.reader.chunkRemaining = chunkEnd - driver.totalConsumed
  after : origin.after config acc chunkEnd base (text.take (driver.passed base)) = .inl s

/-- What the driver makes of a source: what the reference makes of the bytes that passed the
validation, if it stops on them or they are all there are; otherwise the driver failed on
what follows them. -/
inductive Ends (output : Output) (schedule : Schedule) : BodyOutcome σ → Prop
  | halted {v : ℕ} {outcome : BodyOutcome σ} (hreached : Reached output text v)
      (hafter : origin.after config acc chunkEnd base (text.take v) = .inr outcome) :
      Ends output schedule outcome
  | finished {s : RefState σ} (hreached : Reached output text text.length)
      (hafter : origin.after config acc chunkEnd base text = .inl s) :
      Ends output schedule (s.finish config acc (base + text.length))
  | failed {v : ℕ} {s : RefState σ} {err : IoError} (hreached : Reached output text v)
      (hafter : origin.after config acc chunkEnd base (text.take v) = .inl s)
      (hfails : schedule.FailsWith err) : Ends output schedule (s.state, .error (.io err))
  | refused {v rel : ℕ} {s : RefState σ} (hreached : Reached output text v)
      (hafter : origin.after config acc chunkEnd base (text.take v) = .inl s)
      (hrefuses : Refuses output text v rel) :
      Ends output schedule (s.state, .error (.utf8 (base + v + rel)))

theorem consume_suspend_resume {st : DfaStepper} (hspans : st.pendingSpans = []) (n : ℕ) :
    (st.suspend.consume n).resume =
      { st with
        fieldStart := st.fieldStart - n
        writePos := st.writePos - n
        recordBufStart := st.recordBufStart - n
        refs := st.refs.map fun span => (span.1 - n, span.2) } := by
  simp [DfaStepper.suspend, DfaStepper.resume, DfaStepper.consume, hspans]

theorem consume_zero (st : DfaStepper) : st.consume 0 = st := by
  simp [DfaStepper.consume]

variable {config acc chunkEnd base text origin} {output : Output}

/-- The window a step gets to see. -/
def windowOf (chunkEnd : ℕ) (fresh : ChunkDriver) (s : RefState σ) : Window σ :=
  ⟨chunkEnd, fresh.totalConsumed, fresh.resumeAt, fresh.validated, fresh.reader.buffer, s⟩

theorem inWindow_of_refilled {driver fresh : ChunkDriver} {st : DfaStepper} {state : σ}
    {last : Option ℕ} {s : RefState σ}
    (h : Resumes config acc chunkEnd base text origin driver st state last s)
    (hvalidated : ChunkDriver.Validated output text base driver)
    (hfresh : ChunkDriver.Refilled output driver fresh) :
    InWindow fresh.stepCtx (windowOf chunkEnd fresh s) ∧
      InStep config acc (windowOf chunkEnd fresh s)
        ⟨st.resume, fresh.reader.buffer, fresh.resumeAt, state⟩ s := by
  obtain ⟨hge, hview⟩ := hfresh.validated_le hvalidated.validated_le
  have hlen := ChunkDriver.length_buffer_of_le hfresh.available_le
  have hresume := h.resumeAt
  have hpos : fresh.resumeAt ≤ fresh.reader.available := by
    rw [hfresh.resumeAt]
    omega
  refine ⟨⟨rfl, ?_, rfl, ?_⟩, ?_⟩
  · rw [windowOf, hfresh.totalConsumed, ← h.chunkRemaining, ← hfresh.chunkRemaining]
    rfl
  · simp only [ChunkDriver.stepCtx, windowOf]
    omega
  · exact {
      sim := by
        rw [hfresh.resumeAt] at hpos ⊢
        apply h.sim.congr
        rw [ChunkReader.buffer, hfresh.pending, List.take_take, min_eq_left hpos]
      begun := fun hne => ⟨(h.begun hne).recordInStart, (h.begun hne).fieldInStart⟩
      state := h.state
      length := rfl
      start_le := le_rfl
      ahead := rfl
      after := by
        rw [Window.after, windowOf, Nat.sub_self, slice_zero]
        rfl }

/-- What the reference makes of the window, it makes of all that is validated. -/
theorem after_window {driver fresh : ChunkDriver} {st : DfaStepper} {state : σ}
    {last : Option ℕ} {s : RefState σ}
    (h : Resumes config acc chunkEnd base text origin driver st state last s)
    (hvalidated : ChunkDriver.Validated output text base driver)
    (hfresh : ChunkDriver.Refilled output driver fresh) :
    origin.after config acc chunkEnd base (text.take (fresh.passed base)) =
      (windowOf chunkEnd fresh s).after config acc fresh.validated := by
  obtain ⟨hge, hview⟩ := hfresh.validated_le hvalidated.validated_le
  have hwindow := hvalidated.window hfresh.pending hge hview
  have hbase := hvalidated.base_le
  have hle := hvalidated.passed_le
  have hpassed : fresh.passed base = driver.totalConsumed - base + fresh.validated := by
    rw [ChunkDriver.passed, hfresh.totalConsumed]
  have hread : slice fresh.reader.buffer fresh.resumeAt (fresh.validated - fresh.resumeAt) =
      (text.take (fresh.passed base)).drop (driver.passed base) := by
    rw [hpassed, ← hwindow, hfresh.resumeAt, h.resumeAt, slice, List.drop_take]
  have hsplit : text.take (fresh.passed base) = text.take (driver.passed base) ++
      (text.take (fresh.passed base)).drop (driver.passed base) := by
    have htake := List.take_append_drop (driver.passed base) (text.take (fresh.passed base))
    rw [List.take_take, min_eq_left (by rw [hpassed, ChunkDriver.passed]; omega)] at htake
    exact htake.symm
  rw [hsplit, RefState.after_append, h.after, Window.after, windowOf]
  simp only
  rw [hread, List.length_take, min_eq_left hle, hfresh.totalConsumed, hfresh.resumeAt,
    h.resumeAt, ChunkDriver.passed]
  congr 1
  omega

/-- The bytes a step lets the driver consume are no longer needed. -/
theorem consumable_spec {buf : Bytes} {pos : ℕ} {st : DfaStepper} {s : RefState σ}
    (h : Sim buf pos st s) :
    st.suspend.consumable pos ≤ pos ∧
      (st.suspend.consumable pos ≤ st.recordBufStart ∨
        st.refs = [] ∧ st.fieldStart = st.writePos) := by
  have hfield := h.fieldStart_le
  have hwrite := h.writePos_le
  have hrecord := h.recordBufStart_le
  rw [DfaStepper.consumable]
  simp only [DfaStepper.suspend, h.pendingSpans, List.nil_append, Bool.and_eq_true,
    List.isEmpty_iff, beq_iff_eq]
  split_ifs with hidle
  · exact ⟨le_rfl, Or.inr hidle⟩
  · exact ⟨by omega, Or.inl le_rfl⟩

theorem resumes_of_inStep {fresh : ChunkDriver} {cur : Cursor σ} {s s' : RefState σ}
    (hremaining : fresh.reader.chunkRemaining = chunkEnd - fresh.totalConsumed)
    (hvalidated : ChunkDriver.Validated output text base fresh)
    (havail : fresh.reader.available ≤ fresh.reader.pending.length)
    (hview : fresh.validated ≤ fresh.reader.available)
    (hafter : origin.after config acc chunkEnd base (text.take (fresh.passed base)) =
      (windowOf chunkEnd fresh s).after config acc fresh.validated)
    (h : InStep config acc (windowOf chunkEnd fresh s) cur s') (hpos : cur.pos = fresh.validated) :
    let n := cur.st.suspend.consumable cur.pos
    Resumes config acc chunkEnd base text origin (fresh.advance cur.buf cur.pos n)
      (if 0 < n then cur.st.suspend.consume n else cur.st.suspend) cur.state
      cur.st.suspend.lastRecordEnd s' := by
  obtain ⟨hle, hneeded⟩ := consumable_spec h.sim
  have hlen : cur.buf.length = fresh.reader.available :=
    h.length.trans (ChunkDriver.length_buffer_of_le havail)
  have hbase := hvalidated.base_le
  simp only
  generalize cur.st.suspend.consumable cur.pos = n at hle hneeded
  have hst : (if 0 < n then cur.st.suspend.consume n else cur.st.suspend) =
      cur.st.suspend.consume n := by
    split_ifs with hn
    · rfl
    · rw [show n = 0 by omega, consume_zero]
  rw [hst]
  have hsim : Sim (cur.buf ++ fresh.reader.pending.drop fresh.reader.available) cur.pos
      cur.st s' := h.sim.congr (List.take_append_of_le_length (by omega))
  exact {
    sim := by
      rw [consume_suspend_resume h.sim.pendingSpans]
      exact hsim.consume hle hneeded
    refs := rfl
    begun := fun hne => ⟨(h.begun hne).recordInStart, (h.begun hne).fieldInStart⟩
    state := h.state
    last := h.sim.lastRecordEnd
    resumeAt := by
      simp only [ChunkDriver.advance, hpos]
    chunkRemaining := by
      simp only [ChunkDriver.advance, ChunkReader.setBuffer, ChunkReader.consume,
        hremaining]
      omega
    after := by
      have hpassed : (fresh.advance cur.buf cur.pos n).passed base = fresh.passed base := by
        simp only [ChunkDriver.passed, ChunkDriver.advance]
        omega
      rw [hpassed, hafter, ← hpos]
      exact h.after }

/-- The epilogue comes to the reference's at the end of the input. -/
theorem finalized_spec {driver fresh : ChunkDriver} {st : DfaStepper} {state : σ}
    {last : Option ℕ} {s : RefState σ}
    (h : Resumes config acc chunkEnd base text origin driver st state last s)
    (hvalidated : ChunkDriver.Validated output text base driver)
    (hfresh : ChunkDriver.Refilled output driver fresh)
    (hcomplete : ChunkDriver.Complete driver fresh) :
    ChunkDriver.finalized (stepper config acc) fresh st state last =
      s.finish config acc (base + text.length) := by
  have hall := hcomplete.all
  have hsame := hcomplete.same
  have hresume := h.resumeAt
  have hlength := hvalidated.length
  have hclosed := h.sim.closeField config s.dfaState driver.totalConsumed s.fieldInStart
  have hemit := fun hne => @emitInFlight_spec _ config acc _
    ⟨st.resume.pushField config driver.reader.pending, driver.reader.pending,
      fresh.validated, state⟩ (s.closeField config) hclosed.fields (h.begun hne).recordInStart
    h.state hclosed.within (by simp only [DfaStepper.startFieldAt]; omega)
  rw [ChunkDriver.finalized, RefState.finish]
  simp only [stepper, finalize]
  have hstate : st.dfaState = s.dfaState := h.sim.dfaState
  rw [hstate]
  cases hs : s.dfaState with
  | recordStart | inComment | fieldEnd | recordEnd | error =>
      simp only [Option.none_or]
      rw [h.state, h.last]
  | inQuotedField | inEscapedQuote =>
      simp only
      rw [h.state, (h.begun (by simp [hs])).fieldInStart]
  | fieldStart | inField | afterClosingQuote =>
      simp only [ChunkDriver.stepCtx, hcomplete.view]
      obtain ⟨hout, -⟩ := hemit (by simp [hs])
      rw [hout]
      cases hresult : emitInFlight config acc
          ⟨st.resume.pushField config driver.reader.pending, driver.reader.pending,
            fresh.validated, state⟩ with
      | mk cur result =>
          cases result with
          | error err => rfl
          | ok =>
              simp only [Option.some_or]
              rw [hfresh.totalConsumed, show driver.totalConsumed + fresh.validated =
                base + text.length by omega]

/-- The driver's run comes to what the reference comes to. -/
theorem run_ends (hsound : SearchSound config.dfa) (output : Output) (reader : ChunkReader)
    (base : ℕ) (state : σ) :
    Ends config acc (base + reader.chunkRemaining) base reader.pending (.new base state) output
      reader.schedule
      (ChunkDriver.run (stepper config acc) output (.new reader base) (.new base) state) := by
  set chunkEnd := base + reader.chunkRemaining with hchunkEnd
  refine @ChunkDriver.loop_rule_text _ _ _ output reader.pending base
    (fun driver st state' last =>
      driver.reader.schedule.Suffix reader.schedule ∧
        ∃ s, Resumes config acc chunkEnd base reader.pending (.new base state) driver st state'
          last s)
    _ ?_ ?_ ?_ ?_ _ _ _ _ _ ?_ (ChunkDriver.validated_new output reader base) ⟨.refl _,
      .new base state, ?_⟩
  · rintro driver st state last err ⟨hsuffix, s, hs⟩ hvalidated hfails
    rw [hs.state]
    exact .failed hvalidated.reached hs.after (hsuffix.failsWith hfails)
  · rintro driver st state last rel ⟨-, s, hs⟩ hvalidated hrefuses
    rw [hs.state]
    exact .refused hvalidated.reached hs.after hrefuses
  · rintro driver fresh st state last ⟨-, s, hs⟩ hvalidated hfresh hcomplete
    rw [finalized_spec hs hvalidated hfresh hcomplete]
    have hlength := hvalidated.length
    have hbase := hvalidated.base_le
    have hall := hcomplete.all
    have hpassed : driver.passed base = reader.pending.length := by
      rw [ChunkDriver.passed]
      omega
    have hreached := hvalidated.reached
    have hafter := hs.after
    rw [hpassed] at hreached hafter
    rw [List.take_length] at hafter
    exact .finished hreached hafter
  · rintro driver fresh st state last ⟨hsuffix, s, hs⟩ hvalidated hfreshValidated hfresh hprogress
    obtain ⟨hctx, hin⟩ := inWindow_of_refilled hs hvalidated hfresh
    have hwindow := after_window hs hvalidated hfresh
    obtain ⟨hge, hview⟩ := hfresh.validated_le hvalidated.validated_le
    have hresume := hs.resumeAt
    obtain ⟨hagrees, hend⟩ := stepLoop_spec hsound hctx
      (fresh.stepCtx.scanEnd - fresh.stepCtx.scanStart) _ s hin
      (by simp only [ChunkDriver.stepCtx, hfresh.resumeAt]; omega)
      (by simp only [ChunkDriver.stepCtx]; omega)
    simp only [ChunkDriver.StepKeepsText, stepper, step]
    cases hloop : stepLoop config acc fresh.stepCtx
        (fresh.stepCtx.scanEnd - fresh.stepCtx.scanStart)
        ⟨st.resume, fresh.reader.buffer, fresh.resumeAt, state⟩ with
    | mk cur result =>
        have hloop' : stepLoop config acc fresh.stepCtx
            (fresh.stepCtx.scanEnd - fresh.stepCtx.scanStart)
            ⟨st.resume, fresh.stepCtx.buf, fresh.stepCtx.scanStart, state⟩ =
            (cur, result) := hloop
        rw [hloop']
        rw [hloop] at hagrees hend
        cases result with
        | some result =>
            cases result with
            | done recordEnd => exact .halted hfreshValidated.reached (hwindow.trans hagrees)
            | error err => exact .halted hfreshValidated.reached (hwindow.trans hagrees)
            | suspended => exact hagrees.elim
        | none =>
            obtain ⟨s', hin'⟩ := hagrees
            have hpos : cur.pos = fresh.validated := hend rfl
            have hle := (consumable_spec hin'.sim).1
            have hlen := ChunkDriver.length_buffer_of_le hfresh.available_le
            refine ⟨by omega, hin'.length.trans hlen, hpos ▸ hin'.ahead, ?_, s', ?_⟩
            · have htail := hsuffix.tail
              rw [← hfresh.schedule] at htail
              exact htail
            · exact resumes_of_inStep
                (by rw [hfresh.chunkRemaining, hs.chunkRemaining, hfresh.totalConsumed])
                hfreshValidated hfresh.available_le hview hwindow hin' hpos
  · simp only [ChunkDriver.new]
    omega
  · exact {
      sim := Sim.initial reader.pending base state
      refs := rfl
      begun := fun hne => absurd rfl hne
      state := rfl
      last := rfl
      resumeAt := rfl
      chunkRemaining := by
        simp only [ChunkDriver.new, hchunkEnd]
        omega
      after := by
        simp only [ChunkDriver.passed, ChunkDriver.new, Nat.sub_self, Nat.add_zero,
          List.take_zero]
        rfl }

/-- Raw bytes pass as they are: the driver's run has the reference's outcome, unless a `fill`
call fails. -/
theorem run_endsAs (hsound : SearchSound config.dfa) (reader : ChunkReader) (base : ℕ)
    (state : σ) :
    ChunkDriver.EndsAs reader.schedule
      (refParse config acc (base + reader.chunkRemaining) base reader.pending state)
      (ChunkDriver.run (stepper config acc) .bytes (.new reader base) (.new base) state) := by
  have hends := @run_ends _ _ acc hsound .bytes reader base state
  generalize ChunkDriver.run (stepper config acc) .bytes (.new reader base) (.new base) state =
    result at hends
  rw [refParse, RefState.run_eq_after]
  cases hends with
  | @halted v _ _ hafter =>
      have hall : (RefState.new base state).after config acc (base + reader.chunkRemaining) base
          reader.pending = .inr result := by
        rw [← List.take_append_drop v reader.pending, RefState.after_append, hafter]
      rw [hall]
      exact Or.inl rfl
  | finished _ hafter =>
      rw [hafter]
      exact Or.inl rfl
  | failed _ _ hfails => exact Or.inr ⟨_, _, hfails, rfl⟩
  | refused _ _ hrefuses => exact absurd hrefuses (not_refuses_bytes _ _ _)

end Driver

/-- The body parse of the byte automaton is the reference's fold over the bytes of the
source, however the reader refills its buffer. -/
theorem parseFrom_eq_refParse {σ : Type} (endian : Endian) (config : ValidConfig)
    (acc : Accumulator σ) (reader : ChunkReader) (base : ℕ) (state : σ)
    (hreliable : reader.schedule.Reliable) :
    (DfaChunkParser.new endian config.config).parseFrom .bytes acc reader state base =
      refParse (DfaChunkParser.new endian config.config).stepperConfig acc
        (base + reader.chunkRemaining) base reader.pending state := by
  have hends := @run_endsAs σ (DfaChunkParser.new endian config.config).stepperConfig acc
    (searchSound_new endian config.config) reader base state
  exact hends.eq_of_reliable hreliable

theorem parseFrom_eq_refParse_dribbling :
    (DfaChunkParser.new .little Config.default).parseFrom .bytes RecordWise.acceptAll.accumulator
        (.whole [34, 97, 34, 34, 34, 10, 98, 10]) [] 0 =
      ([[[97, 34]], [[98]]], .ok (some 7)) :=
  (parseFrom_eq_refParse .little ⟨Config.default, by decide⟩ RecordWise.acceptAll.accumulator
    (.whole [34, 97, 34, 34, 34, 10, 98, 10]) 0 [] Schedule.reliable_exact).trans (by decide)

end Csveee.Dfa
