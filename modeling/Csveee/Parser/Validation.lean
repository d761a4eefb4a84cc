import Csveee.Parser.Driver

/-!
# Incremental validation

The driver validates the source a window at a time, over a buffer that moves under it.
Counted from where the source starts, the windows are adjacent: each begins where the one
before left off, and the last of them either reaches the end or is refused.
-/

namespace Csveee

open Slice

/-- The text's first bytes, that many, passed the validation. -/
inductive Reached (output : Output) (text : Bytes) : ℕ → Prop
  | start : Reached output text 0
  | window {v w k : ℕ} (h : Reached output text v) (hw : w ≤ text.length)
      (hvalid : output.validateChunk ((text.take w).drop v) = .ok k) :
      Reached output text (v + k)

/-- The text behind the first `v` bytes is refused: `rel` bytes on something cannot be
continued, or nothing passes of a window that is as long as one can be asked to be. -/
inductive Refuses (output : Output) (text : Bytes) (v : ℕ) : ℕ → Prop
  | invalid {w rel : ℕ} (hv : v < w) (hw : w ≤ text.length)
      (hinvalid : output.validateChunk ((text.take w).drop v) = .error rel) :
      Refuses output text v rel
  | truncated {w : ℕ} (hv : v < w) (hw : w ≤ text.length)
      (hlong : v + 4 ≤ w ∨ w = text.length)
      (hnone : output.validateChunk ((text.take w).drop v) = .ok 0) :
      Refuses output text v 0

/-- Raw bytes are not refused. -/
theorem not_refuses_bytes (text : Bytes) (v rel : ℕ) : ¬Refuses .bytes text v rel := by
  rintro (⟨-, -, hinvalid⟩ | ⟨hv, hw, -, hnone⟩)
  · cases hinvalid
  · have hlength := Except.ok.inj hnone
    rw [List.length_drop, List.length_take] at hlength
    omega

namespace ChunkDriver

variable {τ σ : Type}

/-- The bytes of the source validated so far. -/
def passed (base : ℕ) (driver : ChunkDriver) : ℕ :=
  driver.totalConsumed - base + driver.validated

/-- What the driver holds behind the validated bytes is the source. -/
structure Validated (output : Output) (text : Bytes) (base : ℕ) (driver : ChunkDriver) : Prop where
  base_le : base ≤ driver.totalConsumed
  validated_le : driver.validated ≤ driver.reader.pending.length
  length : driver.totalConsumed + driver.reader.pending.length = base + text.length
  tail : driver.reader.pending.drop driver.validated = text.drop (driver.passed base)
  reached : Reached output text (driver.passed base)

namespace Validated

variable {output : Output} {text : Bytes} {base : ℕ} {driver fresh : ChunkDriver}
  (h : Validated output text base driver)

include h

theorem passed_le : driver.passed base ≤ text.length := by
  have hlength := h.length
  have hbase := h.base_le
  have hle := h.validated_le
  rw [passed]
  omega

theorem window {reader : ChunkReader} (hpending : reader.pending = driver.reader.pending)
    {k : ℕ} (hk : driver.validated ≤ k) (havail : k ≤ reader.available) :
    (reader.buffer.take k).drop driver.validated =
      (text.take (driver.totalConsumed - base + k)).drop (driver.passed base) := by
  rw [ChunkReader.buffer, List.take_take, min_eq_left havail, hpending, List.drop_take,
    List.drop_take, h.tail, passed]
  congr 1
  omega

theorem refilled (hfresh : Refilled output driver fresh) :
    Validated output text base fresh := by
  have hpending := hfresh.pending
  obtain ⟨hge, hview⟩ := hfresh.validated_le h.validated_le
  have havail := hfresh.available_le
  have hlength := h.length
  have hbase := h.base_le
  have hpassed : fresh.passed base = driver.passed base + (fresh.validated - driver.validated) := by
    rw [passed, passed, hfresh.totalConsumed]
    omega
  refine {
    base_le := by rw [hfresh.totalConsumed]; exact hbase
    validated_le := le_trans hview havail
    length := by rw [hfresh.totalConsumed, hpending]; exact hlength
    tail := ?_
    reached := ?_ }
  · calc fresh.reader.pending.drop fresh.validated
        = (driver.reader.pending.drop driver.validated).drop
            (fresh.validated - driver.validated) := by
          rw [List.drop_drop, hpending, Nat.add_sub_cancel' hge]
      _ = text.drop (fresh.passed base) := by
          rw [h.tail, List.drop_drop, hpassed]
  · have hval := hfresh.validated
    have hlen := length_buffer_of_le havail
    simp only [validateFresh] at hval
    split at hval
    · have heq := congrArg ChunkDriver.validated (Except.ok.inj hval)
      simp only at heq
      rw [hpassed, ← heq, Nat.sub_self]
      exact h.reached
    · next hmore =>
        split at hval
        · next n hn =>
            have heq := congrArg ChunkDriver.validated (Except.ok.inj hval)
            simp only at heq
            rw [h.window hpending (by omega) (by omega)] at hn
            rw [hpassed, ← heq, Nat.add_sub_cancel_left]
            refine .window h.reached ?_ hn
            rw [hpending] at havail
            omega
        · cases hval

theorem refused {reader : ChunkReader} {err : Error}
    (hfill : driver.reader.fill (driver.validated + 4) = .ok reader)
    (hinvalid : validateFresh output { driver with reader := reader } = .error err) :
    ∃ rel, Refuses output text (driver.passed base) rel ∧
      err = .utf8 (base + driver.passed base + rel) := by
  obtain ⟨hpending, -, -, havail, -⟩ := ChunkReader.fill_spec hfill
  have hlen := length_buffer_of_le (hpending ▸ havail)
  have hlength := h.length
  have hbase := h.base_le
  simp only [validateFresh] at hinvalid
  split at hinvalid
  · cases hinvalid
  · next hmore =>
      split at hinvalid
      · cases hinvalid
      · next rel hrel =>
          rw [h.window hpending (by omega) (by omega)] at hrel
          refine ⟨rel, .invalid ?_ ?_ hrel, ?_⟩
          · rw [passed]
            omega
          · omega
          · rw [← Except.error.inj hinvalid, passed]
            congr 1
            omega

/-- No progress: everything is validated, or what is left is refused. -/
theorem stuck (hfresh : Refilled output driver fresh)
    (hstuck : fresh.validated ≤ driver.validated) :
    fresh.validated = driver.validated ∧ fresh.reader.buffer.length = fresh.reader.available ∧
      (fresh.reader.buffer.length ≤ fresh.validated ∧
          fresh.reader.available = fresh.reader.pending.length ∧
          driver.validated = driver.reader.pending.length ∨
        fresh.validated < fresh.reader.buffer.length ∧
          Refuses output text (driver.passed base) 0) := by
  obtain ⟨hge, hview⟩ := hfresh.validated_le h.validated_le
  have hpending := hfresh.pending
  have havail := hfresh.available_le
  have hlen := length_buffer_of_le havail
  have hfilled := hfresh.filled
  have hlength := h.length
  have hbase := h.base_le
  have hsame : fresh.validated = driver.validated := le_antisymm hstuck hge
  rw [hpending] at havail
  refine ⟨hsame, hlen, ?_⟩
  have hval := hfresh.validated
  simp only [validateFresh, hlen] at hval
  split at hval
  · left
    rw [hlen, hpending]
    omega
  · next hmore =>
      right
      refine ⟨by omega, ?_⟩
      split at hval
      · next n hn =>
          have heq := congrArg ChunkDriver.validated (Except.ok.inj hval)
          simp only at heq
          have hn0 : n = 0 := by omega
          subst hn0
          rw [h.window hpending (by omega) (by omega)] at hn
          refine .truncated ?_ ?_ ?_ hn
          · rw [passed]
            omega
          · omega
          · rw [passed]
            omega
      · cases hval

/-- What a step leaves behind the validated bytes alone. -/
theorem advance {buf : Bytes} {resumeAt consumable : ℕ}
    (havail : driver.reader.available ≤ driver.reader.pending.length)
    (hview : driver.validated ≤ driver.reader.available)
    (hconsumable : consumable ≤ driver.validated) (hbuf : buf.length = driver.reader.available)
    (htail : buf.drop driver.validated = driver.reader.buffer.drop driver.validated) :
    Validated output text base (driver.advance buf resumeAt consumable) := by
  have hlength := h.length
  have hbase := h.base_le
  have hpassed : (driver.advance buf resumeAt consumable).passed base = driver.passed base := by
    simp only [passed, ChunkDriver.advance]
    omega
  refine {
    base_le := by simp only [ChunkDriver.advance]; omega
    validated_le := ?_
    length := ?_
    tail := ?_
    reached := hpassed ▸ h.reached }
  · rw [length_advance havail hbuf]
    simp only [ChunkDriver.advance]
    omega
  · rw [length_advance havail hbuf]
    simp only [ChunkDriver.advance]
    omega
  · rw [hpassed, ← h.tail]
    simp only [ChunkDriver.advance, ChunkReader.setBuffer, ChunkReader.consume, List.drop_drop]
    rw [Nat.add_sub_cancel' hconsumable, List.drop_append_of_le_length (by omega), htail,
      ChunkReader.buffer, ← List.drop_append_of_le_length (by rw [List.length_take]; omega),
      List.take_append_drop]

end Validated

/-- What an invariant asks of one `step`: as `StepKeeps`, and what lies behind the validated
bytes stays as it is. -/
def StepKeepsText (stepper : ChunkStepper τ σ)
    (Inv : ChunkDriver → τ → σ → Option ℕ → Prop)
    (Post : σ × Except Error (Option ℕ) → Prop)
    (fresh : ChunkDriver) (out : StepOutcome τ σ) : Prop :=
  match out.result with
  | .done recordEnd => Post (out.state, .ok (some recordEnd))
  | .error err => Post (out.state, .error err)
  | .suspended resumeAt consumable lastRecordEnd =>
      consumable ≤ fresh.validated ∧ out.buf.length = fresh.reader.available ∧
        out.buf.drop fresh.validated = fresh.reader.buffer.drop fresh.validated ∧
        Inv (fresh.advance out.buf resumeAt consumable)
          (if 0 < consumable then stepper.consume out.stepper consumable else out.stepper)
          out.state lastRecordEnd

/-- What the stepper's epilogue makes of a run. -/
def finalized (stepper : ChunkStepper τ σ) (fresh : ChunkDriver) (st : τ) (state : σ)
    (last : Option ℕ) : σ × Except Error (Option ℕ) :=
  match stepper.finalize st fresh.stepCtx state with
  | (state, .ok finalEnd) => (state, .ok (finalEnd.or last))
  | (state, .error err) => (state, .error err)

/-- Every byte of the source is validated, and what is not consumed of it in view. -/
structure Complete (driver fresh : ChunkDriver) : Prop where
  all : driver.validated = driver.reader.pending.length
  same : fresh.validated = driver.validated
  view : fresh.reader.buffer = driver.reader.pending

/-- The rule of the loop for a source that is validated on the way. -/
theorem loop_rule_text {stepper : ChunkStepper τ σ} {output : Output} {text : Bytes} {base : ℕ}
    {Inv : ChunkDriver → τ → σ → Option ℕ → Prop} {Post : σ × Except Error (Option ℕ) → Prop}
    (hio : ∀ driver st state last err, Inv driver st state last →
      Validated output text base driver →
      driver.reader.schedule 0 = .fails err → Post (state, .error (.io err)))
    (hinvalid : ∀ driver st state last rel, Inv driver st state last →
      Validated output text base driver → Refuses output text (driver.passed base) rel →
      Post (state, .error (.utf8 (base + driver.passed base + rel))))
    (hfinal : ∀ driver fresh st state last, Inv driver st state last →
      Validated output text base driver → Refilled output driver fresh →
      Complete driver fresh → Post (finalized stepper fresh st state last))
    (hstep : ∀ driver fresh st state last, Inv driver st state last →
      Validated output text base driver → Validated output text base fresh →
      Refilled output driver fresh → driver.validated < fresh.validated →
      StepKeepsText stepper Inv Post fresh (stepper.step st fresh.stepCtx state))
    (fuel : ℕ) (driver : ChunkDriver) (st : τ) (state : σ) (last : Option ℕ)
    (hfuel : driver.reader.pending.length < driver.validated + fuel)
    (hvalidated : Validated output text base driver) (hinv : Inv driver st state last) :
    Post (loop stepper output fuel driver st state last) := by
  refine @loop_rule _ _ stepper output
    (fun driver st state last => Inv driver st state last ∧ Validated output text base driver)
    Post ?_ ?_ ?_ ?_ fuel driver st state last hvalidated.validated_le hfuel ⟨hinv, hvalidated⟩
  · intro driver st state last err ⟨hinv, hvalidated⟩ hfails
    exact hio driver st state last err hinv hvalidated hfails
  · intro driver reader st state last err ⟨hinv, hvalidated⟩ hfill hfresh
    obtain ⟨rel, hrefuses, rfl⟩ := hvalidated.refused hfill hfresh
    exact hinvalid driver st state last rel hinv hvalidated hrefuses
  · intro driver fresh st state last ⟨hinv, hvalidated⟩ hrefilled hstuck
    obtain ⟨hsame, hlen, ⟨hshort, havail, hall⟩ | ⟨hmore, hrefuses⟩⟩ :=
      hvalidated.stuck hrefilled hstuck
    · rw [epilogue, if_neg (Nat.not_lt.mpr hshort)]
      refine hfinal driver fresh st state last hinv hvalidated hrefilled ⟨hall, hsame, ?_⟩
      rw [ChunkReader.buffer, havail, List.take_length, hrefilled.pending]
    · rw [epilogue, if_pos hmore]
      have herror := hinvalid driver st state last 0 hinv hvalidated hrefuses
      have hbase := hvalidated.base_le
      rw [show fresh.totalConsumed + fresh.validated = base + driver.passed base + 0 by
        rw [hrefilled.totalConsumed, hsame, passed]
        omega]
      exact herror
  · intro driver fresh st state last ⟨hinv, hvalidated⟩ hrefilled hprogress
    have hfresh := hvalidated.refilled hrefilled
    have hview := (hrefilled.validated_le hvalidated.validated_le).2
    have hkeeps := hstep driver fresh st state last hinv hvalidated hfresh hrefilled hprogress
    rw [StepKeeps]
    rw [StepKeepsText] at hkeeps
    split
    · next recordEnd hresult => rwa [hresult] at hkeeps
    · next err hresult => rwa [hresult] at hkeeps
    · next resumeAt consumable lastRecordEnd hresult =>
        rw [hresult] at hkeeps
        obtain ⟨hconsumable, hbuf, htail, hnext⟩ := hkeeps
        exact ⟨hconsumable, hbuf, hnext,
          hfresh.advance hrefilled.available_le hview hconsumable hbuf htail⟩

theorem validated_new (output : Output) (reader : ChunkReader) (base : ℕ) :
    Validated output reader.pending base (.new reader base) where
  base_le := le_rfl
  validated_le := Nat.zero_le _
  length := rfl
  tail := by
    rw [passed, ChunkDriver.new]
    simp only [Nat.sub_self, Nat.add_zero]
  reached := by
    rw [passed, ChunkDriver.new]
    simp only [Nat.sub_self, Nat.add_zero]
    exact .start

/-- A call of the stepper: of `step`, or of `finalize`. -/
inductive Call (τ σ : Type)
  | step (st : τ) (ctx : StepCtx) (state : σ)
  | finalize (st : τ) (ctx : StepCtx) (state : σ)

/-- The calls of the stepper that the loop of `ChunkDriver::run` makes. -/
inductive Calls (stepper : ChunkStepper τ σ) (output : Output) :
    ChunkDriver → τ → σ → Call τ σ → Prop
  | step {driver fresh : ChunkDriver} {st : τ} {state : σ} {reader : ChunkReader}
      (hfill : driver.reader.fill (driver.validated + 4) = .ok reader)
      (hfresh : validateFresh output { driver with reader := reader } = .ok fresh)
      (hprogress : ¬fresh.validated ≤ driver.validated) :
      Calls stepper output driver st state (.step st fresh.stepCtx state)
  | finalize {driver fresh : ChunkDriver} {st : τ} {state : σ} {reader : ChunkReader}
      (hfill : driver.reader.fill (driver.validated + 4) = .ok reader)
      (hfresh : validateFresh output { driver with reader := reader } = .ok fresh)
      (hstuck : fresh.validated ≤ driver.validated)
      (htail : ¬fresh.validated < fresh.reader.buffer.length) :
      Calls stepper output driver st state (.finalize st fresh.stepCtx state)
  | again {driver fresh : ChunkDriver} {st : τ} {state : σ} {reader : ChunkReader}
      {resumeAt consumable : ℕ} {lastRecordEnd : Option ℕ} {call : Call τ σ}
      (hfill : driver.reader.fill (driver.validated + 4) = .ok reader)
      (hfresh : validateFresh output { driver with reader := reader } = .ok fresh)
      (hprogress : ¬fresh.validated ≤ driver.validated)
      (hresult : (stepper.step st fresh.stepCtx state).result =
        .suspended resumeAt consumable lastRecordEnd)
      (hlater : Calls stepper output
        (fresh.advance (stepper.step st fresh.stepCtx state).buf resumeAt consumable)
        (if 0 < consumable then
          stepper.consume (stepper.step st fresh.stepCtx state).stepper consumable
        else (stepper.step st fresh.stepCtx state).stepper)
        (stepper.step st fresh.stepCtx state).state call) :
      Calls stepper output driver st state call

/-- The rule of the loop for its calls. -/
theorem calls_rule_text {stepper : ChunkStepper τ σ} {output : Output} {text : Bytes} {base : ℕ}
    {Inv : ChunkDriver → τ → σ → Option ℕ → Prop} {Good : Call τ σ → Prop}
    {Post : σ × Except Error (Option ℕ) → Prop}
    (hfinal : ∀ driver fresh st state last, Inv driver st state last →
      Validated output text base driver → Refilled output driver fresh →
      Complete driver fresh → Good (.finalize st fresh.stepCtx state))
    (hstep : ∀ driver fresh st state last, Inv driver st state last →
      Validated output text base driver → Validated output text base fresh →
      Refilled output driver fresh → driver.validated < fresh.validated →
      Good (.step st fresh.stepCtx state) ∧
        StepKeepsText stepper Inv Post fresh (stepper.step st fresh.stepCtx state))
    {driver : ChunkDriver} {st : τ} {state : σ} {call : Call τ σ}
    (hcalls : Calls stepper output driver st state call) {last : Option ℕ}
    (hvalidated : Validated output text base driver) (hinv : Inv driver st state last) :
    Good call := by
  induction hcalls generalizing last with
  | step hfill hfresh hprogress =>
      have hrefilled := refilled_of_fill hfill hfresh
      exact (hstep _ _ _ _ last hinv hvalidated (hvalidated.refilled hrefilled) hrefilled
        (Nat.lt_of_not_le hprogress)).1
  | finalize hfill hfresh hstuck htail =>
      have hrefilled := refilled_of_fill hfill hfresh
      obtain ⟨hsame, -, ⟨-, havail, hall⟩ | ⟨hmore, -⟩⟩ := hvalidated.stuck hrefilled hstuck
      · refine hfinal _ _ _ _ last hinv hvalidated hrefilled ⟨hall, hsame, ?_⟩
        rw [ChunkReader.buffer, havail, List.take_length, hrefilled.pending]
      · exact absurd hmore htail
  | again hfill hfresh hprogress hresult _ ih =>
      have hrefilled := refilled_of_fill hfill hfresh
      have hthere := hvalidated.refilled hrefilled
      have hview := (hrefilled.validated_le hvalidated.validated_le).2
      have hkeeps := (hstep _ _ _ _ last hinv hvalidated hthere hrefilled
        (Nat.lt_of_not_le hprogress)).2
      rw [StepKeepsText, hresult] at hkeeps
      obtain ⟨hconsumable, hbuf, htail, hnext⟩ := hkeeps
      exact ih (hthere.advance hrefilled.available_le hview hconsumable hbuf htail) hnext

end ChunkDriver

section Text

variable {text : Bytes} {v : ℕ}

theorem Reached.valid (h : Reached .str text v) : v ≤ text.length ∧ Utf8.Valid (text.take v) := by
  induction h with
  | start => exact ⟨Nat.zero_le _, by rw [List.take_zero]; exact .nil⟩
  | @window v w k _ hw hvalid ih =>
      obtain ⟨hv, hprefix⟩ := ih
      have hk := Output.str.validateChunk_le _ _ hvalid
      rw [List.length_drop, List.length_take] at hk
      have hfresh : Utf8.Valid (((text.take w).drop v).take k) := by
        simp only [Output.str] at hvalid
        split at hvalid
        · next hok =>
            cases hvalid
            rw [List.take_length]
            exact Utf8.valid_of_fromUtf8 hok
        · next herr =>
            cases hvalid
            exact (Utf8.validUpTo_spec herr).2
        · cases hvalid
      rw [List.drop_take, List.take_take, min_eq_left (by omega)] at hfresh
      refine ⟨by omega, ?_⟩
      rw [List.take_add]
      exact hprefix.append hfresh

/-- What is refused is not valid, and the offset reported is where validity ends. -/
theorem Refuses.isLongestValid {rel : ℕ} (hreached : Reached .str text v)
    (h : Refuses .str text v rel) :
    Utf8.IsLongestValid text (v + rel) ∧ v + rel < text.length := by
  obtain ⟨hv, hprefix⟩ := hreached.valid
  cases h with
  | @invalid w rel hlt hw hinvalid =>
      simp only [Output.str] at hinvalid
      split at hinvalid
      · cases hinvalid
      · cases hinvalid
      · next upTo errorLen herr =>
          cases hinvalid
          obtain ⟨hne, hstop⟩ := Utf8.fromUtf8_error herr
          obtain ⟨hle, hvalid⟩ := Utf8.validUpTo_spec herr
          rw [List.length_drop, List.length_take] at hle
          rw [List.drop_drop] at hne hstop
          have hinside : v + rel < w := by
            by_contra hpast
            exact hne (List.drop_eq_nil_of_le (by rw [List.length_take]; omega))
          -- what makes the sequence invalid lies in the window
          have hstop' : Utf8.charWidth (text.drop (v + rel)) = .error (some errorLen) := by
            have hknown : Utf8.charWidth ((text.take w).drop (v + rel)) ≠ .error none := by
              intro hcut
              rw [hstop] at hcut
              cases hcut
            have hmore := Utf8.charWidth_append hknown (text.drop w)
            rw [hstop, ← List.drop_append_of_le_length (by rw [List.length_take]; omega),
              List.take_append_drop] at hmore
            exact hmore
          have hfront : Utf8.Valid (text.take (v + rel)) := by
            rw [List.take_add]
            rw [List.drop_take, List.take_take, min_eq_left (by omega)] at hvalid
            exact hprefix.append hvalid
          have hlongest := Utf8.isLongestValid_of_stop hfront hstop'
          rw [List.take_append_drop, List.length_take, min_eq_left (by omega)] at hlongest
          exact ⟨hlongest, by omega⟩
  | @truncated w hlt hw hlong hnone =>
      have hlength : ((text.take w).drop v).length = w - v := by
        rw [List.length_drop, List.length_take, min_eq_left hw]
      simp only [Output.str] at hnone
      split at hnone
      · have hzero := Except.ok.inj hnone
        omega
      · next upTo herr =>
          cases hnone
          obtain ⟨-, hstop⟩ := Utf8.fromUtf8_error herr
          rw [List.drop_zero] at hstop
          -- only the end of the text cuts a character short
          have hshort := Utf8.length_lt_of_charWidth hstop
          have hend : w = text.length := by omega
          rw [hend, List.take_length] at hstop
          have hlongest := Utf8.isLongestValid_of_stop hprefix hstop
          rw [List.take_append_drop, List.length_take, min_eq_left hv] at hlongest
          exact ⟨hlongest, by omega⟩
      · cases hnone

theorem not_refuses_of_valid (hvalid : Utf8.Valid text) (hreached : Reached .str text v) (rel : ℕ) :
    ¬Refuses .str text v rel := by
  intro hrefuses
  obtain ⟨hlongest, hlt⟩ := hrefuses.isLongestValid hreached
  have hall := hlongest.longest text.length le_rfl (by rwa [List.take_length])
  omega

end Text

end Csveee
