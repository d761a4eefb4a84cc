import Csveee.Parser.Dfa.Modes
import Csveee.Parser.Dfa.Pass

/-!
# The strict dialect restricts the others

Where the strict table does not err, the tables of the other quote handlings go the same
way, so what it parses they parse alike.  The toggling table carries the strict one's errors
as flags: a boundary scan that heeds them is a scan of the strict table.
-/

namespace Csveee

/-- A source that passes the validation as a whole is not refused on the way. -/
theorem not_refuses_of_reached {output : Output} (houtput : output = .bytes ∨ output = .str)
    {text : Bytes} {v rel : ℕ} (hall : Reached output text text.length)
    (hreached : Reached output text v) : ¬Refuses output text v rel := by
  rcases houtput with rfl | rfl
  · exact not_refuses_bytes text v rel
  · have hvalid := hall.valid.2
    rw [List.take_length] at hvalid
    exact not_refuses_of_valid hvalid hreached rel

namespace Dfa

variable {config : Config} (h : config.Distinct) (endian : Endian)

/-- Where the strict table does not err, no other one differs. -/
theorem transition_of_strict (h : config.Distinct) (mode : QuoteHandling) {state : State}
    {b : Byte} (hclean : ((dialect endian config .strict).transition state b).next ≠ .error) :
    (dialect endian config mode).transition state b =
      (dialect endian config .strict).transition state b := by
  by_cases hcomment : state = .inComment
  · rw [hcomment]
    rfl
  · rw [dialect_transition h endian .strict hcomment] at hclean
    rw [dialect_transition h endian mode hcomment, dialect_transition h endian .strict hcomment,
      symbolRow_strict hclean]

/-- The toggling table flags the cells in which the strict one errs, and is the same in all
others. -/
theorem transition_of_toggle (h : config.Distinct) (state : State) (b : Byte) :
    if ((dialect endian config .toggle).transition state b).strictError then
      ((dialect endian config .strict).transition state b).next = .error
    else ((dialect endian config .toggle).transition state b).next =
      ((dialect endian config .strict).transition state b).next := by
  by_cases hcomment : state = .inComment
  · rw [hcomment]
    simp only [Dfa.transition, dialect, Dfa.new, inCommentRow]
    split_ifs <;> first | rfl | contradiction
  · rw [dialect_transition h endian .toggle hcomment, dialect_transition h endian .strict hcomment]
    generalize config.doubledQuotes = doubled
    generalize config.symbol b = symbol
    cases doubled <;> cases state <;> cases symbol <;> rfl

section Parse

variable {σ : Type} {acc : Accumulator σ} {s next : RefState σ} {chunkEnd x : ℕ}

/-- The dialect under a quote handling, as the stepper gets it. -/
abbrev handling (endian : Endian) (config : Config) (mode : QuoteHandling) : StepperConfig :=
  reference endian (config.withHandling mode)

theorem blankRun_withHandling (config : Config) (mode : QuoteHandling) (bytes : Bytes) :
    blankRun (config.withHandling mode) bytes = blankRun config bytes := rfl

/-- A byte the strict dialect takes, every dialect takes alike. -/
theorem step_of_strict (h : config.Distinct) (mode : QuoteHandling) {b : Byte}
    (hstep : s.step (handling endian config .strict) acc chunkEnd x b = .inl next) :
    s.step (handling endian config mode) acc chunkEnd x b = .inl next := by
  have hblank : s.isBlank (handling endian config mode) b =
      s.isBlank (handling endian config .strict) b := rfl
  rw [RefState.step] at hstep ⊢
  rw [hblank]
  by_cases hskip : s.isBlank (handling endian config .strict) b = true
  · rw [if_pos hskip] at hstep ⊢
    exact hstep
  · rw [if_neg hskip] at hstep ⊢
    have hclean : ((dialect endian config .strict).transition s.dfaState b).next ≠ .error := by
      intro herr
      have hcell : ((handling endian config .strict).dfa.transition s.dfaState b).next = .error :=
        herr
      simp only [hcell] at hstep
      cases hstep
    have hcell : (handling endian config mode).dfa.transition s.dfaState b =
        (handling endian config .strict).dfa.transition s.dfaState b :=
      transition_of_strict endian h mode hclean
    rw [hcell]
    exact hstep

/-- What the strict dialect reads, every dialect reads alike. -/
theorem after_of_strict (h : config.Distinct) (mode : QuoteHandling) {bytes : Bytes}
    (hafter : s.after (handling endian config .strict) acc chunkEnd x bytes = .inl next) :
    s.after (handling endian config mode) acc chunkEnd x bytes = .inl next := by
  induction bytes generalizing s x with
  | nil => exact hafter
  | cons b rest ih =>
      rw [RefState.after] at hafter ⊢
      cases hstep : s.step (handling endian config .strict) acc chunkEnd x b with
      | inl middle =>
          rw [hstep] at hafter
          rw [step_of_strict endian h mode hstep]
          exact ih hafter
      | inr outcome =>
          rw [hstep] at hafter
          cases hafter

theorem step_inr {config : StepperConfig} {b : Byte} {outcome : BodyOutcome σ}
    (hx : x < chunkEnd) (hstep : s.step config acc chunkEnd x b = .inr outcome) :
    ∃ err, outcome.2 = .error err := by
  have hnot := Nat.not_le.mpr hx
  simp only [RefState.step, RefState.endRecord, if_neg hnot] at hstep
  split at hstep
  · cases hstep
  · split at hstep
    · exact ⟨_, by cases hstep; rfl⟩
    · cases hstep
    · split at hstep
      · exact ⟨_, by cases hstep; rfl⟩
      · cases hstep
    · cases hstep

theorem after_inr {config : StepperConfig} {bytes : Bytes} {outcome : BodyOutcome σ}
    (hend : x + bytes.length ≤ chunkEnd)
    (hafter : s.after config acc chunkEnd x bytes = .inr outcome) :
    ∃ err, outcome.2 = .error err := by
  induction bytes generalizing s x with
  | nil => cases hafter
  | cons b rest ih =>
      rw [List.length_cons] at hend
      rw [RefState.after] at hafter
      cases hstep : s.step config acc chunkEnd x b with
      | inl middle =>
          rw [hstep] at hafter
          exact ih (by omega) hafter
      | inr stopped =>
          rw [hstep] at hafter
          cases hafter
          exact step_inr (by omega) hstep

variable {base : ℕ} {text : Bytes} {origin : RefState σ} {output : Output}
  {schedule : Schedule} {outcome : BodyOutcome σ} {last : Option ℕ}

/-- A body of the whole source that succeeds has read and validated all of it. -/
theorem Ends.finish_of_ok {config : StepperConfig}
    (hends : Ends config acc chunkEnd base text origin output schedule outcome)
    (hend : base + text.length ≤ chunkEnd) (hok : outcome.2 = .ok last) :
    Reached output text text.length ∧ ∃ s, origin.after config acc chunkEnd base text = .inl s ∧
      outcome = s.finish config acc (base + text.length) := by
  cases hends with
  | halted hreached hafter =>
      obtain ⟨err, herr⟩ := after_inr
        (le_trans (Nat.add_le_add_left (List.length_take_le' _ _) base) hend) hafter
      rw [hok] at herr
      cases herr
  | @finished s hreached hafter => exact ⟨hreached, s, hafter, rfl⟩
  | failed => cases hok
  | refused => cases hok

/-- A body whose source is valid has the reference's outcome. -/
theorem Ends.eq_run {config : StepperConfig}
    (hends : Ends config acc chunkEnd base text origin output schedule outcome)
    (hreliable : schedule.Reliable) (houtput : output = .bytes ∨ output = .str)
    (hvalid : output = .str → Utf8.Valid text) :
    outcome = origin.run config acc chunkEnd base text := by
  rw [RefState.run_eq_after]
  cases hends with
  | @halted v _ _ hafter =>
      rw [← List.take_append_drop v text, RefState.after_append, hafter]
  | finished _ hafter => rw [hafter]
  | failed _ _ hfails => exact absurd hfails (hreliable.not_failsWith _)
  | @refused v rel _ hreached _ hrefuses =>
      rcases houtput with rfl | rfl
      · exact absurd hrefuses (not_refuses_bytes text v rel)
      · exact absurd hrefuses (not_refuses_of_valid (hvalid rfl) hreached rel)

/-- A body that reads all of a source that passes comes to its end. -/
theorem Ends.eq_finish {config : StepperConfig} {s : RefState σ}
    (hends : Ends config acc chunkEnd base text origin output schedule outcome)
    (hreliable : schedule.Reliable) (houtput : output = .bytes ∨ output = .str)
    (hall : Reached output text text.length)
    (hafter : origin.after config acc chunkEnd base text = .inl s) :
    outcome = s.finish config acc (base + text.length) := by
  cases hends with
  | @halted v _ _ hstopped =>
      rw [← List.take_append_drop v text, RefState.after_append, hstopped] at hafter
      cases hafter
  | finished _ hfinished =>
      rw [hafter] at hfinished
      cases hfinished
      rfl
  | failed _ _ hfails => exact absurd hfails (hreliable.not_failsWith _)
  | refused hreached _ hrefuses =>
      exact absurd hrefuses (not_refuses_of_reached houtput hall hreached)

end Parse

/-- The probe over the toggling table scans as the strict table does. -/
theorem scanBytes_probe (h : config.Distinct) (state : State) (x : ℕ) (bytes : Bytes) :
    scanBytes (dialect endian config .toggle) true state x bytes =
      scanBytes (dialect endian config .strict) false state x bytes := by
  induction bytes generalizing state x with
  | nil => rfl
  | cons b rest ih =>
      have hcell := transition_of_toggle endian h state b
      simp only [scanBytes, Bool.true_and, Bool.false_and, Bool.false_eq_true, if_false]
      by_cases hflag : ((dialect endian config .toggle).transition state b).strictError = true
      · rw [if_pos hflag] at hcell
        rw [if_pos hflag, hcell]
      · rw [if_neg hflag] at hcell
        rw [if_neg hflag, hcell]
        cases ((dialect endian config .strict).transition state b).next with
        | error => rfl
        | recordEnd => rfl
        | fieldEnd => exact ih .fieldStart (x + 1)
        | _ => exact ih _ (x + 1)

/-- The searches of the two tables differ, but not in what they come to. -/
theorem scanBuffer_probe (h : config.Distinct) (buf : Bytes) (state : State) :
    scanBuffer (dialect endian config .toggle) true buf buf.length state 0 =
      scanBuffer (dialect endian config .strict) false buf buf.length state 0 := by
  have hprobe := probeSound_new endian config
  have hstrict := searchSound_new endian (config.withHandling .strict)
  calc scanBuffer (dialect endian config .toggle) true buf buf.length state 0
      = scanBytes (dialect endian config .toggle) true state 0 (buf.drop 0) :=
        scanBuffer_spec hprobe.toSearchSound (fun _ => hprobe) buf _ state 0 (by omega)
    _ = scanBytes (dialect endian config .strict) false state 0 (buf.drop 0) :=
        scanBytes_probe endian h state 0 _
    _ = scanBuffer (dialect endian config .strict) false buf buf.length state 0 :=
        (scanBuffer_spec hstrict (fun hfalse => absurd hfalse Bool.false_ne_true) buf _ state 0
          (by omega)).symm

theorem findLoop_probe (h : config.Distinct) (fuel : ℕ) (reader : ChunkReader) (state : State)
    (x : ℕ) :
    findLoop (dialect endian config .toggle) true fuel reader state x =
      findLoop (dialect endian config .strict) false fuel reader state x := by
  induction fuel generalizing reader state x with
  | zero => rfl
  | succ fuel ih =>
      rw [findLoop, findLoop]
      cases reader.fill 1 with
      | error err => rfl
      | ok reader =>
          simp only [scanBuffer_probe endian h, ih]

/-- Strict is the restriction of the lenient dialects.  A source that parses under it parses
alike under every other quote handling, whatever its reader's schedule is; and the strict
probe over the toggling table finds what a run of the strict table finds. -/
theorem strict_restriction (endian : Endian) (config : ValidConfig) :
    (∀ (σ : Type) (acc : Accumulator σ) (output : Output) (mode : QuoteHandling)
      (reader reader' : ChunkReader) (state left : σ) (assumption : Assumption),
      output = .bytes ∨ output = .str → reader'.pending = reader.pending →
      reader.pending.length ≤ reader.chunkRemaining →
      reader.pending.length ≤ reader'.chunkRemaining → reader'.schedule.Reliable →
      (((DfaChunkParser.new endian (config.config.withHandling .strict)).chunkParser output
        acc).parse reader state assumption .no).result = .ok left →
      ((DfaChunkParser.new endian (config.config.withHandling mode)).chunkParser output acc).parse
          reader' state assumption .no =
        ((DfaChunkParser.new endian (config.config.withHandling .strict)).chunkParser output
          acc).parse reader state assumption .no) ∧
    ∀ (reader : ChunkReader) (assumption : Assumption),
      let parser := DfaChunkParser.new endian config.config
      let strict := Dfa.new endian (config.config.withHandling .strict)
      let state := parser.assumptionToState assumption
      findRecordStartFrom parser.findDfa true reader state =
          findRecordStartFrom strict false reader state ∧
        (findRecordStartFrom parser.findDfa true reader state).Matches reader
          (scanBytes strict false state 0
            (reader.pending.take reader.chunkRemaining)).boundary := by
  have h := config.distinct
  refine ⟨?_, fun reader assumption => ?_⟩
  · intro σ acc output mode reader reader' state left assumption houtput hpending hwhole hwhole'
      hreliable hok
    rcases parse_ends endian (config.config.withHandling .strict) acc output hwhole state
      assumption with ⟨failure, -, hparse⟩ | ⟨later, outcome, hlater, hends, hparse⟩
    · rw [hparse] at hok
      cases hok
    rw [hparse] at hok
    simp only [blankRun_withHandling] at hends hlater
    obtain ⟨last, hlast⟩ := PassResult.ok_of_ofBody hok
    have hbody : blankRun config.config reader.pending +
        (reader.pending.drop (blankRun config.config reader.pending)).length =
          reader.pending.length := by
      rw [List.length_drop, Nat.add_sub_cancel' (blankRun_le _ _)]
    have hend : reader.pending.length ≤
        blankRun config.config reader.pending + later.chunkRemaining := by
      rw [hlater.chunkRemaining]
      exact le_trans hwhole le_add_tsub
    obtain ⟨hall, s, hafter, hfinish⟩ := hends.finish_of_ok (hbody.trans_le hend)
      (congrArg Prod.snd hlast)
    rw [← hpending] at hwhole'
    rcases parse_ends endian (config.config.withHandling mode) acc output hwhole' state
      assumption with ⟨failure, hfails, -⟩ | ⟨later', outcome', hlater', hends', hparse'⟩
    · exact absurd hfails (hreliable.not_failsWith failure)
    simp only [blankRun_withHandling, hpending] at hends' hlater'
    have hend' : reader.pending.length ≤
        blankRun config.config reader.pending + later'.chunkRemaining := by
      rw [hlater'.chunkRemaining, ← hpending]
      exact le_trans hwhole' le_add_tsub
    have hsame := after_of_strict endian h mode hafter
    rw [RefState.after_chunkEnd_congr _ acc _ _ _ (hbody.trans_le hend)
      (hbody.trans_le hend')] at hsame
    have heq := hends'.eq_finish (hlater'.schedule.reliable hreliable) houtput hall hsame
    rw [hparse, hparse', heq, hfinish]
    rfl
  · have hprobe := findLoop_probe endian h (reader.pending.length + 1) reader
      ((DfaChunkParser.new endian config.config).assumptionToState assumption) 0
    have hmatches := findRecordStartFrom_spec
      (searchSound_new endian (config.config.withHandling .strict))
      (fun hfalse => absurd hfalse Bool.false_ne_true) reader
      ((DfaChunkParser.new endian config.config).assumptionToState assumption)
    refine ⟨hprobe, ?_⟩
    rw [show findRecordStartFrom (DfaChunkParser.new endian config.config).findDfa true reader
      ((DfaChunkParser.new endian config.config).assumptionToState assumption) =
        findRecordStartFrom (Dfa.new endian (config.config.withHandling .strict)) false reader
          ((DfaChunkParser.new endian config.config).assumptionToState assumption) from hprobe]
    exact hmatches

theorem strict_restriction_quoted :
    ((DfaChunkParser.new .little (Config.default.withHandling .literal)).chunkParser .str
        RecordWise.acceptAll.accumulator).parse (.whole [34, 97, 34, 10]) [] .outOfQuotes .no =
      ((DfaChunkParser.new .little (Config.default.withHandling .strict)).chunkParser .str
        RecordWise.acceptAll.accumulator).parse (.whole [34, 97, 34, 10]) [] .outOfQuotes .no :=
  (strict_restriction .little ⟨Config.default, by decide⟩).1 (List Record)
    RecordWise.acceptAll.accumulator .str .literal (.whole [34, 97, 34, 10])
    (.whole [34, 97, 34, 10]) [] [[[97]]] .outOfQuotes (Or.inr rfl) rfl (by decide) (by decide)
    Schedule.reliable_exact (by decide +kernel)

end Dfa

end Csveee
