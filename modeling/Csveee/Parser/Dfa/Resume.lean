import Csveee.Parser.Dfa.Comments

/-!
# Resuming a parse

A parse that stops, at a chunk's end or at the input's, reports the boundary the rest of the
input is parsed from: whatever the dialect, the records before it and those of the rest are the
records of the whole.  A parse that reports none has come upon blank lines and comments only.
-/

namespace Csveee.Dfa

open Reading

/-- The byte is blank where a record starts. -/
def Blank (dfa : Dfa) (b : Byte) : Prop := (dfa.transition .recordStart b).next = .recordStart

theorem Reading.step_blank {σ : Type} {config : StepperConfig} {acc : Accumulator σ}
    (hshape : Shape config.dfa) {b : Byte} (hb : Blank config.dfa b) (state : σ) :
    (new state).step config acc b = .ok (new state) :=
  Reading.step_between hshape (settled_new state) hb

namespace RefState

variable {σ : Type} {config : StepperConfig} {acc : Accumulator σ}

/-- What one byte comes to, whether or not the chunk ends on it. -/
theorem step_resumes (hshape : Shape config.dfa) (c x : ℕ) (b : Byte) {s : RefState σ}
    (hs : s.reading.Settled) :
    match s.step config acc c x b with
    | .inl next => s.reading.step config acc b = .ok next.reading ∧
        ((next.lastRecordEnd = s.lastRecordEnd ∧ next.state = s.state) ∨
          next.lastRecordEnd = some x ∧ next.reading = .new next.state ∧ Blank config.dfa b)
    | .inr (state, .ok next) => next = some x ∧ c ≤ x ∧ Blank config.dfa b ∧
        s.reading.step config acc b = .ok (.new state)
    | .inr (state, .error _) => s.reading.step config acc b = .error state := by
  have hpush : ∀ trans, ((s.begin x).push trans b).reading = s.reading.push trans b := by
    intro trans
    rw [reading_push, reading_begin]
  have hkept : ∀ trans, ((s.begin x).push trans b).lastRecordEnd = s.lastRecordEnd ∧
      ((s.begin x).push trans b).state = s.state := by
    intro trans
    rw [push, begin]
    split_ifs <;> exact ⟨rfl, rfl⟩
  by_cases hblank : s.isBlank config b = true
  · have hstart : s.dfaState = .recordStart ∧ Blank config.dfa b := by
      simpa only [Blank, isBlank, Bool.and_eq_true, beq_iff_eq] using hblank
    have hnew : s.reading = .new s.state := hs.eq_new hstart.1
    have hstep : s.reading.step config acc b = .ok (.new s.state) := by
      rw [hnew]
      exact Reading.step_blank hshape hstart.2 s.state
    simp only [step, if_pos hblank]
    by_cases hdone : c ≤ x
    · simp only [if_pos hdone]
      exact ⟨trivial, hdone, hstart.2, hstep⟩
    · simp only [if_neg hdone]
      exact ⟨hnew ▸ hstep, Or.inl ⟨trivial, trivial⟩⟩
  · have hdfa : s.reading.dfaState = s.dfaState := rfl
    have hclose : ∀ s : RefState σ, s.reading.closeField config = (s.closeField config).reading :=
      fun _ => rfl
    obtain ⟨hlast, hstate⟩ := hkept (config.dfa.transition s.dfaState b)
    simp only [step, if_neg hblank, Reading.step, hdfa, ← hpush, hclose]
    cases hnext : (config.dfa.transition s.dfaState b).next with
    | error => rfl
    | recordEnd =>
        have hb : Blank config.dfa b := hshape.recordEnd_blank _ _ hnext
        simp only [endRecord, emit_reading]
        cases (((s.begin x).push (config.dfa.transition s.dfaState b) b).closeField config).emit
            config acc with
        | mk state verdict =>
            cases verdict with
            | error err => rfl
            | ok _ =>
                by_cases hdone : c ≤ x
                · simp only [if_pos hdone]
                  exact ⟨trivial, hdone, hb, rfl⟩
                · simp only [if_neg hdone]
                  exact ⟨rfl, Or.inr ⟨trivial, rfl, hb⟩⟩
    | _ => exact ⟨rfl, Or.inl ⟨hlast, hstate⟩⟩

/-- What the outcome of a parse up to a chunk's end tells about the whole: it goes on from the
boundary reported, and one short of the chunk's end has nothing behind it. -/
def Resumes (config : StepperConfig) (acc : Accumulator σ) (s : RefState σ) (c x : ℕ)
    (bytes : Bytes) (outcome : BodyOutcome σ) : Prop :=
  match outcome.2 with
  | .error _ => s.reading.run config acc bytes = .error outcome.1
  | .ok next =>
      (next = s.lastRecordEnd ∧ outcome.1 = s.state ∧
        s.reading.run config acc bytes = .ok outcome.1) ∨
      ∃ q, next = some q ∧ x ≤ q ∧ q ≤ x + bytes.length ∧
        (q < x + bytes.length → ∃ b, bytes[q - x]? = some b ∧ Blank config.dfa b) ∧
        (q < c → s.reading.run config acc bytes = .ok outcome.1) ∧
        s.reading.run config acc bytes =
          (Reading.new outcome.1).run config acc (bytes.drop (q - x))

theorem run_resumes (hshape : Shape config.dfa) (c x : ℕ) (bytes : Bytes) {s : RefState σ}
    (hs : s.reading.Settled) :
    s.Resumes config acc c x bytes (s.run config acc c x bytes) := by
  induction bytes generalizing x s with
  | nil =>
      have hfinish := @finish_reading _ config acc x s
      have hrun : s.reading.run config acc [] = s.reading.finish config acc := rfl
      rw [run, Resumes, hrun, ← hfinish]
      cases hs : s.dfaState with
      | fieldStart | inField | afterClosingQuote =>
          rw [finish_open config acc x (by simp [hs])]
          cases (s.closeField config).emit config acc with
          | mk state verdict =>
              cases verdict with
              | error err => rfl
              | ok _ =>
                  refine Or.inr ⟨x, rfl, le_rfl, by simp, fun hlt => ?_, fun _ => rfl, ?_⟩
                  · simp at hlt
                  · rw [List.drop_nil]
                    rfl
      | inQuotedField | inEscapedQuote =>
          simp only [finish, hs]
          rfl
      | _ =>
          simp only [finish, hs]
          exact Or.inl ⟨trivial, trivial, rfl⟩
  | cons b rest ih =>
      have hstep := @step_resumes _ config acc hshape c x b _ hs
      rw [run]
      cases hnext : s.step config acc c x b with
      | inl next =>
          rw [hnext] at hstep
          obtain ⟨hreading, hkept⟩ := hstep
          have hrest := ih (x + 1) (step_settled hshape hs hreading).1
          simp only [Resumes, List.length_cons] at hrest ⊢
          rw [Reading.run_cons hreading]
          cases hout : (next.run config acc c (x + 1) rest).2 with
          | error err =>
              rw [hout] at hrest
              exact hrest
          | ok last =>
              rw [hout] at hrest
              rcases hrest with ⟨hlast, hstate, hrun⟩ | ⟨q, hq, hxq, hle, hblank, hshort, hrun⟩
              · rcases hkept with ⟨hlast', hstate'⟩ | ⟨hlast', hnew, hb⟩
                · exact Or.inl ⟨hlast.trans hlast', hstate.trans hstate', hrun⟩
                · -- the record that ended on this byte is the last one
                  refine Or.inr ⟨x, hlast.trans hlast', le_rfl, by omega, fun _ => ⟨b, ?_, hb⟩,
                    fun _ => hrun, ?_⟩
                  · rw [Nat.sub_self, List.getElem?_cons_zero]
                  · rw [Nat.sub_self, List.drop_zero,
                      Reading.run_cons (Reading.step_blank hshape hb _), hstate, ← hnew]
              · refine Or.inr ⟨q, hq, by omega, by omega, fun hlt => ?_, hshort, ?_⟩
                · rw [show q - x = q - (x + 1) + 1 by omega, List.getElem?_cons_succ]
                  exact hblank (by omega)
                · rw [show q - x = q - (x + 1) + 1 by omega, List.drop_succ_cons]
                  exact hrun
      | inr outcome =>
          rw [hnext] at hstep
          obtain ⟨state, verdict⟩ := outcome
          simp only [Resumes, List.length_cons]
          cases verdict with
          | error err =>
              simp only at hstep ⊢
              rw [Reading.run, Reading.steps, hstep]
              rfl
          | ok next =>
              obtain ⟨hx, hdone, hb, hreading⟩ := hstep
              refine Or.inr ⟨x, hx, le_rfl, by omega, fun _ => ⟨b, ?_, hb⟩,
                fun hlt => absurd hlt (Nat.not_lt.mpr hdone), ?_⟩
              · rw [Nat.sub_self, List.getElem?_cons_zero]
              · rw [Nat.sub_self, List.drop_zero, Reading.run_cons hreading,
                  Reading.run_cons (Reading.step_blank hshape hb _)]

/-- A parse that reports no boundary has nothing in it: from any of its blank bytes, nothing
comes out of the rest. -/
theorem run_none {acc : RecordWise} (hshape : Shape config.dfa)
    (hends : ∀ b, Blank config.dfa b → (config.dfa.transition .inComment b).next = .recordStart)
    {c x : ℕ} (bytes : Bytes) {s : RefState (List Record)} (hs : s.reading.Settled)
    {records : List Record}
    (hrun : s.run config acc.accumulator c x bytes = (records, .ok none)) {p : ℕ} {b : Byte}
    (hb : bytes[p]? = some b) (hblank : Blank config.dfa b) :
    (Reading.new records).run config acc.accumulator (bytes.drop p) = .ok records := by
  induction bytes generalizing x s p with
  | nil => cases hb
  | cons b' rest ih =>
      have hresumes := @run_resumes _ config acc.accumulator hshape c x (b' :: rest) _ hs
      have hstep := @step_resumes _ config acc.accumulator hshape c x b' _ hs
      rw [hrun] at hresumes
      rw [run] at hrun
      cases hnext : s.step config acc.accumulator c x b' with
      | inr outcome =>
          rw [hnext] at hrun hstep
          simp only at hrun
          rw [hrun] at hstep
          cases hstep.1
      | inl next =>
          rw [hnext] at hrun hstep
          obtain ⟨hreading, -⟩ := hstep
          cases p with
          | succ p => exact ih (step_settled hshape hs hreading).1 hrun hb
          | zero =>
              cases hb
              rw [List.drop_zero]
              rcases hresumes with ⟨-, rfl, hrun⟩ | ⟨_, hfalse, -⟩
              · cases hfrom : s.dfaState with
                | recordStart =>
                    rw [show s.reading = .new s.state from hs.eq_new hfrom] at hrun
                    exact hrun
                | inComment =>
                    have hclosed : s.reading.step config acc.accumulator b = .ok (.new s.state) :=
                      Reading.step_between hshape hs (by rw [reading, hfrom]; exact hends b hblank)
                    rw [Reading.run_cons hclosed] at hrun
                    rw [Reading.run_cons (Reading.step_blank hshape hblank _)]
                    exact hrun
                | _ =>
                    have hlt := (run_length hshape hs hrun).2 (by simp [reading, hfrom])
                      (by simp [reading, hfrom])
                    exact absurd hlt (lt_irrefl _)
              · cases hfalse

end RefState

section

variable {config : StepperConfig} {acc : RecordWise} {data : Bytes}

/-- What a parse comes to after earlier records. -/
theorem refParse_append (earlier : List Record) (c p : ℕ) (bytes : Bytes) :
    RefState.Moved 0 none (earlier ++ ·) (refParse config acc.accumulator c p bytes [])
      (refParse config acc.accumulator c p bytes earlier) := by
  have hmove := @RefState.run_move _ config _ _ _ 0 none _ (follows_append acc earlier) c p
    bytes (RefState.new p [])
  simp only [RefState.move, RefState.new, Nat.zero_add, List.append_nil, Option.map_none,
    Option.or_none] at hmove
  exact hmove

/-- The parse of the input from `q` on, after earlier records. -/
def restFrom (config : StepperConfig) (acc : RecordWise) (data : Bytes) (q : ℕ)
    (records : List Record) : Except (List Record) (List Record) :=
  (Reading.new records).run config acc.accumulator (data.drop q)

/-- With these records from before the chunk end `c` and this boundary reported, where a parse
that comes to `total` as a whole stands. -/
def Pending (config : StepperConfig) (acc : RecordWise) (data : Bytes)
    (total : Except (List Record) (List Record)) (c : ℕ) (records : List Record) :
    Option ℕ → Prop
  | none => total = .ok records ∧ ∀ q b, c ≤ q → data[q]? = some b → Blank config.dfa b →
      restFrom config acc data q records = total
  | some q => q ≤ data.length ∧ (q < data.length → ∃ b, data[q]? = some b ∧ Blank config.dfa b) ∧
      (q < c → total = .ok records) ∧ restFrom config acc data q records = total

/-- What the parse of a piece from `p` up to `c` tells about the parse of the rest. -/
theorem refParse_pending (hshape : Shape config.dfa)
    (hends : ∀ b, Blank config.dfa b → (config.dfa.transition .inComment b).next = .recordStart)
    (earlier : List Record) {p c : ℕ} (hpc : p ≤ c) (hp : p ≤ data.length) :
    match refParse config acc.accumulator c p (data.drop p) [] with
    | (records, .ok next) => Pending config acc data (restFrom config acc data p earlier) c
        (earlier ++ records) next
    | (_, .error _) => ∃ left, restFrom config acc data p earlier = .error left := by
  obtain ⟨hrecords, hnext⟩ := @refParse_append config acc earlier c p (data.drop p)
  have hresumes := @RefState.run_resumes _ config acc.accumulator hshape c p (data.drop p)
    (.new p earlier) (settled_new earlier)
  have hlength := List.length_drop (i := p) (l := data)
  change RefState.Resumes config _ _ c p _ (refParse config acc.accumulator c p (data.drop p)
    earlier) at hresumes
  cases hthere : refParse config acc.accumulator c p (data.drop p) earlier with
  | mk records outcome =>
      cases hhere : refParse config acc.accumulator c p (data.drop p) [] with
      | mk own verdict =>
          rw [hhere, hthere] at hrecords hnext
          simp only at hrecords hnext
          subst hrecords
          cases verdict with
          | error err =>
              cases outcome with
              | ok next => cases hnext
              | error err' =>
                  rw [hthere] at hresumes
                  exact ⟨_, hresumes⟩
          | ok next =>
              cases outcome with
              | error err' => cases hnext
              | ok next' =>
                  simp only [Except.toOption, Option.map_some, Option.or_none, Nat.zero_add,
                    Option.map_id'] at hnext
                  cases hnext
                  rw [hthere] at hresumes
                  rcases hresumes with ⟨hnone, hstate, hrun⟩ | ⟨q, hq, hpq, hle, hb, hshort, hrun⟩
                  · cases next with
                    | some q => cases hnone
                    | none =>
                        refine ⟨hrun, fun q b hcq hb hblank => ?_⟩
                        have hpq : p ≤ q := hpc.trans hcq
                        have htail := @RefState.run_none config acc hshape hends c p
                          (data.drop p) (.new p earlier) (settled_new earlier) _ hthere (q - p) b
                          (by rw [List.getElem?_drop, Nat.add_sub_cancel' hpq, hb])
                          hblank
                        rw [List.drop_drop, Nat.add_sub_cancel' hpq] at htail
                        exact htail.trans hrun.symm
                  · cases hq
                    rw [List.drop_drop, Nat.add_sub_cancel' hpq] at hrun
                    refine ⟨by omega, fun hlt => ?_, hshort, hrun.symm⟩
                    obtain ⟨b, hb, hblank⟩ := hb (by omega)
                    rw [List.getElem?_drop, Nat.add_sub_cancel' hpq] at hb
                    exact ⟨b, hb, hblank⟩

end

end Csveee.Dfa
