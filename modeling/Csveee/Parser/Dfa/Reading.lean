import Csveee.Parser.Dfa.Modes
import Csveee.Parser.Dfa.Pass

/-!
# What a parse emits

The reference parser without its offsets.  Over a whole input, what the accumulator is
handed and whether the parse succeeds depend on nothing else, and both are read off the
bytes piece by piece.
-/

namespace Csveee.Dfa

/-- A parse in flight, as far as records depend on it. -/
structure Reading (σ : Type) where
  dfaState : State
  fields : Record
  field : Bytes
  state : σ

/-- The accumulator state left behind, and whether the parse succeeded. -/
def BodyOutcome.digest {σ : Type} (outcome : BodyOutcome σ) : Except σ σ :=
  match outcome.2 with
  | .ok _ => .ok outcome.1
  | .error _ => .error outcome.1

namespace Reading

variable {σ : Type} (config : StepperConfig) (acc : Accumulator σ)

def new (state : σ) : Reading σ where
  dfaState := .recordStart
  fields := []
  field := []
  state := state

def closeField (r : Reading σ) : Reading σ :=
  { r with
    fields := r.fields ++ [if config.trimFields then trimAscii r.field else r.field]
    field := [] }

/-- Hand out the record if it has the fields expected. -/
def emit (r : Reading σ) : Except σ σ :=
  if config.expectedFields.all (r.fields.length == ·) then
    let verdict := acc r.state r.fields
    match verdict.result with
    | .ok () => .ok verdict.state
    | .error _ => .error verdict.state
  else .error r.state

/-- Append the byte to the field in flight if the transition outputs it. -/
def push (trans : Transition) (b : Byte) (r : Reading σ) : Reading σ :=
  if trans.hasOutput then { r with field := r.field ++ [b] } else r

def step (r : Reading σ) (b : Byte) : Except σ (Reading σ) :=
  let trans := config.dfa.transition r.dfaState b
  let r := r.push trans b
  match trans.next with
  | .error => .error r.state
  | .fieldEnd => .ok { r.closeField config with dfaState := .fieldStart }
  | .recordEnd => (r.closeField config).emit config acc |>.map new
  | next => .ok { r with dfaState := next }

def finish (r : Reading σ) : Except σ σ :=
  match r.dfaState with
  | .inQuotedField | .inEscapedQuote => .error r.state
  | .fieldStart | .inField | .afterClosingQuote => (r.closeField config).emit config acc
  | _ => .ok r.state

def steps (r : Reading σ) : Bytes → Except σ (Reading σ)
  | [] => .ok r
  | b :: rest => r.step config acc b >>= (steps · rest)

def run (bytes : Bytes) (r : Reading σ) : Except σ σ :=
  r.steps config acc bytes >>= finish config acc

variable {config acc}

theorem steps_append (r : Reading σ) (left right : Bytes) :
    r.steps config acc (left ++ right) =
      r.steps config acc left >>= (steps config acc · right) := by
  induction left generalizing r with
  | nil => rfl
  | cons b rest ih =>
      rw [List.cons_append, steps, steps]
      cases r.step config acc b with
      | error state => rfl
      | ok next => exact ih next

theorem run_append (r : Reading σ) (left right : Bytes) :
    r.run config acc (left ++ right) =
      r.steps config acc left >>= run config acc right := by
  rw [run, steps_append]
  cases r.steps config acc left with
  | error state => rfl
  | ok next => rfl

theorem steps_cons {r next : Reading σ} {b : Byte} (h : r.step config acc b = .ok next)
    (rest : Bytes) : r.steps config acc (b :: rest) = next.steps config acc rest := by
  rw [steps, h]
  rfl

theorem steps_append_ok {r next : Reading σ} {left : Bytes}
    (h : r.steps config acc left = .ok next) (right : Bytes) :
    r.steps config acc (left ++ right) = next.steps config acc right := by
  rw [steps_append, h]
  rfl

theorem run_append_ok {r next : Reading σ} {left : Bytes}
    (h : r.steps config acc left = .ok next) (right : Bytes) :
    r.run config acc (left ++ right) = next.run config acc right := by
  rw [run_append, h]
  rfl

theorem run_cons {r next : Reading σ} {b : Byte} (h : r.step config acc b = .ok next)
    (rest : Bytes) : r.run config acc (b :: rest) = next.run config acc rest := by
  rw [run, steps_cons h]
  rfl

/-- Between records, nothing is in flight. -/
def Settled (r : Reading σ) : Prop :=
  r.dfaState.isAction = false ∧
    (r.dfaState = .recordStart ∨ r.dfaState = .inComment → r.fields = [] ∧ r.field = [])

theorem settled_new (state : σ) : (new state).Settled := ⟨rfl, fun _ => ⟨rfl, rfl⟩⟩

theorem Settled.eq_new {r : Reading σ} (h : r.Settled) (hstart : r.dfaState = .recordStart) :
    r = .new r.state := by
  obtain ⟨hfields, hfield⟩ := h.2 (Or.inl hstart)
  cases r
  cases hstart
  cases hfields
  cases hfield
  rfl

/-- A byte that leads to where a record starts leaves nothing in flight. -/
theorem step_between (hshape : Shape config.dfa) {r : Reading σ} (hr : r.Settled) {b : Byte}
    (hnext : (config.dfa.transition r.dfaState b).next = .recordStart) :
    r.step config acc b = .ok (new r.state) := by
  obtain ⟨hbetween, hout⟩ := hshape.idle r.dfaState b (Or.inl hnext)
  obtain ⟨hfields, hfield⟩ := hr.2 hbetween
  simp only [step, hnext, push, hout, Bool.false_eq_true, if_false, new, hfields, hfield]

/-- One byte leads to the next state of the table, and keeps what lies between records
clear. -/
theorem step_settled (hshape : Shape config.dfa) {r next : Reading σ} {b : Byte}
    (hr : r.Settled) (h : r.step config acc b = .ok next) :
    next.Settled ∧ next.dfaState = config.dfa.advance r.dfaState b := by
  simp only [step, advance] at h ⊢
  split at h
  · cases h
  · rename_i hnext
    cases h
    exact ⟨⟨rfl, by rintro (hfalse | hfalse) <;> cases hfalse⟩, by rw [hnext]; rfl⟩
  · rename_i hnext
    cases hemit : ((r.push (config.dfa.transition r.dfaState b) b).closeField config).emit
        config acc with
    | error state =>
        rw [hemit] at h
        cases h
    | ok state =>
        rw [hemit] at h
        cases h
        exact ⟨settled_new state, by rw [hnext]; rfl⟩
  · rename_i herror hfield hrecord
    cases h
    refine ⟨⟨?_, fun hidle => ?_⟩, ?_⟩
    · cases hnext : (config.dfa.transition r.dfaState b).next with
      | error => exact absurd hnext herror
      | fieldEnd => exact absurd hnext hfield
      | recordEnd => exact absurd hnext hrecord
      | _ => rfl
    · obtain ⟨hbetween, hout⟩ := hshape.idle r.dfaState b hidle
      simp only [push, hout]
      exact hr.2 hbetween
    · cases hnext : (config.dfa.transition r.dfaState b).next with
      | fieldEnd => exact absurd hnext hfield
      | recordEnd => exact absurd hnext hrecord
      | _ => rfl

theorem steps_settled (hshape : Shape config.dfa) {r next : Reading σ} {bytes : Bytes}
    (hr : r.Settled) (h : r.steps config acc bytes = .ok next) :
    next.Settled ∧ next.dfaState = config.dfa.stateAfter r.dfaState bytes := by
  induction bytes generalizing r with
  | nil =>
      cases h
      exact ⟨hr, rfl⟩
  | cons b rest ih =>
      rw [steps] at h
      cases hstep : r.step config acc b with
      | error state =>
          rw [hstep] at h
          cases h
      | ok middle =>
          rw [hstep] at h
          obtain ⟨hmiddle, hstate⟩ := step_settled hshape hr hstep
          rw [stateAfter, List.foldl_cons, ← hstate]
          exact ih hmiddle h

end Reading

namespace RefState

variable {σ : Type} {config : StepperConfig} {acc : Accumulator σ}

/-- The state without its offsets. -/
def reading (s : RefState σ) : Reading σ where
  dfaState := s.dfaState
  fields := s.fields
  field := s.field
  state := s.state

theorem reading_new (base : ℕ) (state : σ) : (new base state).reading = .new state := rfl

theorem reading_begin (x : ℕ) (s : RefState σ) : (s.begin x).reading = s.reading := by
  rw [begin]
  split_ifs <;> rfl

theorem reading_push (trans : Transition) (b : Byte) (s : RefState σ) :
    (s.push trans b).reading = s.reading.push trans b := by
  rw [push, Reading.push]
  split_ifs <;> rfl

theorem emit_reading (s : RefState σ) :
    s.reading.emit config acc =
      match (s.emit config acc).2 with
      | .ok () => .ok (s.emit config acc).1
      | .error _ => .error (s.emit config acc).1 := by
  have hfields : s.reading.fields = s.fields := rfl
  have hstate : s.reading.state = s.state := rfl
  rw [Reading.emit, emit, hfields, hstate]
  by_cases harity : config.expectedFields.all (s.fields.length == ·) = true
  · simp only [if_pos harity]
    cases (acc s.state s.fields).result <;> rfl
  · simp only [if_neg harity]

/-- One byte ahead of the chunk's end. -/
theorem step_reading (hshape : Shape config.dfa) {c x : ℕ} (hx : x < c) (b : Byte)
    (s : RefState σ) :
    match s.step config acc c x b with
    | .inl next => s.reading.step config acc b = .ok next.reading
    | .inr outcome => s.reading.step config acc b = .error outcome.1 ∧
        outcome.digest = .error outcome.1 := by
  have hstate : s.reading.dfaState = s.dfaState := rfl
  by_cases hblank : s.isBlank config b = true
  · simp only [step, if_pos hblank, if_neg (Nat.not_le.mpr hx)]
    simp only [isBlank, Bool.and_eq_true, beq_iff_eq] at hblank
    have hout := (hshape.idle .recordStart b (Or.inl hblank.2)).2
    rw [Reading.step]
    simp only [hstate, hblank.1, hblank.2, Reading.push, hout]
    rw [← hblank.1]
    rfl
  · have hpush : ((s.begin x).push (config.dfa.transition s.dfaState b) b).reading =
        s.reading.push (config.dfa.transition s.dfaState b) b := by
      rw [reading_push, reading_begin]
    have hclose : ∀ s : RefState σ, s.reading.closeField config = (s.closeField config).reading :=
      fun _ => rfl
    simp only [step, if_neg hblank, Reading.step, hstate, ← hpush, hclose]
    cases hnext : (config.dfa.transition s.dfaState b).next with
    | error => exact ⟨rfl, rfl⟩
    | recordEnd =>
        simp only [endRecord, emit_reading]
        cases (((s.begin x).push (config.dfa.transition s.dfaState b) b).closeField config).emit
            config acc with
        | mk state verdict =>
            cases verdict with
            | error err => exact ⟨rfl, rfl⟩
            | ok _ =>
                simp only [if_neg (Nat.not_le.mpr hx)]
                rfl
    | _ => rfl

theorem finish_reading (x : ℕ) (s : RefState σ) :
    (s.finish config acc x).digest = s.reading.finish config acc := by
  have hstate : s.reading.dfaState = s.dfaState := rfl
  have hclose : s.reading.closeField config = (s.closeField config).reading := rfl
  simp only [finish, Reading.finish, hstate, hclose, emit_reading]
  cases s.dfaState with
  | fieldStart | inField | afterClosingQuote =>
      cases (s.closeField config).emit config acc with
      | mk state verdict => cases verdict <;> rfl
  | _ => rfl

/-- A parse that no chunk end cuts is read off the bytes. -/
theorem run_reading (hshape : Shape config.dfa) {c x : ℕ} (bytes : Bytes)
    (hc : x + bytes.length ≤ c) (s : RefState σ) :
    (s.run config acc c x bytes).digest = s.reading.run config acc bytes := by
  induction bytes generalizing x s with
  | nil => exact finish_reading x s
  | cons b rest ih =>
      rw [List.length_cons] at hc
      have hstep := @step_reading _ _ acc hshape c x (by omega) b s
      rw [run, Reading.run, Reading.steps]
      cases hnext : s.step config acc c x b with
      | inl next =>
          rw [hnext] at hstep
          rw [hstep]
          exact ih (by omega) next
      | inr outcome =>
          rw [hnext] at hstep
          rw [hstep.1]
          exact hstep.2

end RefState

theorem refParse_reading {σ : Type} {config : StepperConfig} {acc : Accumulator σ}
    (hshape : Shape config.dfa) (bytes : Bytes) (state : σ) :
    (refParse config acc bytes.length 0 bytes state).digest =
      (Reading.new state).run config acc bytes :=
  RefState.run_reading hshape bytes (by omega) (.new 0 state)

/-- The parse of a whole source in one chunk, as its records go. -/
theorem parse_reading {σ : Type} (endian : Endian) {config : Config} (h : config.Distinct)
    (acc : Accumulator σ) {reader : ChunkReader} (hreliable : reader.schedule.Reliable)
    (hwhole : reader.pending.length ≤ reader.chunkRemaining) (state : σ)
    (assumption : Assumption) :
    (((DfaChunkParser.new endian config).chunkParser .bytes acc).parse reader state assumption
        .no).result.toOption =
      ((Reading.new state).run (reference endian config) acc reader.pending).toOption := by
  rw [parse_whole endian config acc h hreliable hwhole,
    ← refParse_reading (shape_reference h endian)]
  cases hparse : refParse (reference endian config) acc reader.pending.length 0 reader.pending
      state with
  | mk left result =>
      cases result <;> rfl

end Csveee.Dfa
