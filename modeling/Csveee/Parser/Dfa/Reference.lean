import Csveee.Parser.Dfa.Stepper

/-!
# The reference parser

The byte automaton without its machinery: the transition is folded over the
bytes one at a time, content is appended to a fresh field, and nothing is
searched for, compacted, suspended or consumed.
-/

namespace Csveee.Dfa

/-- What a body parse comes to: the accumulator state it leaves behind, and the
offset just past the last completed record or the error. -/
abbrev BodyOutcome (σ : Type) := σ × Except Error (Option ℕ)

def trimAscii (field : Bytes) : Bytes :=
  ((field.dropWhile isAsciiWhitespace).reverse.dropWhile isAsciiWhitespace).reverse

structure RefState (σ : Type) where
  dfaState : State
  /-- The completed fields of the record in flight. -/
  fields : Record
  /-- The field in flight. -/
  field : Bytes
  /-- Absolute offsets of the record and the field in flight. -/
  recordInStart : ℕ
  fieldInStart : ℕ
  lastRecordEnd : Option ℕ
  state : σ

namespace RefState

variable {σ : Type} (config : StepperConfig) (acc : Accumulator σ)

def new (base : ℕ) (state : σ) : RefState σ where
  dfaState := .recordStart
  fields := []
  field := []
  recordInStart := base
  fieldInStart := base
  lastRecordEnd := none
  state := state

def closeField (s : RefState σ) : RefState σ :=
  { s with
    fields := s.fields ++ [if config.trimFields then trimAscii s.field else s.field]
    field := [] }

/-- Check the arity of the record, then hand it out. -/
def emit (s : RefState σ) : σ × Except Error Unit :=
  let found := s.fields.length
  if config.expectedFields.all (found == ·) then
    let verdict := acc s.state s.fields
    (verdict.state, verdict.result.mapError Error.fromUser)
  else (s.state, .error (.numberOfFields (config.expectedFields.getD 0) found s.recordInStart))

/-- Bytes of a blank line run loop in the state a record starts in. -/
def isBlank (s : RefState σ) (b : Byte) : Bool :=
  s.dfaState == .recordStart && (config.dfa.transition .recordStart b).next == .recordStart

/-- A byte that is not blank begins the record, and with it its first field. -/
def begin (x : ℕ) (s : RefState σ) : RefState σ :=
  if s.dfaState = .recordStart then { s with recordInStart := x, fieldInStart := x } else s

/-- Append the byte to the field in flight if the transition outputs it. -/
def push (trans : Transition) (b : Byte) (s : RefState σ) : RefState σ :=
  if trans.hasOutput then { s with field := s.field ++ [b] } else s

/-- A record ends on the byte at `x`: the chunk is done if that byte lies at or
past the chunk's end. -/
def endRecord (chunkEnd x : ℕ) (s : RefState σ) : RefState σ ⊕ BodyOutcome σ :=
  let s := s.closeField config
  match s.emit config acc with
  | (state, .error err) => .inr (state, .error err)
  | (state, .ok ()) =>
      if chunkEnd ≤ x then .inr (state, .ok (some x))
      else .inl { s with
        dfaState := .recordStart
        fields := []
        fieldInStart := x + 1
        lastRecordEnd := some x
        state := state }

/-- One byte `b` at the absolute offset `x`. -/
def step (chunkEnd x : ℕ) (b : Byte) (s : RefState σ) : RefState σ ⊕ BodyOutcome σ :=
  if s.isBlank config b then
    if chunkEnd ≤ x then .inr (s.state, .ok (some x)) else .inl s
  else
    let trans := config.dfa.transition s.dfaState b
    let s := (s.begin x).push trans b
    match trans.next with
    | .error => .inr (s.state, .error (.invalidQuote x))
    | .fieldEnd =>
        .inl { s.closeField config with dfaState := .fieldStart, fieldInStart := x + 1 }
    | .recordEnd => s.endRecord config acc chunkEnd x
    | next => .inl { s with dfaState := next }

def finish (x : ℕ) (s : RefState σ) : BodyOutcome σ :=
  match s.dfaState with
  | .inQuotedField | .inEscapedQuote => (s.state, .error (.unclosedQuote s.fieldInStart))
  | .fieldStart | .inField | .afterClosingQuote =>
      match (s.closeField config).emit config acc with
      | (state, .error err) => (state, .error err)
      | (state, .ok ()) => (state, .ok (some x))
  | _ => (s.state, .ok s.lastRecordEnd)

theorem finish_open (x : ℕ) {s : RefState σ}
    (h : s.dfaState = .fieldStart ∨ s.dfaState = .inField ∨ s.dfaState = .afterClosingQuote) :
    s.finish config acc x =
      match (s.closeField config).emit config acc with
      | (state, .error err) => (state, .error err)
      | (state, .ok ()) => (state, .ok (some x)) := by
  rw [finish]
  rcases h with h | h | h <;> rw [h]

def run (chunkEnd : ℕ) : ℕ → Bytes → RefState σ → BodyOutcome σ
  | x, [], s => s.finish config acc x
  | x, b :: rest, s =>
      match s.step config acc chunkEnd x b with
      | .inl s => run chunkEnd (x + 1) rest s
      | .inr outcome => outcome

/-- Fold the bytes from the absolute offset `x` on: the state they lead to, or an outcome
on the way. -/
def after (chunkEnd : ℕ) : ℕ → Bytes → RefState σ → RefState σ ⊕ BodyOutcome σ
  | _, [], s => .inl s
  | x, b :: rest, s =>
      match s.step config acc chunkEnd x b with
      | .inl s => after chunkEnd (x + 1) rest s
      | .inr outcome => .inr outcome

theorem after_one (chunkEnd x : ℕ) (b : Byte) (s : RefState σ) :
    s.after config acc chunkEnd x [b] = s.step config acc chunkEnd x b := by
  rw [after]
  cases s.step config acc chunkEnd x b <;> rfl

theorem run_eq_after (chunkEnd x : ℕ) (bytes : Bytes) (s : RefState σ) :
    s.run config acc chunkEnd x bytes =
      match s.after config acc chunkEnd x bytes with
      | .inl s => s.finish config acc (x + bytes.length)
      | .inr outcome => outcome := by
  induction bytes generalizing x s with
  | nil => rfl
  | cons b rest ih =>
      rw [run, after, List.length_cons, show x + (rest.length + 1) = x + 1 + rest.length by omega]
      cases s.step config acc chunkEnd x b with
      | inl next => exact ih (x + 1) next
      | inr outcome => rfl

theorem after_append (chunkEnd x : ℕ) (left right : Bytes) (s : RefState σ) :
    s.after config acc chunkEnd x (left ++ right) =
      match s.after config acc chunkEnd x left with
      | .inl s => s.after config acc chunkEnd (x + left.length) right
      | .inr outcome => .inr outcome := by
  induction left generalizing x s with
  | nil => rfl
  | cons b rest ih =>
      rw [List.cons_append, after, after, List.length_cons,
        show x + (rest.length + 1) = x + 1 + rest.length by omega]
      cases s.step config acc chunkEnd x b with
      | inl next => exact ih (x + 1) next
      | inr outcome => rfl

end RefState

/-- Parse the records of a body that starts at the absolute offset `base`. -/
def refParse {σ : Type} (config : StepperConfig) (acc : Accumulator σ)
    (chunkEnd base : ℕ) (body : Bytes) (state : σ) : BodyOutcome σ :=
  RefState.run config acc chunkEnd base body (.new base state)

end Csveee.Dfa
