import Csveee.Parser.Driver
import Csveee.Parser.Dfa.Table

/-!
# The DFA stepper

The per-byte state machine behind the driver: the needle scan over runs of
content, the write cursor that compacts fields in place, the spans of the record
in flight, and the end-of-file epilogue for each state.  Pointers into the
buffer are offsets from its base.
-/

namespace Csveee.Dfa

/-- What the stepper is built with and never changes. -/
structure StepperConfig where
  dfa : Dfa
  trimFields : Bool
  expectedFields : Option ℕ

structure DfaStepper where
  dfaState : State
  /-- Buffer offset where the current field started. -/
  fieldStart : ℕ
  /-- In-place compaction write cursor. -/
  writePos : ℕ
  /-- Buffer offset of the record in flight. -/
  recordBufStart : ℕ
  /-- Fields of the record in flight, as pointers. -/
  refs : List (ℕ × ℕ)
  /-- The same as offsets, across a refill. -/
  pendingSpans : List (ℕ × ℕ)
  lastRecordEnd : Option ℕ
  /-- Absolute offsets of the record and the field in flight. -/
  recordInStart : ℕ
  fieldInStart : ℕ
  deriving DecidableEq, Repr

def isAsciiWhitespace (b : Byte) : Bool :=
  b == 9 || b == 10 || b == 12 || b == 13 || b == 32

/-- Lengths of the whitespace at either end, for `trim_ascii`. -/
def leadingWhitespace (bytes : Bytes) : ℕ := (bytes.takeWhile isAsciiWhitespace).length

/-- `trim_ascii` of a span. -/
def trimSpan (buf : Bytes) (off len : ℕ) : ℕ × ℕ :=
  let bytes := Slice.slice buf off len
  let lead := leadingWhitespace bytes
  let rest := bytes.drop lead
  (off + lead, rest.length - leadingWhitespace rest.reverse)

namespace DfaStepper

def new (startOffset : ℕ) : DfaStepper where
  dfaState := .recordStart
  fieldStart := 0
  writePos := 0
  recordBufStart := 0
  refs := []
  pendingSpans := []
  lastRecordEnd := none
  recordInStart := startOffset
  fieldInStart := startOffset

def resume (st : DfaStepper) : DfaStepper :=
  { st with refs := st.refs ++ st.pendingSpans, pendingSpans := [] }

def suspend (st : DfaStepper) : DfaStepper :=
  { st with pendingSpans := st.pendingSpans ++ st.refs, refs := [] }

/-- Push the current field span onto `refs`. -/
def pushField (config : StepperConfig) (buf : Bytes) (st : DfaStepper) :
    DfaStepper :=
  let span := (st.fieldStart, st.writePos - st.fieldStart)
  { st with refs := st.refs ++
      [if config.trimFields then trimSpan buf span.1 span.2 else span] }

/-- The next field starts at `pos` and nothing is written for it yet. -/
def startFieldAt (totalConsumed pos : ℕ) (st : DfaStepper) : DfaStepper :=
  { st with fieldStart := pos, fieldInStart := totalConsumed + pos, writePos := pos }

/-- Copy a run of content bytes to the write cursor. -/
def scanRun (endian : Endian) (needles : StructuralNeedles) (scanEnd : ℕ)
    (st : DfaStepper) (buf : Bytes) (pos : ℕ) : DfaStepper × Bytes × ℕ :=
  let haystack := Slice.slice buf pos (scanEnd - pos)
  let nextPos := match needles.find endian haystack with
    | some off => pos + off
    | none => scanEnd
  let runLen := nextPos - pos
  let buf := if runLen ≠ 0 ∧ st.writePos ≠ pos then
      Slice.overlay buf st.writePos (Slice.slice buf pos runLen)
    else buf
  ({ st with writePos := st.writePos + runLen }, buf, nextPos)

/-- Check the field count of the record in flight. -/
def checkArity (config : StepperConfig) (st : DfaStepper) : Except Error Unit :=
  match config.expectedFields with
  | none => .ok ()
  | some expected =>
      if st.refs.length = expected then .ok ()
      else .error (.numberOfFields expected st.refs.length st.recordInStart)

end DfaStepper

/-- The stepper, the buffer, the read position and the accumulator state within
one `step`. -/
structure Cursor (σ : Type) where
  st : DfaStepper
  buf : Bytes
  pos : ℕ
  state : σ

section Emission

variable {σ : Type} (config : StepperConfig) (acc : Accumulator σ)

/-- Check the arity of the record in flight, then hand it out. -/
def emitInFlight (cur : Cursor σ) : Cursor σ × Except Error Unit :=
  match cur.st.checkArity config with
  | .error err => (cur, .error err)
  | .ok () =>
      let (buf, state, result) := emitRecord acc cur.buf cur.st.refs cur.state
      ({ cur with st := { cur.st with refs := [] }, buf := buf, state := state },
        result.mapError Error.fromUser)

/-- Close out the field the action state `s` landed on, and the record with it.
`cur.pos` is one past the byte that triggered the action. -/
def applyAction (remainingInChunk totalConsumed : ℕ) (s : State)
    (cur : Cursor σ) : Cursor σ × Option StepResult :=
  if s = .error then
    (cur, some (.error (.invalidQuote (totalConsumed + cur.pos - 1))))
  else
    let cur := { cur with
      st := (cur.st.pushField config cur.buf).startFieldAt totalConsumed cur.pos }
    if s ≠ .recordEnd then
      ({ cur with st := { cur.st with dfaState := .fieldStart } }, none)
    else
      match emitInFlight config acc cur with
      | (cur, .error err) => (cur, some (.error err))
      | (cur, .ok ()) =>
          let anchor := cur.pos - 1
          let recordEnd := totalConsumed + anchor
          let st := { cur.st with
            lastRecordEnd := some recordEnd, recordBufStart := cur.pos }
          let st := { st.startFieldAt totalConsumed cur.pos with
            dfaState := .recordStart }
          let cur := { cur with st := st }
          -- the byte the boundary scan stops on from the other side
          if remainingInChunk ≤ anchor then (cur, some (.done recordEnd))
          else (cur, none)

/-- What the loop does before the table lookup: skip runs of content in the
content states, and of blank lines at a record start. -/
def enterState (ctx : StepCtx) (cur : Cursor σ) : Cursor σ × Option StepResult :=
  match cur.st.dfaState with
  | .inField =>
      let (st, buf, pos) := cur.st.scanRun config.dfa.endian
        config.dfa.inFieldNeedles ctx.scanEnd cur.buf cur.pos
      ({ cur with st := st, buf := buf, pos := pos }, none)
  | .inQuotedField =>
      let (st, buf, pos) := cur.st.scanRun config.dfa.endian
        config.dfa.inQuotedNeedles ctx.scanEnd cur.buf cur.pos
      ({ cur with st := st, buf := buf, pos := pos }, none)
  | .recordStart =>
      let runStart := cur.pos
      let blank := (Slice.slice cur.buf runStart (ctx.scanEnd - runStart)).takeWhile
        fun b => !config.dfa.recordStartStructural b
      let pos := runStart + blank.length
      let anchor := max ctx.remainingInChunk runStart
      if anchor < pos then
        let recordEnd := ctx.totalConsumed + anchor
        ({ cur with
            st := { cur.st with lastRecordEnd := some recordEnd }, pos := pos },
          some (.done recordEnd))
      else
        ({ cur with
            st := { cur.st with
              recordInStart := ctx.totalConsumed + pos
              fieldInStart := ctx.totalConsumed + pos }
            pos := pos }, none)
  | _ => (cur, none)

/-- The table lookup for the byte at `cur.pos`, and its action. -/
def stepByte (ctx : StepCtx) (byte : Byte) (cur : Cursor σ) :
    Cursor σ × Option StepResult :=
  let trans := config.dfa.transition cur.st.dfaState byte
  let cur := if trans.hasOutput then
      { cur with
        buf := cur.buf.set cur.st.writePos byte
        st := { cur.st with writePos := cur.st.writePos + 1 } }
    else cur
  let cur := { cur with pos := cur.pos + 1 }
  if trans.next.isAction then
    applyAction config acc ctx.remainingInChunk ctx.totalConsumed trans.next cur
  else ({ cur with st := { cur.st with dfaState := trans.next } }, none)

/-- The loop of `step`.  The fuel bounds the iterations: each one moves
`cur.pos` on. -/
def stepLoop (ctx : StepCtx) : ℕ → Cursor σ → Cursor σ × Option StepResult
  | 0, cur => (cur, none)
  | fuel + 1, cur =>
      if cur.pos < ctx.scanEnd then
        match enterState config ctx cur with
        | (cur, some result) => (cur, some result)
        | (cur, none) =>
            if ctx.scanEnd ≤ cur.pos then (cur, none)
            else match cur.buf[cur.pos]? with
              | none => (cur, none)
              | some byte =>
                  match stepByte config acc ctx byte cur with
                  | (cur, some result) => (cur, some result)
                  | (cur, none) => stepLoop ctx fuel cur
      else (cur, none)

/-- How far the driver may consume once the scan suspends at `pos`. -/
def DfaStepper.consumable (st : DfaStepper) (pos : ℕ) : ℕ :=
  if st.pendingSpans.isEmpty && st.fieldStart == st.writePos then pos
  else st.recordBufStart

def step (st : DfaStepper) (ctx : StepCtx) (state : σ) : StepOutcome DfaStepper σ :=
  let cur : Cursor σ := ⟨st.resume, ctx.buf, ctx.scanStart, state⟩
  match stepLoop config acc ctx (ctx.scanEnd - ctx.scanStart) cur with
  | (cur, some result) => ⟨cur.st, cur.buf, cur.state, result⟩
  | (cur, none) =>
      let st := cur.st.suspend
      ⟨st, cur.buf, cur.state,
        .suspended cur.pos (st.consumable cur.pos) st.lastRecordEnd⟩

def finalize (st : DfaStepper) (ctx : StepCtx) (state : σ) :
    σ × Except Error (Option ℕ) :=
  match st.dfaState with
  | .recordStart | .inComment => (state, .ok none)
  | .inQuotedField | .inEscapedQuote =>
      (state, .error (.unclosedQuote st.fieldInStart))
  | .fieldStart | .inField | .afterClosingQuote =>
      let cur : Cursor σ :=
        ⟨st.resume.pushField config ctx.buf, ctx.buf, ctx.scanEnd, state⟩
      match emitInFlight config acc cur with
      | (cur, .error err) => (cur.state, .error err)
      | (cur, .ok ()) => (cur.state, .ok (some (ctx.totalConsumed + ctx.scanEnd)))
  -- action states never leak out of the loop
  | .fieldEnd | .recordEnd | .error => (state, .ok none)

end Emission

def DfaStepper.consume (st : DfaStepper) (n : ℕ) : DfaStepper :=
  { st with
    fieldStart := st.fieldStart - n
    writePos := st.writePos - n
    recordBufStart := st.recordBufStart - n
    pendingSpans := st.pendingSpans.map fun span => (span.1 - n, span.2) }

/-- `impl ChunkStepper for DfaStepper` -/
def stepper {σ : Type} (config : StepperConfig) (acc : Accumulator σ) :
    ChunkStepper DfaStepper σ where
  step := step config acc
  consume := DfaStepper.consume
  finalize := finalize config acc

end Csveee.Dfa
