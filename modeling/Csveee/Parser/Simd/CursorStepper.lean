import Csveee.Parser.Simd.IndexStepper

/-!
# The cursor stepper

The stepper of dialects without a quote byte: a vector's boundaries are its
delimiters and the ends of its terminator runs, one ascending stream of offsets
held back by a vector.
-/

namespace Csveee.Simd

/-- Raw masks of the held vector, and the buffer offset of its first lane. -/
structure HeldVector where
  delim : Mask
  term : Mask
  base : ℤ
  deriving DecidableEq, Repr

structure SimdCursorStepper where
  delim : Byte
  termA : Byte
  termB : Option Byte
  fieldCounter : FieldCounter
  needsAlignPrologue : Bool
  pending : Option HeldVector
  /-- Boundary offsets of the published vectors. -/
  bounds : List ℕ
  /-- Buffer offset where the field in flight starts; the consume limit. -/
  cellStart : ℕ
  /-- A terminator run of more than one byte was seen. -/
  hasRuns : Bool
  lastRecordEnd : Option ℕ
  deriving DecidableEq, Repr

namespace SimdCursorStepper

def new (isa : Isa) (config : Config) : SimdCursorStepper where
  delim := config.delimiter
  termA := config.terminator.bytes.1
  termB := config.terminator.bytes.2
  fieldCounter := .new isa (config.fieldCount.getD 0)
  needsAlignPrologue := true
  pending := none
  bounds := []
  cellStart := 0
  hasRuns := false
  lastRecordEnd := none

def isTerm (st : SimdCursorStepper) (c : Byte) : Bool :=
  c == st.termA || st.termB == some c

/-- Turn a verifier rejection into a positioned error. -/
def arityError (st : SimdCursorStepper) (buf : Bytes) (totalConsumed : ℕ) : Error :=
  let n := st.fieldCounter.n
  let (start, found) :=
    locateBadRecord buf st.cellStart n st.delim st.termA st.termB none
  .numberOfFields n found (totalConsumed + start)

/-- `ChunkStepper::consume`.  A held vector's base never lies below `n`. -/
def consume (st : SimdCursorStepper) (n : ℕ) : SimdCursorStepper :=
  { st with
    cellStart := st.cellStart - n
    pending := st.pending.map fun held => { held with base := max 0 (held.base - n) }
    bounds := st.bounds.map fun x => x - n }

/-- The masks of one vector. -/
def scanVector (st : SimdCursorStepper) (v : Bytes) (base : ℤ) : HeldVector :=
  let s := matchStructural v st.delim st.termA st.termB none
  ⟨s.delim, s.term, base⟩

/-- Collapse the runs of a held vector against the next terminator bit, verify,
and publish its boundaries. -/
def publish (st : SimdCursorStepper) (held : HeldVector) (nextTermLsb : Bool)
    (buf : Bytes) (totalConsumed : ℕ) : Except Error SimdCursorStepper :=
  let runEnd := terminatorRunEnds held.term nextTermLsb
  let dStruct := held.delim ||| runEnd
  let st := { st with hasRuns := st.hasRuns || runEnd != held.term }
  match st.fieldCounter.verify dStruct runEnd with
  | (_, false) => .error (st.arityError buf totalConsumed)
  | (counter, true) =>
      .ok { st with
        fieldCounter := counter
        bounds := extendOffsets st.bounds dStruct held.base }

end SimdCursorStepper

/-- The spans of fields that end on consecutive bounds, the first of them
beginning at `cs`; and where the next field begins. -/
def boundSpans : ℕ → List ℕ → List (ℕ × ℕ) × ℕ
  | cs, [] => ([], cs)
  | cs, bound :: bounds =>
      let (spans, next) := boundSpans (bound + 1) bounds
      ((cs, bound - cs) :: spans, next)

/-- Strip terminator bytes back from `end`, within `[cs, end)`. -/
def stripRun (isTerm : Byte → Bool) (buf : Bytes) (cs : ℕ) : ℕ → ℕ
  | 0 => 0
  | end_ + 1 =>
      if cs ≤ end_ ∧ buf[end_]?.any isTerm = true then stripRun isTerm buf cs end_
      else end_ + 1

section Emission

variable {σ : Type} (acc : Accumulator σ)

namespace SimdCursorStepper

/-- The loop of `emit_records` while no run was seen. -/
def emitPlain (n : ℕ) : ℕ → Bytes → List ℕ → ℕ → σ →
    Bytes × σ × Except Error (ℕ × ℕ)
  | 0, buf, _, cs, state =>
      -- one-byte terminators, so the last run starts at `cs - 1`
      (buf, state, .ok (cs, cs - 1))
  | count + 1, buf, bounds, cs, state =>
      let (spans, cs) := boundSpans cs (bounds.take n)
      match emitRecord acc buf spans state with
      | (buf, state, .error err) => (buf, state, .error (Error.fromUser err))
      | (buf, state, .ok ()) => emitPlain n count buf (bounds.drop n) cs state

/-- The loop of `emit_records` with runs: the last field ends at its run's
first byte. -/
def emitStripped (isTerm : Byte → Bool) (n : ℕ) : ℕ → Bytes → List ℕ → ℕ → ℕ → σ →
    Bytes × σ × Except Error (ℕ × ℕ)
  | 0, buf, _, cs, lastRunStart, state => (buf, state, .ok (cs, lastRunStart))
  | count + 1, buf, bounds, cs, _, state =>
      let (spans, cs) := boundSpans cs (bounds.take (n - 1))
      let bound := bounds.getD (n - 1) 0
      let end_ := stripRun isTerm buf cs bound
      match emitRecord acc buf (spans ++ [(cs, end_ - cs)]) state with
      | (buf, state, .error err) => (buf, state, .error (Error.fromUser err))
      | (buf, state, .ok ()) =>
          emitStripped isTerm n count buf (bounds.drop n) (bound + 1) end_ state

/-- `emit_records`: the consume cursor and the last record's run start. -/
def emitRecords (w : Flush SimdCursorStepper σ) (count : ℕ) :
    Bytes × σ × Except Error (ℕ × ℕ) :=
  let n := w.st.fieldCounter.n
  let bounds := w.st.bounds.drop w.head
  if w.st.hasRuns then
    emitStripped acc w.st.isTerm n count w.buf bounds w.st.cellStart w.st.cellStart w.state
  else emitPlain acc n count w.buf bounds w.st.cellStart w.state

/-- `flush`: emit the pending records up to the first whose terminator crosses
the chunk boundary; `some end` once it is crossed. -/
def flush (remainingInChunk totalConsumed : ℕ) (w : Flush SimdCursorStepper σ) :
    Flush SimdCursorStepper σ × Except Error (Option ℕ) :=
  let n := w.st.fieldCounter.n
  let avail := (w.st.bounds.length - w.head) / n
  if avail = 0 then (w, .ok none)
  else
    let endsBeforeBoundary (records : ℕ) : Bool :=
      decide (w.st.bounds.getD (w.head + records * n - 1) 0 < remainingInChunk)
    let (count, stop) : ℕ × Bool :=
      if remainingInChunk = 0 then (1, true)
      else if endsBeforeBoundary avail then (avail, false)
      else (recordsBefore endsBeforeBoundary avail 0 + 1, true)
    match emitRecords acc w count with
    | (buf, state, .error err) => ({ w with buf := buf, state := state }, .error err)
    | (buf, state, .ok (cs, lastRunStart)) =>
        let end_ := totalConsumed + handoff lastRunStart remainingInChunk stop
        ({ w with
            st := { w.st with cellStart := cs, lastRecordEnd := some end_ }
            buf := buf
            head := w.head + count * n
            state := state },
          .ok (if stop then some end_ else none))

/-- The alignment prologue of `step`: where the vector loop starts. -/
def prologue (st : SimdCursorStepper) (ctx : StepCtx) : SimdCursorStepper × ℕ :=
  if st.needsAlignPrologue ∧ ctx.scanStart = 0 ∧ st.pending = none then
    let pad := neutralPad st.delim st.termA st.termB none
    match headPaddedPrologue ctx.buf ctx.misalign.val ctx.scanEnd pad with
    | .vector v misalign =>
        -- lane `i` is offset `i - misalign`
        ({ st with
            pending := some (st.scanVector v (-(misalign : ℤ)))
            needsAlignPrologue := false },
          vectorBytes - misalign)
    | .aligned => ({ st with needsAlignPrologue := false }, ctx.scanStart)
    | .tooShort =>
        ({ st with needsAlignPrologue := decide (ctx.scanEnd < vectorBytes) },
          ctx.scanStart)
  else (st, ctx.scanStart)

/-- The vector loop of `step`.  The fuel bounds the vectors. -/
def vectorLoop (ctx : StepCtx) : ℕ → ℕ → Flush SimdCursorStepper σ →
    ℕ × Flush SimdCursorStepper σ × Option StepResult
  | 0, cursor, w => (cursor, w, none)
  | fuel + 1, cursor, w =>
      if cursor + vectorBytes ≤ ctx.scanEnd then
        let next := w.st.scanVector (Slice.slice w.buf cursor vectorBytes) cursor
        let cursor := cursor + vectorBytes
        let published : Except Error SimdCursorStepper := match w.st.pending with
          | none => .ok w.st
          | some held => publish { w.st with pending := none } held (lsb next.term)
              (w.buf.take ctx.scanEnd) ctx.totalConsumed
        match published with
        | .error err => (cursor, w, some (.error err))
        | .ok st =>
            let w := { w with st := { st with pending := some next } }
            if st.bounds.length - w.head < emitBatchFields then
              vectorLoop ctx fuel cursor w
            else
              match flush acc ctx.remainingInChunk ctx.totalConsumed w with
              | (w, .error err) => (cursor, w, some (.error err))
              | (w, .ok (some end_)) => (cursor, w, some (.done end_))
              | (w, .ok none) =>
                  vectorLoop ctx fuel cursor
                    (if compactThreshold ≤ w.head then
                      { w with
                        st := { w.st with bounds := w.st.bounds.drop w.head }
                        head := 0 }
                    else w)
      else (cursor, w, none)

def step (st : SimdCursorStepper) (ctx : StepCtx) (state : σ) :
    StepOutcome SimdCursorStepper σ :=
  let (st, cursor) := prologue st ctx
  match vectorLoop acc ctx (ctx.scanEnd - cursor) cursor ⟨st, ctx.buf, 0, 0, state⟩ with
  | (_, w, some result) => ⟨w.st, w.buf, w.state, result⟩
  | (cursor, w, none) =>
      let flushed :=
        if w.st.fieldCounter.n ≤ w.st.bounds.length - w.head then
          flush acc ctx.remainingInChunk ctx.totalConsumed w
        else (w, .ok none)
      match flushed with
      | (w, .error err) => ⟨w.st, w.buf, w.state, .error err⟩
      | (w, .ok (some end_)) => ⟨w.st, w.buf, w.state, .done end_⟩
      | (w, .ok none) =>
          let st := { w.st with bounds := w.st.bounds.drop w.head }
          ⟨st, w.buf, w.state, .suspended cursor st.cellStart st.lastRecordEnd⟩

/-- Publish the held vector and the tail's. -/
def drain (st : SimdCursorStepper) (ctx : StepCtx) : Except Error SimdCursorStepper :=
  let cursor := ctx.scanStart
  let view := ctx.buf.take ctx.scanEnd
  let realTailLen := ctx.scanEnd - cursor
  let needsVirtualTerm := decide (0 < ctx.scanEnd) &&
    !(ctx.buf[ctx.scanEnd - 1]?.any st.isTerm)
  let tail : Option HeldVector :=
    if 0 < realTailLen ∨ needsVirtualTerm = true then
      let real := Slice.slice ctx.buf cursor realTailLen
      let v := if needsVirtualTerm then real ++ [st.termA] else real
      let pad := neutralPad st.delim st.termA st.termB none
      some (st.scanVector (v ++ List.replicate (vectorBytes - v.length) pad) cursor)
    else none
  let published : Except Error SimdCursorStepper := match st.pending with
    | none => .ok st
    | some held => publish { st with pending := none } held
        (tail.any fun tail => lsb tail.term) view ctx.totalConsumed
  match published, tail with
  | .error err, _ => .error err
  | .ok st, none => .ok st
  | .ok st, some tail => publish st tail false view ctx.totalConsumed

/-- The emission loop of `finalize`, one record at a time.  The fuel bounds the
records. -/
def finalizeLoop (ctx : StepCtx) : ℕ → Flush SimdCursorStepper σ →
    σ × Except Error (Option ℕ)
  | 0, w => (w.state, .ok w.st.lastRecordEnd)
  | fuel + 1, w =>
      let n := w.st.fieldCounter.n
      if n ≤ w.st.bounds.length - w.head then
        match emitRecords acc w 1 with
        | (_, state, .error err) => (state, .error err)
        | (buf, state, .ok (cs, lastRunStart)) =>
            let stop := decide (ctx.remainingInChunk < cs)
            let end_ := ctx.totalConsumed + handoff lastRunStart ctx.remainingInChunk stop
            if stop then (state, .ok (some end_))
            else
              finalizeLoop ctx fuel
                { w with
                  st := { w.st with cellStart := cs, lastRecordEnd := some end_ }
                  buf := buf
                  head := w.head + n
                  state := state }
      else (w.state, .ok w.st.lastRecordEnd)

def finalize (st : SimdCursorStepper) (ctx : StepCtx) (state : σ) :
    σ × Except Error (Option ℕ) :=
  if ctx.scanEnd = 0 ∧ ctx.scanStart = 0 ∧ st.pending = none then
    (state, .ok st.lastRecordEnd)
  else
    match st.drain ctx with
    | .error err => (state, .error err)
    | .ok st => finalizeLoop acc ctx (st.bounds.length + 1) ⟨st, ctx.buf, 0, 0, state⟩

/-- `impl ChunkStepper for SimdCursorStepper` -/
def stepper : ChunkStepper SimdCursorStepper σ where
  step := step acc
  consume := consume
  finalize := finalize acc

end SimdCursorStepper

end Emission

end Csveee.Simd
