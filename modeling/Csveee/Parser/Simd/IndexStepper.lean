import Csveee.Parser.Driver
import Csveee.Parser.Simd.Index
import Csveee.Parser.Simd.Scan

/-!
# The index stepper

The stepper of dialects with a quote byte: it drives the scanner in 64-byte
vectors, extracts begin, end and removal offsets, and emits records by striding
them in groups of the arity.  Records whose terminator run is not resolved yet
wait for the next vector.
-/

namespace Csveee.Simd

/-- First terminator byte at or past the chunk boundary: the run's start, or
the boundary itself when the run straddles it (`stop`). -/
def handoff (runStart remainingInChunk : ℕ) (stop : Bool) : ℕ :=
  if stop then max remainingInChunk runStart else runStart

def compactThreshold : ℕ := 2048

def emitBatchFields : ℕ := 128

/-- Membership in the terminator byte set of the scanner's dialect. -/
def ScannerConfig.isTerm (config : ScannerConfig) (c : Byte) : Bool :=
  c == config.term || config.termB == some c

structure SimdIndexStepper where
  scannerConfig : ScannerConfig
  scanner : Scanner
  fieldCounter : FieldCounter
  needsAlignPrologue : Bool
  /-- The first field's begin, which the scanner omits, is still to be pushed. -/
  needsChunkStartB : Bool
  bOffs : List ℕ
  eOffs : List ℕ
  rOffs : List ℕ
  /-- Buffer offset where the next record begins; the consume limit. -/
  recordBufStart : ℕ
  lastRecordEnd : Option ℕ
  deriving DecidableEq, Repr

/-- The dialect bytes the steppers work with. -/
def scannerConfigOf (config : Config) : ScannerConfig where
  delim := config.delimiter
  term := config.terminator.bytes.1
  termB := config.terminator.bytes.2
  quote := config.quote
  doubledQuotes := config.doubledQuotes

namespace SimdIndexStepper

/-- `SimdIndexStepper::new`.  `supports` has checked that the field count is
fixed. -/
def new (isa : Isa) (config : Config) : SimdIndexStepper where
  scannerConfig := scannerConfigOf config
  scanner := { config := scannerConfigOf config }
  fieldCounter := .new isa (config.fieldCount.getD 0)
  needsAlignPrologue := true
  needsChunkStartB := true
  bOffs := []
  eOffs := []
  rOffs := []
  recordBufStart := 0
  lastRecordEnd := none

/-- Turn a verifier rejection into a positioned error. -/
def arityError (st : SimdIndexStepper) (buf : Bytes) (totalConsumed : ℕ) : Error :=
  let cfg := st.scannerConfig
  let n := st.fieldCounter.n
  let (start, found) :=
    locateBadRecord buf st.recordBufStart n cfg.delim cfg.term cfg.termB cfg.quote
  .numberOfFields n found (totalConsumed + start)

/-- Verify a resolved vector and extract its offsets. -/
def publish (st : SimdIndexStepper) (out : Option VectorOutput) (base : ℤ)
    (buf : Bytes) (totalConsumed : ℕ) : Except Error SimdIndexStepper :=
  match out with
  | none => .ok st
  | some out =>
      match st.fieldCounter.verify out.dStruct out.term with
      | (_, false) => .error (st.arityError buf totalConsumed)
      | (counter, true) =>
          .ok { st with
            fieldCounter := counter
            bOffs := extendOffsets st.bOffs out.b base
            eOffs := extendOffsets st.eOffs out.e base
            rOffs := extendOffsets st.rOffs out.r base }

/-- Drop the emitted prefix. -/
def dropEmittedPrefix (st : SimdIndexStepper) (fields removals : ℕ) :
    SimdIndexStepper :=
  { st with
    bOffs := st.bOffs.drop fields
    eOffs := st.eOffs.drop fields
    rOffs := st.rOffs.drop removals }

def consume (st : SimdIndexStepper) (n : ℕ) : SimdIndexStepper :=
  { st with
    recordBufStart := st.recordBufStart - n
    bOffs := st.bOffs.map fun x => x - n
    eOffs := st.eOffs.map fun x => x - n
    rOffs := st.rOffs.map fun x => x - n }

end SimdIndexStepper

/-- Length of the prefix of `buf[from..limit]` whose bytes satisfy `p`. -/
def runLength (p : Byte → Bool) (buf : Bytes) (start limit : ℕ) : ℕ :=
  ((Slice.slice buf start (limit - start)).takeWhile p).length

/-- Terminator run of the record whose last field ends at `e`: where it starts,
and its last byte unless that lies past the boundary.  `none` while the run is
unresolved. -/
def termOf (isTerm : Byte → Bool) (buf : Bytes) (resolvedEnd walkCap e : ℕ) :
    Option (ℕ × Option ℕ) :=
  let runStart := e + runLength (fun c => !isTerm c) buf e resolvedEnd
  if resolvedEnd ≤ runStart then none
  else
    let p := runStart + runLength isTerm buf (runStart + 1) walkCap
    if p + 1 < walkCap then some (runStart, some p)
    else if walkCap < resolvedEnd then some (runStart, none)
    else none

/-- The last of the `avail` pending records whose terminator run is resolved. -/
def lastResolved (resolve : ℕ → Option (ℕ × Option ℕ)) :
    ℕ → Option (ℕ × (ℕ × Option ℕ))
  | 0 => none
  | avail + 1 =>
      match resolve (avail + 1) with
      | some run => some (avail + 1, run)
      | none => lastResolved resolve avail

/-- How many records from record `k` on end before the boundary.  The fuel
bounds the pending records. -/
def recordsBefore (endsBefore : ℕ → Bool) : ℕ → ℕ → ℕ
  | 0, k => k
  | fuel + 1, k =>
      if endsBefore (k + 1) then recordsBefore endsBefore fuel (k + 1) else k

/-- What one `step` or `finalize` works on: the pending records are those past
`head`, the pending removals those past `rHead`. -/
structure Flush (τ σ : Type) where
  st : τ
  buf : Bytes
  head : ℕ
  rHead : ℕ
  state : σ

section Emission

variable {σ : Type} (acc : Accumulator σ)

namespace SimdIndexStepper

/-- Hand out `count` records of the pending ones, whose last terminator run is
`run`. -/
def emitPending (totalConsumed remainingInChunk count : ℕ) (stop : Bool)
    (run : ℕ × Option ℕ) (w : Flush SimdIndexStepper σ) :
    Flush SimdIndexStepper σ × Except Error (Option ℕ) :=
  let n := w.st.fieldCounter.n
  let fields := (w.st.bOffs.drop w.head).zip (w.st.eOffs.drop w.head)
  match assembleRecordsFixed acc n count w.buf fields (w.st.rOffs.drop w.rHead) w.state with
  | (buf, state, .error err) =>
      ({ w with buf := buf, state := state }, .error (Error.fromUser err))
  | (buf, state, .ok ()) =>
      let consumed := count * n
      let end_ := totalConsumed + handoff run.1 remainingInChunk stop
      let lastConsumedE := w.st.eOffs.getD (w.head + consumed - 1) 0
      let passed := ((w.st.rOffs.drop w.rHead).takeWhile
        fun r => decide (r ≤ lastConsumedE)).length
      ({ st := { w.st with
          recordBufStart := match run.2 with
            | some end_ => end_ + 1
            | none => w.st.recordBufStart
          lastRecordEnd := some end_ }
         buf := buf
         head := w.head + consumed
         rHead := w.rHead + passed
         state := state },
        .ok (if stop then some end_ else none))

/-- `flush_records`: emit the pending records up to the first whose end crosses
the chunk boundary; `some end` once it is crossed. -/
def flushRecords (resolvedEnd remainingInChunk totalConsumed : ℕ)
    (w : Flush SimdIndexStepper σ) :
    Flush SimdIndexStepper σ × Except Error (Option ℕ) :=
  let n := w.st.fieldCounter.n
  -- a run reaching the boundary needs no end
  let walkCap := min resolvedEnd (remainingInChunk + 1)
  let resolve (records : ℕ) : Option (ℕ × Option ℕ) :=
    termOf w.st.scannerConfig.isTerm w.buf resolvedEnd walkCap
      (w.st.eOffs.getD (w.head + records * n - 1) 0)
  match lastResolved resolve ((w.st.eOffs.length - w.head) / n) with
  | none => (w, .ok none)
  | some (avail, last) =>
      let endsBeforeBoundary (records : ℕ) : Bool :=
        match resolve records with
        | some (_, some end_) => decide (end_ < remainingInChunk)
        | _ => false
      let (count, stop) : ℕ × Bool :=
        if remainingInChunk = 0 then (1, true)
        else if last.2.any fun end_ => decide (end_ < remainingInChunk) then
          (avail, false)
        else (recordsBefore endsBeforeBoundary avail 0 + 1, true)
      let last := if count ≠ avail then (resolve count).getD last else last
      emitPending acc totalConsumed remainingInChunk count stop last w

/-- The alignment prologue of `step`: where the vector loop starts. -/
def prologue (st : SimdIndexStepper) (ctx : StepCtx) : SimdIndexStepper × ℕ :=
  if st.needsAlignPrologue ∧ ctx.scanStart = 0 then
    let cfg := st.scannerConfig
    let pad := neutralPad cfg.delim cfg.term cfg.termB cfg.quote
    match headPaddedPrologue ctx.buf ctx.misalign.val ctx.scanEnd pad with
    | .vector v misalign =>
        ({ st with scanner := (st.scanner.step v).1, needsAlignPrologue := false },
          vectorBytes - misalign)
    | .aligned => ({ st with needsAlignPrologue := false }, ctx.scanStart)
    | .tooShort =>
        ({ st with needsAlignPrologue := decide (ctx.scanEnd < vectorBytes) },
          ctx.scanStart)
  else (st, ctx.scanStart)

/-- The vector loop of `step`.  The fuel bounds the vectors. -/
def vectorLoop (ctx : StepCtx) : ℕ → ℕ → Flush SimdIndexStepper σ →
    ℕ × Flush SimdIndexStepper σ × Option StepResult
  | 0, cursor, w => (cursor, w, none)
  | fuel + 1, cursor, w =>
      if cursor + vectorBytes ≤ ctx.scanEnd then
        let pendingBase : ℤ := (cursor : ℤ) - vectorBytes
        let (scanner, out) := w.st.scanner.step (Slice.slice w.buf cursor vectorBytes)
        let cursor := cursor + vectorBytes
        match publish { w.st with scanner := scanner } out pendingBase
            (w.buf.take ctx.scanEnd) ctx.totalConsumed with
        | .error err => (cursor, w, some (.error err))
        | .ok st =>
            let w := { w with st := st }
            if st.eOffs.length - w.head < emitBatchFields then
              vectorLoop ctx fuel cursor w
            else
              match flushRecords acc (cursor - vectorBytes) ctx.remainingInChunk
                  ctx.totalConsumed w with
              | (w, .error err) => (cursor, w, some (.error err))
              | (w, .ok (some end_)) => (cursor, w, some (.done end_))
              | (w, .ok none) =>
                  vectorLoop ctx fuel cursor
                    (if compactThreshold ≤ w.head then
                      { w with
                        st := w.st.dropEmittedPrefix w.head w.rHead
                        head := 0
                        rHead := 0 }
                    else w)
      else (cursor, w, none)

/-- The flush behind the vector loop: it emits the records the last vectors
completed. -/
def finalFlush (ctx : StepCtx) (cursor : ℕ) (w : Flush SimdIndexStepper σ) :
    Flush SimdIndexStepper σ × Except Error (Option ℕ) :=
  if w.st.fieldCounter.n ≤ w.st.eOffs.length - w.head ∧ vectorBytes ≤ cursor then
    flushRecords acc (cursor - vectorBytes) ctx.remainingInChunk ctx.totalConsumed w
  else (w, .ok none)

def step (st : SimdIndexStepper) (ctx : StepCtx) (state : σ) :
    StepOutcome SimdIndexStepper σ :=
  -- an opening quote at the chunk's first byte is a removal
  let st := if st.needsChunkStartB then
      { st with bOffs := st.bOffs ++ [0], needsChunkStartB := false }
    else st
  let (st, cursor) := prologue st ctx
  match vectorLoop acc ctx (ctx.scanEnd - cursor) cursor ⟨st, ctx.buf, 0, 0, state⟩ with
  | (_, w, some result) => ⟨w.st, w.buf, w.state, result⟩
  | (cursor, w, none) =>
      match finalFlush acc ctx cursor w with
      | (w, .error err) => ⟨w.st, w.buf, w.state, .error err⟩
      | (w, .ok (some end_)) => ⟨w.st, w.buf, w.state, .done end_⟩
      | (w, .ok none) =>
          let st := if w.head ≠ 0 then w.st.dropEmittedPrefix w.head w.rHead else w.st
          ⟨st, w.buf, w.state,
            .suspended cursor st.recordBufStart st.lastRecordEnd⟩

/-- Feed the bytes past the last whole vector as a padded one, with a
terminator spliced in behind them unless they end on one. -/
def tailVector (cfg : ScannerConfig) (tail : Bytes) (needsVirtualTerm : Bool) :
    Bytes :=
  let pad := neutralPad cfg.delim cfg.term cfg.termB cfg.quote
  let v := if needsVirtualTerm then tail ++ [cfg.term] else tail
  v ++ List.replicate (vectorBytes - v.length) pad

/-- The vectors `finalize` still has to feed and drain. -/
def drain (st : SimdIndexStepper) (ctx : StepCtx) :
    Except Error SimdIndexStepper :=
  let cursor := ctx.scanStart
  let view := ctx.buf.take ctx.scanEnd
  let realTailLen := ctx.scanEnd - cursor
  let needsVirtualTerm := decide (0 < ctx.scanEnd) &&
    !(ctx.buf[ctx.scanEnd - 1]?.any st.scannerConfig.isTerm)
  let fed : Except Error (SimdIndexStepper × ℕ) :=
    if 0 < realTailLen ∨ needsVirtualTerm = true then
      let v := tailVector st.scannerConfig (Slice.slice ctx.buf cursor realTailLen)
        needsVirtualTerm
      let (scanner, out) := st.scanner.step v
      (publish { st with scanner := scanner } out ((cursor : ℤ) - vectorBytes) view
        ctx.totalConsumed).map fun st => (st, cursor + vectorBytes)
    else .ok (st, cursor)
  match fed with
  | .error err => .error err
  | .ok (st, cursor) =>
      let (scanner, out) := st.scanner.finalize
      publish { st with scanner := scanner } out ((cursor : ℤ) - vectorBytes) view
        ctx.totalConsumed

/-- Position of the quote that opened the field in flight. -/
def unclosedQuoteAt (st : SimdIndexStepper) (ctx : StepCtx) : ℕ :=
  let b := st.bOffs.getLast?.getD ctx.scanEnd
  if 0 < b ∧ b ≤ ctx.scanEnd ∧ ctx.buf[b - 1]? = st.scannerConfig.quote then b - 1 else b

/-- The emission loop of `finalize`, one record at a time.  The fuel bounds the
records. -/
def finalizeLoop (ctx : StepCtx) : ℕ → Flush SimdIndexStepper σ →
    σ × Except Error (Option ℕ)
  | 0, w => (w.state, .ok w.st.lastRecordEnd)
  | fuel + 1, w =>
      let n := w.st.fieldCounter.n
      if n ≤ w.st.eOffs.length - w.head then
        let isTerm := w.st.scannerConfig.isTerm
        let lastE := w.st.eOffs.getD (w.head + n - 1) 0
        let runStart := lastE + runLength (fun c => !isTerm c) w.buf lastE ctx.scanEnd
        let recEnd := runStart + runLength isTerm w.buf (runStart + 1) ctx.scanEnd
        let stop := decide (ctx.remainingInChunk < recEnd + 1)
        match emitPending acc ctx.totalConsumed ctx.remainingInChunk 1 stop
            (runStart, some recEnd) w with
        | (w, .error err) => (w.state, .error err)
        | (w, .ok (some _)) => (w.state, .ok w.st.lastRecordEnd)
        | (w, .ok none) => finalizeLoop ctx fuel w
      else (w.state, .ok w.st.lastRecordEnd)

def finalize (st : SimdIndexStepper) (ctx : StepCtx) (state : σ) :
    σ × Except Error (Option ℕ) :=
  if ctx.scanEnd = 0 ∧ ctx.scanStart = 0 then (state, .ok st.lastRecordEnd)
  else
    match st.drain ctx with
    | .error err => (state, .error err)
    | .ok st =>
        if st.scanner.inQuotes then
          (state, .error (.unclosedQuote (ctx.totalConsumed + st.unclosedQuoteAt ctx)))
        else
          -- offsets in the pad region go; the synthetic terminator's own stay
          let st := { st with
            bOffs := st.bOffs.filter fun x => decide (x ≤ ctx.scanEnd)
            eOffs := st.eOffs.filter fun x => decide (x ≤ ctx.scanEnd)
            rOffs := st.rOffs.filter fun x => decide (x < ctx.scanEnd) }
          finalizeLoop acc ctx (st.eOffs.length + 1) ⟨st, ctx.buf, 0, 0, state⟩

/-- `impl ChunkStepper for SimdIndexStepper` -/
def stepper : ChunkStepper SimdIndexStepper σ where
  step := step acc
  consume := consume
  finalize := finalize acc

end SimdIndexStepper

end Emission

end Csveee.Simd
