import Csveee.Parser.Chunk
import Csveee.Parser.Dfa.Stepper

/-!
# The DFA chunk parser

Two tables of one dialect: the user's, which parses records, and the same forced
to toggling quotes, which finds record boundaries and carries the strict probe's
flags.
-/

namespace Csveee.Dfa

structure DfaChunkParser where
  dfa : Dfa
  findDfa : Dfa
  config : Config

/-- The dialect the boundary scan runs on. -/
def findConfig (config : Config) : Config := { config with quoteHandling := .toggle }

namespace DfaChunkParser

def new (endian : Endian) (config : Config) : DfaChunkParser where
  dfa := .new endian config
  findDfa := .new endian (findConfig config)
  config := config

/-- Map an assumption to the initial DFA state. -/
def assumptionToState (parser : DfaChunkParser) : Assumption → State
  | .outOfQuotes => .fieldStart
  | .inQuotes => .inQuotedField
  | .inQuotesAfterEscape =>
      if parser.config.doubledQuotes then .afterClosingQuote else .inEscapedQuote

end DfaChunkParser

/-- What the scan of one buffer comes to. -/
inductive BufferScan
  /-- Scanned to the end; the state to go on with. -/
  | exhausted (state : State)
  /-- A record ended on the byte at this position. -/
  | recordEnd (pos : ℕ)
  /-- The byte at this position was rejected. -/
  | rejected (pos : ℕ)
  deriving DecidableEq, Repr

/-- How far the fast path moves on in the given state. -/
def scanSkip (dfa : Dfa) (state : State) (tail : Bytes) : ℕ :=
  (match state with
    | .inField => dfa.inFieldNeedles.find dfa.endian tail
    | .inQuotedField => dfa.inQuotedNeedles.find dfa.endian tail
    | .recordStart => tail.findIdx? dfa.recordStartStructural
    | _ => some 0).getD tail.length

/-- The inner loop of `find_record_start_from`, over the bytes in view up to the
chunk end.  The fuel bounds the iterations: each one moves `pos` on. -/
def scanBuffer (dfa : Dfa) (strictProbe : Bool) (buf : Bytes) :
    ℕ → State → ℕ → BufferScan
  | 0, state, _ => .exhausted state
  | fuel + 1, state, pos =>
      if pos < buf.length then
        let pos := pos + scanSkip dfa state (buf.drop pos)
        match buf[pos]? with
        | none => .exhausted state
        | some byte =>
            let trans := dfa.transition state byte
            let strictRejected := strictProbe && trans.strictError
            if !trans.next.isAction && !strictRejected then
              scanBuffer dfa strictProbe buf fuel trans.next (pos + 1)
            else if trans.next == .error || strictRejected then .rejected pos
            else if trans.next == .recordEnd then .recordEnd pos
            -- a field ended: resume scanning the next one
            else scanBuffer dfa strictProbe buf fuel .fieldStart (pos + 1)
      else .exhausted state

/-- The outer loop of `find_record_start_from`.  The fuel bounds the iterations:
each one consumes a byte. -/
def findLoop (dfa : Dfa) (strictProbe : Bool) :
    ℕ → ChunkReader → State → ℕ → ScanOutcome
  | 0, _, _, _ => .ok none
  | fuel + 1, reader, state, totalConsumed =>
      match reader.fill 1 with
      | .error err => .error (.io err)
      | .ok reader =>
          let buf := reader.buffer.take reader.remainingInChunk
          if buf.length = 0 then .ok none
          else
            match scanBuffer dfa strictProbe buf buf.length state 0 with
            | .exhausted state =>
                findLoop dfa strictProbe fuel (reader.consume buf.length) state
                  (totalConsumed + buf.length)
            | .recordEnd anchor =>
                .ok (some (reader.consume anchor, totalConsumed + anchor))
            | .rejected anchor => .error (.invalidQuote (totalConsumed + anchor))

def findRecordStartFrom (dfa : Dfa) (strictProbe : Bool) (reader : ChunkReader)
    (initialState : State) : ScanOutcome :=
  findLoop dfa strictProbe (reader.pending.length + 1) reader initialState 0

namespace DfaChunkParser

variable {σ : Type}

/-- What the stepper is built with. -/
def stepperConfig (parser : DfaChunkParser) : StepperConfig where
  dfa := parser.dfa
  trimFields := parser.config.trim
  expectedFields := parser.config.fieldCount

def parseFrom (parser : DfaChunkParser) (output : Output) (acc : Accumulator σ)
    (reader : ChunkReader) (state : σ) (base : ℕ) : σ × Except Error (Option ℕ) :=
  ChunkDriver.run (stepper parser.stepperConfig acc) output (.new reader base)
    (.new base) state

/-- `impl ChunkParser for DfaChunkParser` -/
def chunkParser (parser : DfaChunkParser) (output : Output) (acc : Accumulator σ) :
    ChunkParser σ where
  config := parser.config
  scanRecordStart reader assumption strictProbe :=
    findRecordStartFrom parser.findDfa strictProbe reader
      (parser.assumptionToState assumption)
  -- the user's dialect: chunk 0's state is exact
  scanHeaderEnd reader := findRecordStartFrom parser.dfa false reader .recordStart
  parseFrom := parser.parseFrom output acc

end DfaChunkParser

end Csveee.Dfa
