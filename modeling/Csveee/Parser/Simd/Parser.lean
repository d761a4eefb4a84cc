import Csveee.Parser.Simd.CursorStepper
import Csveee.Parser.Simd.FindStart

/-!
# The vectorized chunk parser

The dialects the bitmask pipeline models, and its chunk parser: the quote byte
picks the stepper.
-/

namespace Csveee.Simd

structure SimdChunkParser where
  config : Config
  /-- The instruction set the steppers run at. -/
  level : Isa

def supports (config : Config) : Except Rejection Unit :=
  match config.fieldCount with
  | none => .error .simdNeedsFieldCount
  | some n =>
      if n < 1 ∨ fixedMaxArity < n then .error .simdTooManyFields
      else if config.trim then .error .simdTrim
      else if config.flexible then .error .simdFlexible
      else if config.comment.isSome then .error .simdComment
      else if config.quoteHandling ≠ .toggle then .error .simdQuoteHandling
      else match config.quote, config.escape with
        | some quote, some escape =>
            if escape ≠ quote then .error .simdDistinctEscape else .ok ()
        | _, _ => .ok ()

namespace SimdChunkParser

variable {σ : Type}

/-- `scan_header_end`: blank lines go first, or the header row is never found. -/
def scanHeaderEnd (config : Config) (reader : ChunkReader) : ScanOutcome :=
  match skipEmptyLines config reader with
  | .error err => .error err
  | .ok (reader, leading, _) =>
      (findRecordStart config reader .outOfQuotes false).map fun found =>
        found.map fun (reader, off) => (reader, leading + off)

def runSteppers (parser : SimdChunkParser) (output : Output) (acc : Accumulator σ)
    (reader : ChunkReader) (state : σ) (base : ℕ) : σ × Except Error (Option ℕ) :=
  if parser.config.quote.isNone then
    ChunkDriver.run (SimdCursorStepper.stepper acc) output (.new reader base)
      (.new parser.level parser.config) state
  else
    ChunkDriver.run (SimdIndexStepper.stepper acc) output (.new reader base)
      (.new parser.level parser.config) state

/-- `impl ChunkParser for SimdChunkParser` -/
def chunkParser (parser : SimdChunkParser) (output : Output) (acc : Accumulator σ) :
    ChunkParser σ where
  config := parser.config
  scanRecordStart := findRecordStart parser.config
  scanHeaderEnd := scanHeaderEnd parser.config
  parseFrom := parser.runSteppers output acc

end SimdChunkParser

end Csveee.Simd
