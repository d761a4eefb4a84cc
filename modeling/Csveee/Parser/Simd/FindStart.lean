import Csveee.Parser.Chunk
import Csveee.Parser.Simd.FieldCount

/-!
# The vectorized boundary scan

Scan a chunk under an assumption for the first out-of-quotes terminator, 64
bytes at a time.  Under the strict probe, a quote that contradicts the assumed
state rejects it: an opener without a boundary before it, or a closer without
one after it.
-/

namespace Csveee.Simd

/-- The in-quotes state of the byte just before the chunk.  Mid-escape, a
doubled quote has already toggled it back out. -/
def initialCarry (config : Config) : Assumption → Bool
  | .outOfQuotes => false
  | .inQuotes => true
  | .inQuotesAfterEscape => config.quote != config.escape

/-- The neighbour bits that straddle vectors. -/
structure StrictProbe where
  /-- The previous vector's last byte was a field boundary. -/
  prevLastBnd : Bool := true
  /-- A closing quote parked in bit 63: the offset of the byte that has to
  follow it. -/
  pendingCloserMsb : Option ℕ := none
  deriving DecidableEq, Repr

namespace StrictProbe

/-- The byte that proves the assumed state impossible, within one vector. -/
def badByte (probe : StrictProbe) (s : Structural) (m : Mask) (avail : ℕ)
    (termBit : Option ℕ) : Option ℕ :=
  let bnd := s.delim ||| s.term ||| s.quote
  let openers := s.quote &&& m
  let closers := s.quote &&& ~~~m
  let leftBnd := (bnd <<< 1) ||| bit probe.prevLastBnd
  let rightBnd := bnd >>> 1
  let badOpeners := openers &&& ~~~leftBnd
  let badClosers := closers &&& ~~~rightBnd
  -- a bit-63 closer's right neighbour is in the next vector
  let badClosers :=
    if avail = vectorBytes then badClosers &&& ~~~((1 : Mask) <<< 63) else badClosers
  -- a tail vector's last byte borders the edge
  let badClosers := if avail < vectorBytes ∧ 0 < avail then
      badClosers &&& ~~~((1 : Mask) <<< (avail - 1))
    else badClosers
  -- bad bits past the terminator belong to the next record
  let cutoff := termBit.getD avail
  let maskBelow : Mask := if 64 ≤ cutoff then ~~~0 else ((1 : Mask) <<< cutoff) - 1
  let badOpeners := badOpeners &&& maskBelow
  let badClosers := badClosers &&& maskBelow
  let opener := if badOpeners ≠ 0 then some (trailingZeros badOpeners) else none
  -- like the byte automaton, anchor a misplaced closer on the byte after it
  let closer := if badClosers ≠ 0 then some (trailingZeros badClosers + 1) else none
  match opener, closer with
  | some opener, some closer => some (min opener closer)
  | some opener, none => some opener
  | none, closer => closer

/-- The closing quote in bit 63 that no boundary follows within the vector. -/
def parkedCloser (s : Structural) (m : Mask) (avail totalConsumed : ℕ) : Option ℕ :=
  let bnd := s.delim ||| s.term ||| s.quote
  let badClosers := (s.quote &&& ~~~m) &&& ~~~(bnd >>> 1)
  if avail = vectorBytes ∧ badClosers &&& ((1 : Mask) <<< 63) ≠ 0 then
    some (totalConsumed + vectorBytes)
  else none

def check (probe : StrictProbe) (s : Structural) (m : Mask) (avail : ℕ)
    (termBit : Option ℕ) (totalConsumed : ℕ) : StrictProbe × Option Error :=
  let bnd := s.delim ||| s.term ||| s.quote
  match probe.pendingCloserMsb with
  | some pos =>
      if bnd &&& 1 = 0 then ({ probe with pendingCloserMsb := none }, some (.invalidQuote pos))
      else
        ({ probe with pendingCloserMsb := parkedCloser s m avail totalConsumed },
          (probe.badByte s m avail termBit).map fun i => .invalidQuote (totalConsumed + i))
  | none =>
      ({ probe with pendingCloserMsb := parkedCloser s m avail totalConsumed },
        (probe.badByte s m avail termBit).map fun i => .invalidQuote (totalConsumed + i))

def advance (probe : StrictProbe) (s : Structural) : StrictProbe :=
  { probe with prevLastBnd := (s.delim ||| s.term ||| s.quote) >>> 63 != 0 }

end StrictProbe

/-- The loop of `find_record_start`.  The fuel bounds the iterations: each one
consumes a vector. -/
def findLoop (config : Config) (strict : Bool) :
    ℕ → ChunkReader → Bool → StrictProbe → ℕ → ScanOutcome
  | 0, _, _, _, _ => .ok none
  | fuel + 1, reader, carry, probe, totalConsumed =>
      let (term, termB) := config.terminator.bytes
      let delim := config.delimiter
      let quote := config.quote
      let pad := neutralPad delim term termB quote
      match reader.fill vectorBytes with
      | .error err => .error (.io err)
      | .ok reader =>
          let buf := reader.buffer
          let chunkEnd := reader.remainingInChunk
          if buf.isEmpty then .ok none
          else if chunkEnd = 0 then .ok none
          else
            let scanEnd := min chunkEnd buf.length
            let avail := min scanEnd vectorBytes
            let v := buf.take avail ++ List.replicate (vectorBytes - avail) pad
            let s := matchStructural v delim term termB quote
            let (m, newCarry) := computeInQuotes s.quote carry
            let dStruct := s.structuralDelims m
            let structuralTerm := s.term &&& dStruct
            let termBit := if structuralTerm ≠ 0 ∧ trailingZeros structuralTerm < avail then
                some (trailingZeros structuralTerm)
              else none
            let (probe, rejected) :=
              if strict then probe.check s m avail termBit totalConsumed else (probe, none)
            match rejected with
            | some err => .error err
            | none =>
                match termBit with
                | some bit => .ok (some (reader.consume bit, totalConsumed + bit))
                | none =>
                    if avail < vectorBytes then .ok none
                    else
                      findLoop config strict fuel (reader.consume vectorBytes) newCarry
                        (if strict then probe.advance s else probe)
                        (totalConsumed + vectorBytes)

def findRecordStart (config : Config) (reader : ChunkReader) (assumption : Assumption)
    (strict : Bool) : ScanOutcome :=
  findLoop config strict (reader.pending.length + 1) reader
    (initialCarry config assumption) {} 0

end Csveee.Simd
