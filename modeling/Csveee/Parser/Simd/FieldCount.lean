import Csveee.Parser.Simd.Bitmask

/-!
# Field-count verification

Every vector's boundaries are checked against the arity before any record of it
is emitted: the boundary that completes a record must be a terminator, the
others delimiters.  Two implementations agree, one over extracted bits, one over
the terminators.
-/

namespace Csveee.Simd

/-- `Isa`, as far as results depend on it: which verifier runs. -/
structure Isa where
  fastPext : Bool
  deriving DecidableEq, Repr

def countOnes (m : Mask) : ℕ := m.cpop.toNat

def trailingZeros (m : Mask) : ℕ := m.ctz.toNat

def leadingZeros (m : Mask) : ℕ := m.clz.toNat

/-- The loop of `pext_scalar`; the fuel bounds the selected bits. -/
def pextLoop (src : Mask) : ℕ → Mask → ℕ → Mask → Mask
  | 0, _, _, result => result
  | fuel + 1, mask, outPos, result =>
      if mask = 0 then result
      else
        let lo := mask &&& -mask
        let result := if src &&& lo ≠ 0 then result ||| ((1 : Mask) <<< outPos) else result
        pextLoop src fuel (mask &&& (mask - 1)) (outPos + 1) result

/-- `pext`: gather the bits of `src` selected by `mask` into the low bits. -/
def pext (src mask : Mask) : Mask := pextLoop src 64 mask 0 0

/-- Expected pattern for a vector starting at `phase`: bit `i` is set iff the
`i`-th boundary completes a record. -/
def expectedPattern (n phase : ℕ) : Mask :=
  maskOf fun i => (i + phase) % n == n - 1

structure FieldCounter where
  isa : Isa
  n : ℕ
  /-- Boundaries of the current record already seen. -/
  phase : ℕ
  deriving DecidableEq, Repr

namespace FieldCounter

def new (isa : Isa) (n : ℕ) : FieldCounter := { isa := isa, n := n, phase := 0 }

/-- `rotations[index]`, the table `new` fills for the phases below `n`. -/
def rotations (counter : FieldCounter) (index : ℕ) : Mask :=
  if index < counter.n then expectedPattern counter.n index else 0

/-- The loop of `verify_by_terminators`; the fuel bounds the terminators. -/
def terminatorLoop (dStruct : Mask) (n count : ℕ) : ℕ → Mask → ℕ → ℕ → Option ℕ
  | 0, _, _, phase => some phase
  | fuel + 1, t, expect, phase =>
      if t = 0 then some phase
      else
        let below := (t &&& -t) - 1
        let idx := countOnes (dStruct &&& below)
        if idx ≠ expect then none
        else terminatorLoop dStruct n count fuel (t &&& (t - 1)) (expect + n)
          (count - idx - 1)

/-- `verify_by_terminators`: the counter's next state and the verdict. -/
def verifyByTerminators (counter : FieldCounter) (dStruct term : Mask) :
    FieldCounter × Bool :=
  let count := countOnes dStruct
  match terminatorLoop dStruct counter.n count 64 (term &&& dStruct)
      (counter.n - 1 - counter.phase) (counter.phase + count) with
  | none => (counter, false)
  | some phase =>
      if counter.n ≤ phase then (counter, false)
      else ({ counter with phase := phase }, true)

def verifyPext (counter : FieldCounter) (dStruct term : Mask) : FieldCounter × Bool :=
  let count := countOnes dStruct
  if count = 0 then (counter, true)
  else
    let p := pext term dStruct
    let expected := counter.rotations (counter.phase % 64)
    let mask : Mask := if count = 64 then ~~~0 else ((1 : Mask) <<< count) - 1
    if (p ^^^ expected) &&& mask ≠ 0 then (counter, false)
    else
      let carry := if p = 0 then counter.phase else 0
      ({ counter with phase := count + leadingZeros p - 64 + carry }, true)

def verify (counter : FieldCounter) (dStruct term : Mask) : FieldCounter × Bool :=
  if counter.isa.fastPext then counter.verifyPext dStruct term
  else counter.verifyByTerminators dStruct term

end FieldCounter

/-- The loop of `locate_bad_record`: position, record start, fields so far and
quote state, over the bytes from the position on. -/
def locateLoop (n : ℕ) (delim : Byte) (isTerm : Byte → Bool) (quote : Option Byte) :
    ℕ → Bytes → ℕ → ℕ → ℕ → Bool → ℕ × ℕ
  | 0, _, _, start, fields, _ => (start, fields)
  | _ + 1, [], _, start, fields, _ => (start, fields)
  | fuel + 1, c :: rest, i, start, fields, inQuotes =>
      if some c = quote then
        locateLoop n delim isTerm quote fuel rest (i + 1) start fields (!inQuotes)
      else if inQuotes then
        locateLoop n delim isTerm quote fuel rest (i + 1) start fields inQuotes
      else if c = delim then
        locateLoop n delim isTerm quote fuel rest (i + 1) start (fields + 1) inQuotes
      else if isTerm c then
        if fields ≠ n then (start, fields)
        else
          -- collapse the run so `start` lands on real content
          let run := (rest.takeWhile isTerm).length
          locateLoop n delim isTerm quote fuel (rest.drop run) (i + 1 + run)
            (i + 1 + run) 1 inQuotes
      else locateLoop n delim isTerm quote fuel rest (i + 1) start fields inQuotes

/-- `locate_bad_record`: `(record_start, found)` of the record the verifier
rejected, walking the bytes from `start`. -/
def locateBadRecord (buf : Bytes) (start n : ℕ) (delim term : Byte)
    (termB quote : Option Byte) : ℕ × ℕ :=
  let i := min start buf.length
  locateLoop n delim (fun c => c == term || termB == some c) quote
    (buf.length - i) (buf.drop i) i i 1 false

end Csveee.Simd
