import Csveee.Core.Config

/-!
# Structural bitmasks

A 64-byte vector as 64-bit masks, bit `i` for byte `i`: where the delimiters,
terminators and quotes are, which bytes lie inside quotes, where fields begin
and end, and which bytes are cut from field content.
-/

namespace Csveee.Simd

/-- Vector width in bytes. -/
def vectorBytes : ℕ := 64

abbrev Mask := BitVec 64

/-- `flag as u64` -/
def bit (flag : Bool) : Mask := (BitVec.ofBool flag).setWidth 64

/-- The mask of the lanes below `n` that satisfy `flags`. -/
def maskBelow (flags : ℕ → Bool) : ℕ → Mask
  | 0 => 0
  | n + 1 => maskBelow flags n ||| (bit (flags n) <<< n)

/-- The mask of the lanes that satisfy `flags`. -/
def maskOf (flags : ℕ → Bool) : Mask := maskBelow flags 64

/-- `Isa::eq_mask`: bit `i` is set iff byte `i` of the vector equals `b`. -/
def eqMask (v : Bytes) (b : Byte) : Mask := maskOf fun i => v[i]? == some b

/-- The `(C, N, Q)` masks of one vector. -/
structure Structural where
  delim : Mask
  term : Mask
  quote : Mask
  deriving DecidableEq, Repr

namespace Structural

/-- `D`: delimiters or terminators. -/
def delimOrTerm (s : Structural) : Mask := s.delim ||| s.term

/-- `D_struct = (C | N) & !M`. -/
def structuralDelims (s : Structural) (m : Mask) : Mask := s.delimOrTerm &&& ~~~m

end Structural

def matchStructural (v : Bytes) (delim term : Byte) (term2 quote : Option Byte) :
    Structural where
  delim := eqMask v delim
  term := match term2 with
    | some t2 => eqMask v term ||| eqMask v t2
    | none => eqMask v term
  quote := match quote with
    | some q => eqMask v q
    | none => 0

/-- A byte that is neither delimiter, terminator nor quote. -/
def neutralPad (delim term : Byte) (term2 quote : Option Byte) : Byte :=
  (((List.range 256).map UInt8.ofNat).find? fun candidate =>
    !(candidate == delim || candidate == term ||
      term2 == some candidate || quote == some candidate)).getD 0

/-- Why `headPaddedPrologue` did or did not build a vector. -/
inductive Prologue
  /-- Head-padded first vector, and the misalignment its pad absorbs. -/
  | vector (v : Bytes) (misalign : ℕ)
  | aligned
  | tooShort
  deriving DecidableEq, Repr

/-- A head-padded first vector that puts every later load on a 64-byte
boundary. -/
def headPaddedPrologue (buf : Bytes) (misalign scanEnd : ℕ) (pad : Byte) : Prologue :=
  if misalign = 0 then .aligned
  else
    let skip := vectorBytes - misalign
    if scanEnd < skip + vectorBytes then .tooShort
    else .vector (List.replicate misalign pad ++ buf.take skip) misalign

/-- First terminator byte of each maximal run in `t`. -/
def terminatorRunStarts (t : Mask) (prevIsTerm : Bool) : Mask :=
  t &&& ~~~((t <<< 1) ||| bit prevIsTerm)

/-- Last terminator byte of each maximal run in `t`. -/
def terminatorRunEnds (t : Mask) (nextTermLsb : Bool) : Mask :=
  t &&& ~~~((t >>> 1) ||| (bit nextTermLsb <<< 63))

/-- `xor_prefix_sum`: bit `i` is the exclusive or of bits `0..=i`, by doubling
steps. -/
def xorPrefixSum (q : Mask) : Mask :=
  let q := q ^^^ (q <<< 1)
  let q := q ^^^ (q <<< 2)
  let q := q ^^^ (q <<< 4)
  let q := q ^^^ (q <<< 8)
  let q := q ^^^ (q <<< 16)
  q ^^^ (q <<< 32)

/-- Bit 63. -/
def msb (m : Mask) : Bool := (m >>> 63) &&& 1 != 0

/-- Bit 0. -/
def lsb (m : Mask) : Bool := m &&& 1 != 0

/-- The in-quotes mask `M`, and its carry into the next vector. -/
def computeInQuotes (quote : Mask) (carryIn : Bool) : Mask × Bool :=
  if quote = 0 then (-bit carryIn, carryIn)
  else
    let m := xorPrefixSum quote ^^^ -bit carryIn
    (m, m >>> 63 != 0)

/-- Forward carry into the next vector's `B` mask. -/
structure BeginsCarry where
  dStructMsb : Bool := false
  qbMsb : Bool := false
  deriving DecidableEq, Repr

/-- The field-beginnings mask `B`. -/
def computeFieldBegins (dStruct quote : Mask) (carryIn : BeginsCarry) :
    Mask × BeginsCarry :=
  let bInit := (dStruct <<< 1) ||| bit carryIn.dStructMsb
  let qb := bInit &&& quote
  let bFinal := ((bInit &&& ~~~qb) ||| (qb <<< 1)) ||| bit carryIn.qbMsb
  (bFinal, { dStructMsb := msb dStruct, qbMsb := msb qb })

/-- The field-ends mask `E`. -/
def computeFieldEnds (dStruct quote m : Mask) (nextDStructLsb prevQeMsb : Bool) :
    Mask × Bool :=
  let qr := quote &&& ~~~m
  let dStructLookahead := (dStruct >>> 1) ||| (bit nextDStructLsb <<< 63)
  let qe := qr &&& dStructLookahead
  let qeClear := (qe <<< 1) ||| bit prevQeMsb
  ((dStruct &&& ~~~qeClear) ||| qe, msb qe)

/-- The chars-to-remove mask `R`. -/
def computeCharsToRemove (quote m b e : Mask) (nextBLsb nextQLsb doubledQuotes : Bool) :
    Mask :=
  let ql := quote &&& m
  let qr := quote &&& ~~~m
  let bLookahead := (b >>> 1) ||| (bit nextBLsb <<< 63)
  let qlRemove := ql &&& ~~~bLookahead
  let qrRemove :=
    if doubledQuotes then
      let qLookahead := (quote >>> 1) ||| (bit nextQLsb <<< 63)
      qr &&& ~~~qLookahead &&& ~~~e
    else qr &&& ~~~e
  qlRemove ||| qrRemove

end Csveee.Simd
