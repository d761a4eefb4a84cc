import Mathlib.Data.Int.Notation
import Csveee.Parser.Output
import Csveee.Parser.Simd.FieldCount

/-!
# Index extraction and record assembly

From per-vector masks to buffer offsets, and from offsets to records: fields are
cut from the buffer between their begins and ends, and compacted in place around
the removals inside them.
-/

namespace Csveee.Simd

/-- Largest arity the SIMD path serves. -/
def fixedMaxArity : ℕ := 63

/-- The loop of `extend_offsets`: one offset per set bit, lowest first. -/
def offsetsLoop (base : ℤ) : ℕ → Mask → List ℕ
  | 0, _ => []
  | count + 1, m => (base + (trailingZeros m : ℤ)).toNat :: offsetsLoop base count (m &&& (m - 1))

/-- `extend_offsets`: append the offset of every set bit, shifted by `base`.
The base of the head-padded vector is negative; its low lanes are padding. -/
def extendOffsets (out : List ℕ) (mask : Mask) (base : ℤ) : List ℕ :=
  out ++ offsetsLoop base (countOnes mask) mask

/-- Shift the bytes of a field left over its removals: `write` and `prevEnd`
as in the source, `e` the field's end. -/
def compactLoop (e : ℕ) : List ℕ → Bytes → ℕ → ℕ → Bytes
  | [], buf, write, prevEnd =>
      if e ≠ prevEnd ∧ write ≠ prevEnd then
        Slice.overlay buf write (Slice.slice buf prevEnd (e - prevEnd))
      else buf
  | r :: removals, buf, write, prevEnd =>
      let len := r - prevEnd
      let buf := if len ≠ 0 ∧ write ≠ prevEnd then
          Slice.overlay buf write (Slice.slice buf prevEnd len)
        else buf
      compactLoop e removals buf (write + len) (r + 1)

/-- Cut one field `[b, e)`: the buffer, its span, and the removals after it. -/
def cutField (buf : Bytes) (b e : ℕ) (rOffs : List ℕ) : Bytes × (ℕ × ℕ) × List ℕ :=
  let rOffs := rOffs.dropWhile fun r => decide (r < b)
  let removals := rOffs.takeWhile fun r => decide (r < e)
  let rest := rOffs.drop removals.length
  let buf := if removals.isEmpty then buf else compactLoop e removals buf b b
  (buf, (b, e - b - removals.length), rest)

/-- Cut the fields of one record in turn. -/
def cutFields : Bytes → List (ℕ × ℕ) → List ℕ → Bytes × List (ℕ × ℕ) × List ℕ
  | buf, [], rOffs => (buf, [], rOffs)
  | buf, (b, e) :: fields, rOffs =>
      let (buf, span, rOffs) := cutField buf b e rOffs
      let (buf, spans, rOffs) := cutFields buf fields rOffs
      (buf, span :: spans, rOffs)

/-- The spans of one record, whose fields begin and end at `fields`. -/
def cutRecord (buf : Bytes) (fields : List (ℕ × ℕ)) (rOffs : List ℕ) :
    Bytes × List (ℕ × ℕ) × List ℕ :=
  let firstB := (fields.map Prod.fst).headD 0
  let lastE := (fields.map Prod.snd).getLastD 0
  let rOffs := rOffs.dropWhile fun r => decide (r < firstB)
  -- a record with no removals is the common case
  if rOffs.head?.all fun r => decide (lastE ≤ r) then
    (buf, fields.map fun field => (field.1, field.2 - field.1), rOffs)
  else cutFields buf fields rOffs

/-- `assemble_records_fixed`: emit `numRecords` records of `n` fields. -/
def assembleRecordsFixed {σ : Type} (acc : Accumulator σ) (n : ℕ) :
    ℕ → Bytes → List (ℕ × ℕ) → List ℕ → σ → Bytes × σ × Except BoxedError Unit
  | 0, buf, _, _, state => (buf, state, .ok ())
  | numRecords + 1, buf, fields, rOffs, state =>
      let (buf, spans, rOffs) := cutRecord buf (fields.take n) rOffs
      match emitRecord acc buf spans state with
      | (buf, state, .error err) => (buf, state, .error err)
      | (buf, state, .ok ()) =>
          assembleRecordsFixed acc n numRecords buf (fields.drop n) rOffs state

end Csveee.Simd
