import Csveee.Lib.Utf8
import Csveee.Lib.Slice
import Csveee.Io.ChunkReader

/-!
# Field output

The form in which fields reach the accumulator, and the accumulator itself.  A
field is a mutable slice of the parser's own buffer, so an accumulator returns,
with its verdict, the bytes it leaves behind in each of the slices.
-/

namespace Csveee

/-- The fields of one record. -/
abbrev Record := List Bytes

/-- What an accumulator call leaves behind. -/
structure Verdict (σ : Type) where
  state : σ
  /-- The bytes left in the field slices.  A slice cannot change its length. -/
  fields : Record
  result : Except BoxedError Unit

abbrev Accumulator (σ : Type) := σ → Record → Verdict σ

/-- An accumulator of the record list: its verdict on a record depends on that record
only. -/
structure RecordWise where
  /-- The bytes it leaves behind in a record, given the records before. -/
  leave : List Record → Record → Record
  verdict : Record → Except BoxedError Unit

namespace RecordWise

def accumulator (acc : RecordWise) : Accumulator (List Record) :=
  fun records record => ⟨records ++ [record], acc.leave records record, acc.verdict record⟩

/-- Accept every record, and leave it as it is. -/
def acceptAll : RecordWise := ⟨fun _ record => record, fun _ => .ok ()⟩

end RecordWise

/-- `Output`: how fresh bytes are validated before fields are cut from them. -/
structure Output where
  requiresAsciiControlBytes : Bool
  /-- The length of the prefix that is valid so far, or the offset of the
  first byte that cannot be continued. -/
  validateChunk : Bytes → Except ℕ ℕ
  validateChunk_le : ∀ fresh n, validateChunk fresh = .ok n → n ≤ fresh.length

/-- `impl Output for [u8]` -/
def Output.bytes : Output where
  requiresAsciiControlBytes := false
  validateChunk fresh := .ok fresh.length
  validateChunk_le := by
    intro fresh n h
    cases h
    exact le_rfl

def Output.str : Output where
  requiresAsciiControlBytes := true
  validateChunk fresh :=
    match Utf8.fromUtf8 fresh with
    | .ok () => .ok fresh.length
    | .error (validUpTo, none) => .ok validUpTo
    | .error (validUpTo, some _) => .error validUpTo
  validateChunk_le := by
    intro fresh n h
    split at h
    · cases h
      exact le_rfl
    · rename_i herr
      cases h
      exact (Utf8.validUpTo_spec herr).1
    · cases h

/-- `output::emit_record`: hand the fields to the accumulator, and keep what it
leaves behind in the buffer. -/
def emitRecord {σ : Type} (acc : Accumulator σ) (buf : Bytes)
    (refs : List (ℕ × ℕ)) (state : σ) : Bytes × σ × Except BoxedError Unit :=
  let verdict := acc state (refs.map fun span => Slice.slice buf span.1 span.2)
  (Slice.writeBack buf refs verdict.fields, verdict.state, verdict.result)

end Csveee
