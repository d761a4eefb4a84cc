import Mathlib.Data.Nat.Basic
import Csveee.Core.Error

/-!
# Chunk readers

A chunk reader shows a window onto a byte source.  The parser's contract with it
is `fill`: afterwards at least the requested bytes are in view, fewer only at
the end of the source, more as the reader pleases.  How many more, and where in
memory the buffer then lies, is the reader's own choice; a schedule records that
choice for every call, and an I/O failure where a call fails.
-/

namespace Csveee

/-- Addresses are taken modulo 64. -/
instance instNeZeroAlignment : @NeZero ℕ Zero.ofOfNat0 64 := ⟨by decide⟩

/-- What one `fill` call does. -/
inductive FillEvent
  /-- The call succeeds with `extra` bytes beyond what was asked for, in a
  buffer whose address is `misalign` modulo 64. -/
  | exposes (extra : ℕ) (misalign : Fin 64)
  | fails (err : IoError)
  deriving DecidableEq

/-- The events of a reader's `fill` calls, in call order. -/
abbrev Schedule := ℕ → FillEvent

namespace Schedule

/-- No call fails. -/
def Reliable (schedule : Schedule) : Prop :=
  ∀ call err, schedule call ≠ .fails err

def tail (schedule : Schedule) : Schedule := fun call => schedule (call + 1)

/-- Some call fails, with this error. -/
def FailsWith (schedule : Schedule) (err : IoError) : Prop :=
  ∃ call, schedule call = .fails err

/-- The events from some call on. -/
def Suffix (later schedule : Schedule) : Prop :=
  ∃ calls, ∀ call, later call = schedule (call + calls)

theorem Suffix.refl (schedule : Schedule) : schedule.Suffix schedule :=
  ⟨0, fun _ => rfl⟩

theorem Suffix.tail {later schedule : Schedule} (h : later.Suffix schedule) :
    later.tail.Suffix schedule := by
  obtain ⟨calls, h⟩ := h
  exact ⟨1 + calls, fun call => by rw [Schedule.tail, h, Nat.add_assoc]⟩

theorem Suffix.trans {last later schedule : Schedule} (hlast : last.Suffix later)
    (h : later.Suffix schedule) : last.Suffix schedule := by
  obtain ⟨calls, hlast⟩ := hlast
  obtain ⟨earlier, h⟩ := h
  exact ⟨calls + earlier, fun call => by rw [hlast, h, Nat.add_assoc]⟩

theorem Suffix.failsWith {later schedule : Schedule} (h : later.Suffix schedule)
    {err : IoError} {call : ℕ} (hcall : later call = .fails err) :
    schedule.FailsWith err := by
  obtain ⟨calls, h⟩ := h
  exact ⟨call + calls, by rw [← h, hcall]⟩

theorem Reliable.not_failsWith {schedule : Schedule} (h : schedule.Reliable)
    (err : IoError) : ¬ schedule.FailsWith err :=
  fun ⟨call, hcall⟩ => h call err hcall

theorem Reliable.tail {schedule : Schedule} (h : schedule.Reliable) :
    schedule.tail.Reliable :=
  fun call err => h (call + 1) err

theorem Suffix.reliable {later schedule : Schedule} (h : later.Suffix schedule)
    (hreliable : schedule.Reliable) : later.Reliable :=
  fun _ err hcall => hreliable.not_failsWith err (h.failsWith hcall)

/-- Show exactly what is asked for, in an aligned buffer. -/
def exact : Schedule := fun _ => .exposes 0 0

theorem reliable_exact : exact.Reliable := by
  intro call err h
  cases h

end Schedule

/-- A `ChunkReader`: the source from the read position on, with the edits made
through `buffer_mut` in place, and the length of the prefix in view. -/
structure ChunkReader where
  pending : Bytes
  available : ℕ
  chunkRemaining : ℕ
  misalign : Fin 64
  schedule : Schedule

namespace ChunkReader

/-- The bytes as one chunk, of which a reader shows what is asked for. -/
def whole (bytes : Bytes) : ChunkReader where
  pending := bytes
  available := 0
  chunkRemaining := bytes.length
  misalign := 0
  schedule := .exact

/-- `buffer()` and `buffer_mut()`: the bytes in view. -/
def buffer (reader : ChunkReader) : Bytes := reader.pending.take reader.available

/-- Store the bytes in view after they were edited through `buffer_mut()`. -/
def setBuffer (reader : ChunkReader) (buf : Bytes) : ChunkReader :=
  { reader with pending := buf ++ reader.pending.drop reader.available }

def fill (reader : ChunkReader) (n : ℕ) : Except IoError ChunkReader :=
  match reader.schedule 0 with
  | .fails err => .error err
  | .exposes extra misalign =>
      .ok { reader with
        available := min reader.pending.length (max reader.available n + extra)
        misalign := misalign
        schedule := reader.schedule.tail }

def consume (reader : ChunkReader) (n : ℕ) : ChunkReader :=
  { reader with
    pending := reader.pending.drop n
    available := reader.available - n
    chunkRemaining := reader.chunkRemaining - n }

def remainingInChunk (reader : ChunkReader) : ℕ := reader.chunkRemaining

/-- What `fill` exposes: the same bytes, as many of them as asked for. -/
theorem fill_spec {reader filled : ChunkReader} {n : ℕ} (h : reader.fill n = .ok filled) :
    filled.pending = reader.pending ∧ filled.chunkRemaining = reader.chunkRemaining ∧
      filled.schedule = reader.schedule.tail ∧
      filled.available ≤ reader.pending.length ∧
      min reader.pending.length n ≤ filled.available := by
  rw [fill] at h
  split at h
  · cases h
  · cases h
    exact ⟨rfl, rfl, rfl, min_le_left _ _, by simp only; omega⟩

theorem fill_error {reader : ChunkReader} {n : ℕ} {err : IoError}
    (h : reader.fill n = .error err) : reader.schedule 0 = .fails err := by
  rw [fill] at h
  split at h
  · rename_i err' hsched
    rw [hsched, Except.error.inj h]
  · cases h

/-- The reader `n` bytes on, some `fill` calls later. -/
structure Advanced (reader : ChunkReader) (n : ℕ) (later : ChunkReader) : Prop where
  pending : later.pending = reader.pending.drop n
  chunkRemaining : later.chunkRemaining = reader.chunkRemaining - n
  schedule : later.schedule.Suffix reader.schedule

theorem Advanced.refl (reader : ChunkReader) : reader.Advanced 0 reader :=
  ⟨rfl, rfl, .refl _⟩

theorem Advanced.fill {reader later filled : ChunkReader} {n m : ℕ}
    (h : reader.Advanced n later) (hfill : later.fill m = .ok filled) :
    reader.Advanced n filled := by
  obtain ⟨hpending, hremaining, hschedule, -, -⟩ := fill_spec hfill
  exact ⟨hpending.trans h.pending, hremaining.trans h.chunkRemaining,
    hschedule ▸ h.schedule.tail⟩

theorem Advanced.trans {reader later last : ChunkReader} {n m : ℕ}
    (h : reader.Advanced n later) (hlast : later.Advanced m last) :
    reader.Advanced (n + m) last where
  pending := by rw [hlast.pending, h.pending, List.drop_drop]
  chunkRemaining := by rw [hlast.chunkRemaining, h.chunkRemaining, Nat.sub_sub]
  schedule := hlast.schedule.trans h.schedule

theorem Advanced.consume {reader later : ChunkReader} {n : ℕ}
    (h : reader.Advanced n later) (m : ℕ) :
    reader.Advanced (n + m) (later.consume m) where
  pending := by
    rw [ChunkReader.consume, h.pending, List.drop_drop]
  chunkRemaining := by
    simp only [ChunkReader.consume, h.chunkRemaining, Nat.sub_sub]
  schedule := h.schedule

end ChunkReader

end Csveee
