import Csveee.Parser.Chunk

/-!
# The merge phase

Walk the chunks in order, align record boundaries, and select the pass whose
first record starts where the predecessor's last record ended.  Where no pass
aligns, the chunk is reparsed from the known boundary.
-/

namespace Csveee.Scheduler

/-- Result of parsing a chunk under one assumption. -/
structure ResolvedPass (σ : Type) where
  /-- Absolute file offset of the first record's start. -/
  recordStart : ℕ
  result : Except Error σ
  deriving DecidableEq

/-- All speculative results for one chunk. -/
structure ChunkOutput (σ : Type) where
  /-- Results per assumption, in priority order. -/
  passes : List (ResolvedPass σ)
  /-- Absolute file offset after the last complete record. -/
  recordEnd : Option ℕ
  deriving DecidableEq

variable {σ : Type}

/-- The reparse callback: the state, and the record end relative to the start. -/
abbrev Reparse (σ : Type) := ℕ → ℕ → Except Error (σ × Option ℕ)

/-- The loop of `collect_and_merge`, from the merge cursor after the chunks
before: their end offset, the next record's expected boundary, the states. -/
def mergeLoop (chunkSize : ℕ) (reparse : Reparse σ) :
    List (ChunkOutput σ) → ℕ → Option ℕ → List σ → Except Error (List σ)
  | [], _, _, states => .ok states
  | output :: outputs, chunkEnd, nextRecord, states =>
      let chunkEnd := chunkEnd + chunkSize
      -- the next record does not begin in this chunk
      if nextRecord.any fun next => decide (chunkEnd < next) then
        mergeLoop chunkSize reparse outputs chunkEnd nextRecord states
      -- no passes: no records at all in this chunk
      else if output.passes.isEmpty then
        mergeLoop chunkSize reparse outputs chunkEnd nextRecord states
      else
        match output.passes.find? fun pass =>
          nextRecord.all fun expected => expected == pass.recordStart with
        | some pass =>
            match pass.result with
            | .error err => .error err
            | .ok state =>
                mergeLoop chunkSize reparse outputs chunkEnd output.recordEnd
                  (states ++ [state])
        | none =>
            match nextRecord with
            -- a first pass is always accepted, so a mismatch has a boundary
            | none => .ok states
            | some expected =>
                match reparse expected chunkEnd with
                | .error err => .error err
                | .ok (state, recordEnd) =>
                    mergeLoop chunkSize reparse outputs chunkEnd
                      (recordEnd.map fun offset => expected + offset)
                      (states ++ [state])

/-- `collect_and_merge`: the states handed to the user's merge function. -/
def collectAndMerge (chunkSize : ℕ) (results : List (ChunkOutput σ))
    (reparse : Reparse σ) : Except Error (List σ) :=
  mergeLoop chunkSize reparse results 0 none []

end Csveee.Scheduler
