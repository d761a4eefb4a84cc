import Csveee.Scheduler.Merge
import Csveee.Scheduler.Resolve

/-!
# Runs

The two ways to parse a byte slice: in parallel chunks, each under the
assumptions of the dialect until one succeeds, merged afterwards; and as a
stream, in one piece.  Every reader of a run has a refill schedule of its own.
-/

namespace Csveee.Scheduler

/-- A byte slice: its length fits `isize`. -/
structure Input where
  bytes : Bytes
  fits : bytes.length < 2 ^ 63

/-- The readers a run creates. -/
inductive ReaderId
  | chunk (idx : ℕ) (find : FindRecordStart) (assumption : Assumption)
  | reparse (start chunkEnd : ℕ)
  | stream
  deriving DecidableEq, Repr

/-- The refill schedule of every reader of a run. -/
abbrev Environment := ReaderId → Schedule

/-- No `fill` call of the run fails. -/
def Environment.Reliable (env : Environment) : Prop := ∀ id, (env id).Reliable

/-- Readers that show exactly what is asked for. -/
def exactReaders : Environment := fun _ => .exact

theorem reliable_exactReaders : exactReaders.Reliable := fun _ => Schedule.reliable_exact

/-- `SliceIo::chunk_reader` -/
def sliceReader (data : Bytes) (schedule : Schedule) (start chunkEnd : ℕ) :
    ChunkReader where
  pending := data.drop start
  available := 0
  chunkRemaining := chunkEnd - start
  misalign := 0
  schedule := schedule

inductive TryOutcome (σ : Type)
  /-- At least one assumption produced a pass. -/
  | resolved (passes : List (ResolvedPass σ)) (recordEnd : Option ℕ)
  /-- No boundary was found. -/
  | cleanNoBoundary
  /-- Every assumption errored in the boundary scan. -/
  | allFailed
  deriving DecidableEq

/-- What a parallel run works with. -/
structure Job (σ : Type) where
  config : Config
  parser : ChunkParser σ
  chunkSize : ℕ
  data : Bytes
  init : σ
  env : Environment

namespace Job

variable {σ : Type} (job : Job σ)

def chunkCount : ℕ := divCeil job.data.length job.chunkSize

/-- One assumption's parse of a chunk. -/
def attempt (idx chunkStart chunkEnd : ℕ) (find : FindRecordStart)
    (assumption : Assumption) : PassResult σ :=
  job.parser.parse
    (sliceReader job.data (job.env (.chunk idx find assumption)) chunkStart chunkEnd)
    job.init assumption find

/-- The loop of `try_assumptions`: passes so far, their record end, and whether
an assumption scanned cleanly. -/
def tryLoop (idx chunkStart chunkEnd : ℕ) (find : FindRecordStart) :
    List Assumption → List (ResolvedPass σ) → Bool → TryOutcome σ
  | [], passes, sawClean =>
      if !passes.isEmpty then .resolved passes none
      else if sawClean then .cleanNoBoundary
      else .allFailed
  | assumption :: assumptions, passes, sawClean =>
      let pr := job.attempt idx chunkStart chunkEnd find assumption
      match pr.recordStart, pr.result with
      | some start, .ok state =>
          .resolved (passes ++ [⟨chunkStart + start, .ok state⟩])
            (pr.recordEnd.map fun offset => chunkStart + offset)
      | some start, .error err =>
          tryLoop idx chunkStart chunkEnd find assumptions
            (passes ++ [⟨chunkStart + start, .error (err.withBase chunkStart)⟩]) sawClean
      | none, .ok _ => tryLoop idx chunkStart chunkEnd find assumptions passes true
      | none, .error _ => tryLoop idx chunkStart chunkEnd find assumptions passes sawClean

def tryAssumptions (idx chunkStart chunkEnd : ℕ) (find : FindRecordStart) :
    TryOutcome σ :=
  job.tryLoop idx chunkStart chunkEnd find
    (assumptionsForConfig job.config.quote job.config.escape) [] false

def processChunk (idx : ℕ) : ChunkOutput σ :=
  let chunkStart := idx * job.chunkSize
  let chunkEnd := min (chunkStart + job.chunkSize) job.data.length
  let find := findMode job.config idx
  match job.tryAssumptions idx chunkStart chunkEnd find with
  | .resolved passes recordEnd => ⟨passes, recordEnd⟩
  | .cleanNoBoundary => ⟨[], none⟩
  | .allFailed =>
      if find = .strict then
        match job.tryAssumptions idx chunkStart chunkEnd .lenient with
        | .resolved passes recordEnd => ⟨passes, recordEnd⟩
        | .cleanNoBoundary | .allFailed => ⟨[], none⟩
      else ⟨[], none⟩

def reparseChunk (recordStart chunkEnd : ℕ) : Except Error (σ × Option ℕ) :=
  let chunkEnd := min chunkEnd job.data.length
  let pr := job.parser.parse
    (sliceReader job.data (job.env (.reparse recordStart chunkEnd)) recordStart chunkEnd)
    job.init .outOfQuotes .no
  match pr.result with
  | .ok state => .ok (state, pr.recordEnd)
  | .error err => .error (err.withBase recordStart)

/-- The chunk outputs of the run, whichever worker parsed them. -/
def outputs : List (ChunkOutput σ) :=
  (List.range (divCeil job.data.length job.chunkSize)).map job.processChunk

def runWith : Except Error (List σ) :=
  collectAndMerge job.chunkSize job.outputs job.reparseChunk

end Job

section Runs

variable {σ : Type}

/-- The parallel run's job once the backend is resolved. -/
def jobOf (platform : Platform) (backend : Backend) (config : Config) (output : Output)
    (acc : Accumulator σ) (init : σ) (data : Bytes) (env : Environment) : Job σ where
  config := config
  parser := parserOf platform backend config output acc
  chunkSize := resolveChunkSize config backend
  data := data
  init := init
  env := env

/-- `Scheduler::run_slice`: the states handed to the merge function. -/
def runSlice (platform : Platform) (config : ValidConfig) (output : Output)
    (acc : Accumulator σ) (init : σ) (data : Input) (env : Environment) :
    Except Error (List σ) :=
  match resolveParserBackend config.config with
  | .error reason => .error (.invalidConfig reason)
  | .ok backend =>
      if divCeil data.bytes.length (resolveChunkSize config.config backend) = 0 then .ok []
      else
        (jobOf platform backend config.config output acc init data.bytes env).runWith

/-- `usize::MAX` -/
def usizeMax : ℕ := 2 ^ 64 - 1

/-- The reader of a streaming run: one chunk without an end. -/
def streamReader (data : Bytes) (schedule : Schedule) : ChunkReader where
  pending := data
  available := 0
  chunkRemaining := usizeMax
  misalign := 0
  schedule := schedule

/-- `Scheduler::run_stream`: the state handed to the merge function. -/
def runStream (platform : Platform) (config : ValidConfig) (output : Output)
    (acc : Accumulator σ) (init : σ) (data : Input) (env : Environment) :
    Except Error (List σ) :=
  match resolveParserBackend config.config with
  | .error reason => .error (.invalidConfig reason)
  | .ok backend =>
      let find := if config.config.hasHeaders then .skipHeaders else .no
      let pr := (parserOf platform backend config.config output acc).parse
        (streamReader data.bytes (env .stream)) init .outOfQuotes find
      pr.result.map fun state => [state]

end Runs

end Csveee.Scheduler
