import Mathlib.Data.List.TakeWhile
import Csveee.Parser.Driver

/-!
# Chunk parsers

One chunk, one assumption about the state it starts in: find the first record
boundary, skip the blank lines at it, parse records from there.  The result
reports the boundary, the end of the last record, and the accumulated state or
the error.
-/

namespace Csveee

/-- The parse state at a chunk boundary. -/
inductive Assumption
  | outOfQuotes
  | inQuotes
  | inQuotesAfterEscape
  deriving DecidableEq, Repr

/-- `assumptions_for_config`: what a speculative parser must consider, in
priority order.  No validated configuration has an escape without a quote. -/
def assumptionsForConfig (quote escape : Option Byte) : List Assumption :=
  match quote, escape with
  | some q, some e =>
      if q = e then [.outOfQuotes, .inQuotes]
      else [.outOfQuotes, .inQuotes, .inQuotesAfterEscape]
  | some _, none => [.outOfQuotes, .inQuotes]
  | none, _ => [.outOfQuotes]

theorem outOfQuotes_mem_assumptions (quote escape : Option Byte) :
    Assumption.outOfQuotes ∈ assumptionsForConfig quote escape := by
  rw [assumptionsForConfig.eq_def]
  split
  · split_ifs <;> simp
  · simp
  · simp

theorem inQuotes_mem_assumptions (q : Byte) (escape : Option Byte) :
    Assumption.inQuotes ∈ assumptionsForConfig (some q) escape := by
  cases escape with
  | none => simp [assumptionsForConfig]
  | some e =>
      rw [assumptionsForConfig]
      split_ifs <;> simp

/-- Result of parsing a chunk under one assumption. -/
structure PassResult (σ : Type) where
  /-- Offset of the terminator the first record starts after. -/
  recordStart : Option ℕ
  /-- Offset of the terminator the last record ends on. -/
  recordEnd : Option ℕ
  result : Except Error σ
  deriving DecidableEq

namespace PassResult

variable {σ : Type}

/-- No record starts in this chunk. -/
def noRecord (state : σ) : PassResult σ := ⟨none, none, .ok state⟩

/-- The chunk failed before a record start was found. -/
def failed (err : Error) : PassResult σ := ⟨none, none, .error err⟩

/-- A chunk whose first record starts at `start`. -/
def started (start : ℕ) (outcome : Except Error (Option ℕ)) (state : σ) :
    PassResult σ :=
  match outcome with
  | .ok recordEnd => ⟨some start, recordEnd, .ok state⟩
  | .error err => ⟨some start, none, .error err⟩

end PassResult

/-- How to find the first record boundary of a chunk. -/
inductive FindRecordStart
  | strict
  | lenient
  | no
  | skipHeaders
  deriving DecidableEq, Repr

/-- The outcome of a boundary scan: the reader left on the boundary and the
boundary's offset, or no boundary in this chunk. -/
abbrev ScanOutcome := Except Error (Option (ChunkReader × ℕ))

/-- What the bytes of a chunk have to a boundary scan. -/
inductive Boundary
  | absent
  | found (off : ℕ)
  | rejected (off : ℕ)
  deriving DecidableEq, Repr

/-- The scan reports that boundary, or a `fill` call that failed. -/
def ScanOutcome.Matches (reader : ChunkReader) (boundary : Boundary) : ScanOutcome → Prop
  | .ok none => boundary = .absent
  | .ok (some (later, off)) => boundary = .found off ∧ reader.Advanced off later
  | .error err => (∃ off, boundary = .rejected off ∧ err = .invalidQuote off) ∨
      ∃ failure, reader.schedule.FailsWith failure ∧ err = .io failure

/-- The backend-specific part of a chunk parser. -/
structure ChunkParser (σ : Type) where
  config : Config
  scanRecordStart : ChunkReader → Assumption → Bool → ScanOutcome
  scanHeaderEnd : ChunkReader → ScanOutcome
  /-- Parse records from the given base offset. -/
  parseFrom : ChunkReader → σ → ℕ → σ × Except Error (Option ℕ)

/-- The loop of `skip_empty_lines`.  The fuel bounds the iterations: each one
consumes a byte. -/
def skipEmptyLinesLoop (config : Config) :
    ℕ → ChunkReader → ℕ → Except Error (ChunkReader × ℕ × Bool)
  | 0, reader, consumed => .ok (reader, consumed, false)
  | fuel + 1, reader, consumed =>
      match reader.fill 1 with
      | .error err => .error (.io err)
      | .ok reader =>
          match reader.buffer with
          | [] => .ok (reader, consumed, false)
          | first :: rest =>
              if !config.isTerminator first then .ok (reader, consumed, false)
              else
                let rem := reader.remainingInChunk
                if rem = 0 then .ok (reader, consumed, true)
                else
                  let cap := min (first :: rest).length rem
                  let i := (((first :: rest).take cap).takeWhile config.isTerminator).length
                  skipEmptyLinesLoop config fuel (reader.consume i) (consumed + i)

/-- `skip_empty_lines`: consume the run of bare terminator bytes at the reader's
position.  The flag says the run was still going at the chunk boundary. -/
def skipEmptyLines (config : Config) (reader : ChunkReader) :
    Except Error (ChunkReader × ℕ × Bool) :=
  skipEmptyLinesLoop config (reader.pending.length + 1) reader 0

/-- The run of terminator bytes the source starts with. -/
def blankRun (config : Config) (bytes : Bytes) : ℕ :=
  (bytes.takeWhile config.isTerminator).length

/-- The skip consumes the run up to the chunk's end, and says whether it goes on
there; or it reports a `fill` call that failed. -/
def SkipMatches (config : Config) (reader : ChunkReader) :
    Except Error (ChunkReader × ℕ × Bool) → Prop
  | .ok (later, skipped, straddles) =>
      skipped = min (blankRun config reader.pending) reader.chunkRemaining ∧
        straddles = decide (reader.chunkRemaining < blankRun config reader.pending) ∧
        reader.Advanced skipped later
  | .error err => ∃ failure, reader.schedule.FailsWith failure ∧ err = .io failure

theorem blankRun_drop (config : Config) (bytes : Bytes) (n : ℕ)
    (h : n ≤ blankRun config bytes) :
    blankRun config (bytes.drop n) = blankRun config bytes - n := by
  induction n generalizing bytes with
  | zero => simp
  | succ n ih =>
      cases bytes with
      | nil => simp [blankRun]
      | cons b rest =>
          simp only [blankRun, List.takeWhile_cons] at h ⊢
          split_ifs at h ⊢ with hb
          · rw [List.length_cons] at h ⊢
            have hrest := ih rest (by rw [blankRun]; omega)
            rw [blankRun, blankRun] at hrest
            rw [List.drop_succ_cons, hrest]
            omega
          · simp at h

theorem blankRun_le (config : Config) (bytes : Bytes) : blankRun config bytes ≤ bytes.length :=
  (List.takeWhile_sublist config.isTerminator).length_le

theorem takeWhile_take (p : Byte → Bool) (bytes : Bytes) (n : ℕ) :
    ((bytes.take n).takeWhile p).length = min n (bytes.takeWhile p).length := by
  induction bytes generalizing n with
  | nil => simp
  | cons b rest ih =>
      cases n with
      | zero => simp
      | succ n =>
          rw [List.take_succ_cons, List.takeWhile_cons, List.takeWhile_cons]
          split_ifs
          · rw [List.length_cons, List.length_cons, ih]
            omega
          · simp

theorem skipEmptyLinesLoop_spec (config : Config) (origin : ChunkReader) (fuel : ℕ)
    (reader : ChunkReader) (consumed : ℕ) (hreader : origin.Advanced consumed reader)
    (hrun : consumed ≤ blankRun config origin.pending)
    (hchunk : consumed ≤ origin.chunkRemaining)
    (hfuel : reader.pending.length < fuel) :
    SkipMatches config origin (skipEmptyLinesLoop config fuel reader consumed) := by
  induction fuel generalizing reader consumed with
  | zero => omega
  | succ fuel ih =>
      rw [skipEmptyLinesLoop]
      cases hfill : reader.fill 1 with
      | error err =>
          exact ⟨err, hreader.schedule.failsWith (ChunkReader.fill_error hfill), rfl⟩
      | ok filled =>
          have hfilled := hreader.fill hfill
          obtain ⟨hpending, hremaining, -, havail, hshown⟩ := ChunkReader.fill_spec hfill
          have hrest := blankRun_drop config origin.pending consumed hrun
          rw [← hfilled.pending] at hrest
          simp only
          -- the bytes in view decide how the run goes on
          cases hbuf : filled.buffer with
          | nil =>
              have hlen := congrArg List.length hbuf
              rw [ChunkReader.buffer, List.length_take, List.length_nil] at hlen
              have hempty : filled.pending.length = 0 := by
                rw [hpending] at hlen ⊢
                omega
              have hle := blankRun_le config filled.pending
              refine ⟨by omega, ?_, hfilled⟩
              rw [eq_comm, decide_eq_false_iff_not]
              omega
          | cons first rest =>
              have hlen := congrArg List.length hbuf
              rw [ChunkReader.buffer, List.length_take, List.length_cons] at hlen
              have hview := takeWhile_take config.isTerminator filled.pending filled.available
              have hremain := hfilled.chunkRemaining
              rw [show filled.pending.take filled.available = first :: rest from hbuf] at hview
              simp only
              rw [blankRun] at hrest
              cases hterm : config.isTerminator first with
              | false =>
                  rw [List.takeWhile_cons, hterm, if_neg Bool.false_ne_true,
                    List.length_nil] at hview
                  refine ⟨by omega, ?_, hfilled⟩
                  rw [eq_comm, decide_eq_false_iff_not]
                  omega
              | true =>
                  have hpos : 0 < ((first :: rest).takeWhile config.isTerminator).length := by
                    rw [List.takeWhile_cons, hterm, if_pos rfl, List.length_cons]
                    omega
                  simp only [Bool.not_true, Bool.false_eq_true, if_false,
                    ChunkReader.remainingInChunk]
                  by_cases hedge : filled.chunkRemaining = 0
                  · simp only [hedge, if_true]
                    refine ⟨by omega, ?_, hfilled⟩
                    rw [eq_comm, decide_eq_true_eq]
                    omega
                  · simp only [hedge, if_false]
                    have hcut := takeWhile_take config.isTerminator (first :: rest)
                      (min (first :: rest).length filled.chunkRemaining)
                    rw [List.length_cons] at hcut ⊢
                    apply ih _ _ (hfilled.consume _) (by omega) (by omega)
                    simp only [ChunkReader.consume, List.length_drop, hpending]
                    omega

/-- `skip_empty_lines` depends on the bytes of the source only. -/
theorem skipEmptyLines_spec (config : Config) (reader : ChunkReader) :
    SkipMatches config reader (skipEmptyLines config reader) :=
  skipEmptyLinesLoop_spec config reader _ reader 0 (.refl reader) (Nat.zero_le _)
    (Nat.zero_le _) (Nat.lt_succ_self _)

/-- Behind the skip there is no blank line, unless the run of them goes on. -/
theorem blankRun_of_skip {config : Config} {reader later : ChunkReader} {skipped : ℕ}
    (h : skipEmptyLines config reader = .ok (later, skipped, false)) :
    blankRun config later.pending = 0 := by
  have hskip := skipEmptyLines_spec config reader
  rw [h] at hskip
  obtain ⟨hskipped, hstraddles, hlater⟩ := hskip
  have hle := of_decide_eq_false hstraddles.symm
  rw [hlater.pending, blankRun_drop config _ _ (by omega)]
  omega

namespace ChunkParser

variable {σ : Type}

/-- The boundary scan a find mode stands for. -/
def scan (parser : ChunkParser σ) (reader : ChunkReader) (assumption : Assumption) :
    FindRecordStart → ScanOutcome
  | .no => .ok (some (reader, 0))
  | .skipHeaders => parser.scanHeaderEnd reader
  | .strict => parser.scanRecordStart reader assumption true
  | .lenient => parser.scanRecordStart reader assumption false

def parseBody (parser : ChunkParser σ) (reader : ChunkReader) (state : σ)
    (recordStart : ℕ) : PassResult σ :=
  match skipEmptyLines parser.config reader with
  -- the run outlasts the chunk: a boundary, but no body
  | .ok (_, skipped, true) =>
      .started recordStart (.ok (some (recordStart + skipped))) state
  | .ok (reader, skipped, false) =>
      let (state, outcome) := parser.parseFrom reader state (recordStart + skipped)
      .started recordStart outcome state
  | .error err => .started recordStart (.error err) state

theorem parseBody_recordStart (parser : ChunkParser σ) (reader : ChunkReader) (state : σ)
    (recordStart : ℕ) :
    (parser.parseBody reader state recordStart).recordStart = some recordStart := by
  have hstarted : ∀ outcome (state : σ),
      (PassResult.started recordStart outcome state).recordStart = some recordStart := by
    intro outcome state
    cases outcome <;> rfl
  rw [parseBody]
  split
  · exact hstarted _ _
  · exact hstarted _ _
  · exact hstarted _ _

def parse (parser : ChunkParser σ) (reader : ChunkReader) (state : σ)
    (assumption : Assumption) (find : FindRecordStart) : PassResult σ :=
  match parser.scan reader assumption find with
  | .ok (some (reader, recordStart)) => parser.parseBody reader state recordStart
  | .ok none => .noRecord state
  | .error err => .failed err

end ChunkParser

end Csveee
