import Csveee.Parser.Contract

/-!
# The pass over a chunk

What the byte automaton's chunk parser makes of a chunk whose reader does not fail:
the boundary its table finds, and the reference's parse from there.
-/

namespace Csveee

namespace PassResult

/-- A pass that starts at `start`, with the body's outcome. -/
def ofBody {σ : Type} (start : ℕ) (body : Dfa.BodyOutcome σ) : PassResult σ :=
  .started start body.2 body.1

theorem ok_of_ofBody {σ : Type} {start : ℕ} {body : Dfa.BodyOutcome σ} {left : σ}
    (h : (ofBody start body).result = .ok left) : ∃ last, body = (left, .ok last) := by
  obtain ⟨state, outcome⟩ := body
  cases outcome with
  | error err => cases h
  | ok last =>
      cases h
      exact ⟨last, rfl⟩

end PassResult

namespace Dfa

variable {σ : Type} (endian : Endian) (config : Config) (acc : Accumulator σ)

/-- The parse of a chunk from a boundary at `off`. -/
def passFrom (bytes : Bytes) (chunkRemaining : ℕ) (state : σ) (off : ℕ) : PassResult σ :=
  let run := blankRun config (bytes.drop off)
  if chunkRemaining - off < run then
    .started off (.ok (some (off + (chunkRemaining - off)))) state
  else
    .ofBody off (refParse (reference endian config) acc
      (off + run + (chunkRemaining - off - run)) (off + run) (bytes.drop (off + run)) state)

theorem parseBody_eq {origin reader : ChunkReader} (hreliable : origin.schedule.Reliable)
    {off : ℕ} (hreader : origin.Advanced off reader) (state : σ) :
    ((DfaChunkParser.new endian config).chunkParser .bytes acc).parseBody reader state off =
      passFrom endian config acc origin.pending origin.chunkRemaining state off := by
  have hskip := skipEmptyLines_spec config reader
  rw [ChunkParser.parseBody, passFrom, ← hreader.chunkRemaining, ← hreader.pending,
    show ((DfaChunkParser.new endian config).chunkParser .bytes acc).config = config from rfl]
  cases hresult : skipEmptyLines config reader with
  | error err =>
      rw [hresult] at hskip
      obtain ⟨failure, hfails, -⟩ := hskip
      obtain ⟨call, hcall⟩ := hfails
      exact absurd (hreader.schedule.failsWith hcall) (hreliable.not_failsWith failure)
  | ok found =>
      obtain ⟨later, skipped, straddles⟩ := found
      rw [hresult] at hskip
      obtain ⟨hskipped, hstraddles, hlater⟩ := hskip
      cases straddles with
      | true =>
          have hlt := of_decide_eq_true hstraddles.symm
          rw [if_pos hlt, hskipped, min_eq_right hlt.le]
      | false =>
          have hle := of_decide_eq_false hstraddles.symm
          have hschedule := hlater.schedule.reliable (hreader.schedule.reliable hreliable)
          have hrun := (@run_endsAs _ (reference endian config) acc (searchSound_new endian config)
            later (off + skipped) state).eq_of_reliable hschedule
          rw [min_eq_left (by omega)] at hskipped
          rw [if_neg hle, ← hskipped]
          rw [hlater.pending, hlater.chunkRemaining, hreader.pending, List.drop_drop] at hrun
          exact congrArg (PassResult.ofBody off) hrun

/-- The pass over a chunk is the reference's parse up to the chunk's end. -/
theorem passFrom_eq (h : config.Distinct) (bytes : Bytes) {chunkRemaining off : ℕ}
    (hoff : off ≤ chunkRemaining) (state : σ) :
    passFrom endian config acc bytes chunkRemaining state off =
      .ofBody off (refParse (reference endian config) acc chunkRemaining off (bytes.drop off)
        state) := by
  simp only [passFrom]
  by_cases hrun : chunkRemaining - off < blankRun config (bytes.drop off)
  · rw [if_pos hrun, refParse_straddle h endian acc chunkRemaining off _ state hoff hrun,
      Nat.add_sub_cancel' hoff]
    rfl
  · have hend : off + blankRun config (bytes.drop off) +
        (chunkRemaining - off - blankRun config (bytes.drop off)) = chunkRemaining := by omega
    rw [if_neg hrun, hend, ← List.drop_drop,
      refParse_skip h endian acc chunkRemaining off _ _ state le_rfl (by omega)]

/-- A chunk that reaches the end of the source is parsed in one piece. -/
theorem passFrom_whole (h : config.Distinct) {bytes : Bytes} {chunkRemaining off : ℕ}
    (hwhole : bytes.length ≤ chunkRemaining) (hoff : off ≤ bytes.length) (state : σ) :
    passFrom endian config acc bytes chunkRemaining state off =
      .ofBody off (refParse (reference endian config) acc bytes.length off (bytes.drop off)
        state) := by
  have hlength := List.length_drop (i := off) (l := bytes)
  rw [passFrom_eq endian config acc h bytes (by omega)]
  exact congrArg (PassResult.ofBody off)
    (RefState.run_chunkEnd_congr _ _ off _ _ (by omega) (by omega))

theorem parse_whole (h : config.Distinct) {reader : ChunkReader}
    (hreliable : reader.schedule.Reliable)
    (hwhole : reader.pending.length ≤ reader.chunkRemaining) (state : σ)
    (assumption : Assumption) :
    ((DfaChunkParser.new endian config).chunkParser .bytes acc).parse reader state assumption
        .no =
      .ofBody 0 (refParse (reference endian config) acc reader.pending.length 0 reader.pending
        state) := by
  rw [ChunkParser.parse, ChunkParser.scan]
  simp only
  rw [parseBody_eq endian config acc hreliable (.refl reader),
    passFrom_whole endian config acc h hwhole (Nat.zero_le _), List.drop_zero]

/-- The whole source as one chunk, validated on the way and read by any schedule: blank lines,
then what the driver makes of the rest. -/
theorem parse_ends (output : Output) {reader : ChunkReader}
    (hwhole : reader.pending.length ≤ reader.chunkRemaining) (state : σ)
    (assumption : Assumption) :
    let run := blankRun config reader.pending
    (∃ failure, reader.schedule.FailsWith failure ∧
      ((DfaChunkParser.new endian config).chunkParser output acc).parse reader state assumption
        .no = .started 0 (.error (.io failure)) state) ∨
    ∃ later outcome, reader.Advanced run later ∧
      Ends (reference endian config) acc (run + later.chunkRemaining) run
        (reader.pending.drop run) (.new run state) output later.schedule outcome ∧
      ((DfaChunkParser.new endian config).chunkParser output acc).parse reader state assumption
        .no = .ofBody 0 outcome := by
  have hskip := skipEmptyLines_spec config reader
  have hrun := blankRun_le config reader.pending
  intro run
  rw [ChunkParser.parse, ChunkParser.scan]
  simp only
  rw [ChunkParser.parseBody,
    show ((DfaChunkParser.new endian config).chunkParser output acc).config = config from rfl]
  cases hresult : skipEmptyLines config reader with
  | error err =>
      rw [hresult] at hskip
      obtain ⟨failure, hfails, rfl⟩ := hskip
      exact Or.inl ⟨failure, hfails, rfl⟩
  | ok found =>
      obtain ⟨later, skipped, straddles⟩ := found
      rw [hresult] at hskip
      obtain ⟨hskipped, hstraddles, hlater⟩ := hskip
      rw [min_eq_left (by omega)] at hskipped
      have hfalse : straddles = false := by
        rw [hstraddles, decide_eq_false_iff_not]
        omega
      subst hskipped hfalse
      refine Or.inr ⟨later, _, hlater, ?_, rfl⟩
      have hends := @run_ends _ (reference endian config) acc (searchSound_new endian config)
        output later run state
      rw [hlater.pending] at hends
      simp only [Nat.zero_add]
      exact hends

/-- The pass that follows upon what the scan of a chunk finds. -/
def passAt (bytes : Bytes) (chunkRemaining : ℕ) (state : σ) : Boundary → PassResult σ
  | .absent => .noRecord state
  | .found off => passFrom endian config acc bytes chunkRemaining state off
  | .rejected off => .failed (.invalidQuote off)

theorem parse_of_matches {reader : ChunkReader} (hreliable : reader.schedule.Reliable)
    (state : σ) (assumption : Assumption) (find : FindRecordStart) {boundary : Boundary}
    (hscan : ScanOutcome.Matches reader boundary
      (((DfaChunkParser.new endian config).chunkParser .bytes acc).scan reader assumption find)) :
    ((DfaChunkParser.new endian config).chunkParser .bytes acc).parse reader state assumption
        find =
      passAt endian config acc reader.pending reader.chunkRemaining state boundary := by
  rw [ChunkParser.parse]
  cases hresult : ((DfaChunkParser.new endian config).chunkParser .bytes acc).scan reader
      assumption find with
  | error err =>
      rw [hresult] at hscan
      rcases hscan with ⟨off, rfl, rfl⟩ | ⟨failure, hfails, -⟩
      · rfl
      · exact absurd hfails (hreliable.not_failsWith failure)
  | ok found =>
      rw [hresult] at hscan
      cases found with
      | none =>
          cases (show boundary = .absent from hscan)
          rfl
      | some found =>
          obtain ⟨later, off⟩ := found
          obtain ⟨rfl, hlater⟩ := hscan
          exact parseBody_eq endian config acc hreliable hlater state

theorem parse_headers {reader : ChunkReader} (hreliable : reader.schedule.Reliable) (state : σ)
    (assumption : Assumption) :
    ((DfaChunkParser.new endian config).chunkParser .bytes acc).parse reader state assumption
        .skipHeaders =
      match headerEndOf endian config (reader.pending.take reader.chunkRemaining) with
      | .absent => .noRecord state
      | .found off => passFrom endian config acc reader.pending reader.chunkRemaining state off
      | .rejected off => .failed (.invalidQuote off) :=
  parse_of_matches endian config acc hreliable state assumption .skipHeaders
    (findRecordStartFrom_spec (searchSound_new endian config)
      (fun hfalse => absurd hfalse Bool.false_ne_true) reader .recordStart)

end Dfa

end Csveee
