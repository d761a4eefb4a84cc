import Csveee.Parser.Dfa.Boundary
import Csveee.Parser.Dfa.Buffering
import Csveee.Parser.Dfa.Sequential

/-!
# What the scheduler relies on

A chunk parser of a dialect finds the boundaries the byte automaton finds, though it
may miss a rejection, and parses what the reference parses.  One that looks ahead of
its chunk's end may fail on what lies there.
-/

namespace Csveee

namespace Dfa

/-- The boundary the byte automaton finds in a chunk. -/
def boundaryOf (endian : Endian) (config : Config) (assumption : Assumption)
    (strictProbe : Bool) (bytes : Bytes) : Boundary :=
  let parser := DfaChunkParser.new endian config
  (scanBytes parser.findDfa strictProbe (parser.assumptionToState assumption) 0 bytes).boundary

/-- The header end the byte automaton finds in a chunk. -/
def headerEndOf (endian : Endian) (config : Config) (bytes : Bytes) : Boundary :=
  (scanBytes (DfaChunkParser.new endian config).dfa false .recordStart 0 bytes).boundary

end Dfa

/-- A chunk parser of the dialect: the boundaries it finds, and whether it may report
errors from past its chunk's end. -/
structure ChunkParser.Contract (parser : ChunkParser (List Record)) (endian : Endian)
    (config : Config) (acc : RecordWise) (boundary : Assumption → Bool → Bytes → Boundary)
    (looksAhead : Bool) : Prop where
  dialect : parser.config = config
  scan : ∀ reader assumption strict,
    (parser.scanRecordStart reader assumption strict).Matches reader
      (boundary assumption strict (reader.pending.take reader.chunkRemaining))
  within : ∀ assumption strict bytes off,
    boundary assumption strict bytes = .found off → off < bytes.length
  lenient : ∀ assumption ∈ assumptionsForConfig config.quote config.escape, ∀ bytes,
    boundary assumption false bytes = Dfa.boundaryOf endian config assumption false bytes
  strict : ∀ assumption ∈ assumptionsForConfig config.quote config.escape, ∀ bytes,
    boundary assumption true bytes = boundary assumption false bytes ∨
      (∃ off, boundary assumption true bytes = .rejected off) ∧
        ∃ off, Dfa.boundaryOf endian config assumption true bytes = .rejected off
  header : ∀ reader, (parser.scanHeaderEnd reader).Matches reader
    (Dfa.headerEndOf endian config (reader.pending.take reader.chunkRemaining))
  body_ok : ∀ reader base records next, blankRun config reader.pending = 0 →
    parser.parseFrom reader [] base = (records, .ok next) →
    Dfa.refParse (Dfa.reference endian config) acc.accumulator
      (base + reader.chunkRemaining) base reader.pending [] = (records, .ok next)
  body_error : ∀ reader base records err, blankRun config reader.pending = 0 →
    parser.parseFrom reader [] base = (records, .error err) →
      (∃ failure, reader.schedule.FailsWith failure) ∨
        ∃ ahead records' err', (ahead = 0 ∨ looksAhead = true) ∧
          Dfa.refParse (Dfa.reference endian config) acc.accumulator
            (base + reader.chunkRemaining + ahead) base reader.pending [] =
              (records', .error err')

namespace Dfa

theorem lt_of_boundary_found {dfa : Dfa} {strictProbe : Bool} {state : State} {bytes : Bytes}
    {off : ℕ} (h : (scanBytes dfa strictProbe state 0 bytes).boundary = .found off) :
    off < bytes.length := by
  have hwithin := scanBytes_within dfa strictProbe state 0 bytes
  cases hscan : scanBytes dfa strictProbe state 0 bytes with
  | exhausted => rw [hscan] at h; cases h
  | rejected => rw [hscan] at h; cases h
  | recordEnd pos =>
      rw [hscan] at h hwithin
      cases h
      have hlt := hwithin.2
      omega

/-- The byte automaton under the strict probe finds what it finds without, unless it
rejects. -/
theorem scanBytes_strict (dfa : Dfa) (state : State) (x : ℕ) (bytes : Bytes) :
    scanBytes dfa true state x bytes = scanBytes dfa false state x bytes ∨
      ∃ off, scanBytes dfa true state x bytes = .rejected off := by
  induction bytes generalizing state x with
  | nil => exact Or.inl rfl
  | cons b rest ih =>
      simp only [scanBytes, Bool.true_and, Bool.false_and, Bool.false_eq_true, if_false]
      by_cases hflag : (dfa.transition state b).strictError = true
      · rw [if_pos hflag]
        exact Or.inr ⟨x, rfl⟩
      · rw [if_neg hflag]
        cases (dfa.transition state b).next with
        | error => exact Or.inl rfl
        | recordEnd => exact Or.inl rfl
        | fieldEnd => exact ih .fieldStart (x + 1)
        | _ => exact ih _ (x + 1)

/-- The byte automaton keeps the contract, and misses no rejection. -/
theorem contract (endian : Endian) (config : Config) (acc : RecordWise) :
    ((DfaChunkParser.new endian config).chunkParser .bytes acc.accumulator).Contract endian
      config acc (boundaryOf endian config) false where
  dialect := rfl
  scan := by
    intro reader assumption strict
    have hsound := probeSound_new endian config
    exact findRecordStartFrom_spec hsound.toSearchSound (fun _ => hsound) reader _
  within := fun _ _ _ _ hfound => lt_of_boundary_found hfound
  lenient := fun _ _ _ => rfl
  strict := by
    intro assumption _ bytes
    rcases scanBytes_strict (DfaChunkParser.new endian config).findDfa
      ((DfaChunkParser.new endian config).assumptionToState assumption) 0 bytes with
      hsame | ⟨off, hrejected⟩
    · exact Or.inl (congrArg BufferScan.boundary hsame)
    · have hboundary : boundaryOf endian config assumption true bytes = .rejected off :=
        congrArg BufferScan.boundary hrejected
      exact Or.inr ⟨⟨off, hboundary⟩, off, hboundary⟩
  header := by
    intro reader
    exact findRecordStartFrom_spec (searchSound_new endian config)
      (fun hfalse => absurd hfalse Bool.false_ne_true) reader _
  body_ok := by
    intro reader base records next _ hrun
    rcases @run_endsAs _ (reference endian config) _
      (searchSound_new endian config) reader base [] with hend | ⟨_, _, _, hend⟩
    · exact hend.symm.trans hrun
    · have hfalse := hrun.symm.trans hend
      cases hfalse
  body_error := by
    intro reader base records err _ hrun
    rcases @run_endsAs _ (reference endian config) _
      (searchSound_new endian config) reader base [] with hend | ⟨_, failure, hfails, _⟩
    · exact Or.inr ⟨0, records, err, Or.inl rfl, hend.symm.trans hrun⟩
    · exact Or.inl ⟨failure, hfails⟩

end Dfa

end Csveee
