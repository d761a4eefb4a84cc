import Csveee.Parser.Simd.Pass

/-!
# The two backends

Over the same bytes, whatever the refills, the vectorized chunk parser comes to what the
byte automaton comes to, as far as both succeed; over a whole source, one succeeds exactly
if the other does.
-/

namespace Csveee.Simd

open Dfa

variable {σ : Type}

section Passes

variable {config : Config} (hs : Supported config) (h : config.Distinct)
  (endian : Endian) (level : Isa) (acc : Accumulator σ)

/-- What a pass of the vectorized parser may come to, besides an error that the reference
comes to if it reads on. -/
def Follows (endian : Endian) (config : Config) (acc : Accumulator σ) (bytes : Bytes)
    (chunkRemaining : ℕ) (state : σ) (off : ℕ) (pass : PassResult σ) : Prop :=
  let run := blankRun config (bytes.drop off)
  pass = passFrom endian config acc bytes chunkRemaining state off ∨
    (∃ err, pass.result = .error err) ∧ run ≤ chunkRemaining - off ∧
      ∃ ahead state' err', refParse (reference endian config) acc
        (off + run + (chunkRemaining - off - run) + ahead) (off + run) (bytes.drop (off + run))
        state = (state', .error err')

include hs h

theorem parseBody_follows {origin reader : ChunkReader} (hreliable : origin.schedule.Reliable)
    {off : ℕ} (hreader : origin.Advanced off reader) (state : σ) :
    Follows endian config acc origin.pending origin.chunkRemaining state off
      (((SimdChunkParser.mk config level).chunkParser .bytes acc).parseBody reader state off) := by
  have hskip := skipEmptyLines_spec config reader
  rw [Follows, ChunkParser.parseBody, passFrom, ← hreader.chunkRemaining, ← hreader.pending,
    show ((SimdChunkParser.mk config level).chunkParser .bytes acc).config = config from rfl]
  cases hresult : skipEmptyLines config reader with
  | error err =>
      rw [hresult] at hskip
      obtain ⟨failure, ⟨call, hcall⟩, -⟩ := hskip
      exact absurd (hreader.schedule.failsWith hcall) (hreliable.not_failsWith failure)
  | ok found =>
      obtain ⟨later, skipped, straddles⟩ := found
      rw [hresult] at hskip
      obtain ⟨hskipped, hstraddles, hlater⟩ := hskip
      cases straddles with
      | true =>
          have hlt := of_decide_eq_true hstraddles.symm
          rw [if_pos hlt, hskipped, min_eq_right hlt.le]
          exact Or.inl rfl
      | false =>
          have hle := of_decide_eq_false hstraddles.symm
          have hschedule := hlater.schedule.reliable (hreader.schedule.reliable hreliable)
          rw [min_eq_left (by omega)] at hskipped
          have hblank : blankRun config later.pending = 0 := by
            rw [hlater.pending, blankRun_drop config _ _ hskipped.le, hskipped, Nat.sub_self]
          have hspec := runSteppers_spec hs h endian acc .bytes level later (off + skipped) state
            hblank
          have hpending : later.pending = origin.pending.drop (off + skipped) := by
            rw [hlater.pending, hreader.pending, List.drop_drop]
          rw [if_neg hle, ← hskipped, ← hlater.chunkRemaining, ← hpending]
          simp only [SimdChunkParser.chunkParser]
          generalize (SimdChunkParser.mk config level).runSteppers .bytes acc later state
            (off + skipped) = result at hspec ⊢
          obtain ⟨left, outcome⟩ := result
          cases outcome with
          | ok next =>
              rw [show refParse _ _ _ _ _ _ = _ from hspec]
              exact Or.inl rfl
          | error err =>
              refine Or.inr ⟨⟨err, rfl⟩, by omega, ?_⟩
              rcases hspec with hfails | ⟨failure, hfails, -⟩ | ⟨v, rel, hrefuses⟩
              · exact hfails
              · exact absurd hfails (hschedule.not_failsWith failure)
              · exact absurd hrefuses (not_refuses_bytes _ _ _)

/-- The parse of a chunk, with its boundary at its start or behind the header row. -/
theorem parse_follows {reader : ChunkReader} (hreliable : reader.schedule.Reliable) (state : σ)
    (assumption : Assumption) {find : FindRecordStart} (hfind : find = .no ∨ find = .skipHeaders) :
    let pass := ((SimdChunkParser.mk config level).chunkParser .bytes acc).parse reader state
      assumption find
    match find with
    | .skipHeaders =>
        match headerEndOf endian config (reader.pending.take reader.chunkRemaining) with
        | .absent => pass = .noRecord state
        | .found off =>
            Follows endian config acc reader.pending reader.chunkRemaining state off pass
        | .rejected off => pass = .failed (.invalidQuote off)
    | _ => Follows endian config acc reader.pending reader.chunkRemaining state 0 pass := by
  rcases hfind with rfl | rfl
  · exact parseBody_follows hs h endian level acc hreliable (.refl reader) state
  · have hscan := scanHeaderEnd_spec hs h endian reader
    simp only
    rw [ChunkParser.parse, ChunkParser.scan]
    change (SimdChunkParser.scanHeaderEnd config reader).Matches _ _ at hscan
    simp only [SimdChunkParser.chunkParser]
    cases hresult : SimdChunkParser.scanHeaderEnd config reader with
    | error err =>
        rw [hresult] at hscan
        rcases hscan with ⟨off, hrejected, rfl⟩ | ⟨failure, hfails, -⟩
        · rw [hrejected]
        · exact absurd hfails (hreliable.not_failsWith failure)
    | ok found =>
        rw [hresult] at hscan
        cases found with
        | none =>
            rw [show headerEndOf _ _ _ = .absent from hscan]
        | some found =>
            obtain ⟨later, off⟩ := found
            obtain ⟨hfound, hlater⟩ := hscan
            rw [hfound]
            exact parseBody_follows hs h endian level acc hreliable hlater state

omit hs h in
/-- On a whole source, both fail or neither does. -/
theorem Follows.whole {bytes : Bytes} {chunkRemaining off : ℕ} {state : σ} {pass : PassResult σ}
    (hfollows : Follows endian config acc bytes chunkRemaining state off pass)
    (hwhole : bytes.length ≤ chunkRemaining) :
    (∃ left, pass.result = .ok left) ↔
      ∃ left, (passFrom endian config acc bytes chunkRemaining state off).result = .ok left := by
  rcases hfollows with heq | ⟨⟨err, herr⟩, hrun, ahead, state', err', hfails⟩
  · rw [heq]
  · set run := blankRun config (bytes.drop off) with hrun_eq
    have hlength := List.length_drop (i := off + run) (l := bytes)
    have hle := blankRun_le config (bytes.drop off)
    rw [← hrun_eq, List.length_drop] at hle
    have hsame : RefState.run (reference endian config) acc
        (off + run + (chunkRemaining - off - run)) (off + run) (bytes.drop (off + run))
        (.new (off + run) state) =
      RefState.run (reference endian config) acc
        (off + run + (chunkRemaining - off - run) + ahead) (off + run) (bytes.drop (off + run))
        (.new (off + run) state) :=
      RefState.run_chunkEnd_congr _ _ _ _ _ (by omega) (by omega)
    rw [refParse, ← hsame] at hfails
    constructor
    · rintro ⟨left, hok⟩
      rw [herr] at hok
      cases hok
    · rintro ⟨left, hok⟩
      simp only [passFrom] at hok
      rw [← hrun_eq, if_neg (by omega), refParse, hfails] at hok
      cases hok

end Passes

/-- The vectorized chunk parser and the byte automaton, over the same bytes under refills of
their own: what both come to is the same, and over a whole source both come to something, or
neither does. -/
theorem parse_alike (config : ValidConfig) (hsupports : supports config.config = .ok ())
    (endian : Endian) (level : Isa) (acc : Accumulator σ) {reader reader' : ChunkReader}
    (hreliable : reader.schedule.Reliable) (hreliable' : reader'.schedule.Reliable)
    (hpending : reader.pending = reader'.pending)
    (hchunk : reader.chunkRemaining = reader'.chunkRemaining) (state : σ)
    (assumption : Assumption) {find : FindRecordStart} (hfind : find = .no ∨ find = .skipHeaders) :
    let simd := ((SimdChunkParser.mk config.config level).chunkParser .bytes acc).parse reader
      state assumption find
    let dfa := ((DfaChunkParser.new endian config.config).chunkParser .bytes acc).parse reader'
      state assumption find
    ((∃ left, simd.result = .ok left) → (∃ left, dfa.result = .ok left) → simd = dfa) ∧
      (reader.pending.length ≤ reader.chunkRemaining →
        ((∃ left, simd.result = .ok left) ↔ ∃ left, dfa.result = .ok left)) := by
  intro simd dfa
  have h := config.distinct
  have hs := supported_of_supports h hsupports
  have hsimd := parse_follows hs h endian level acc hreliable state assumption hfind
  have hagree : ∀ off, Follows endian config.config acc reader.pending reader.chunkRemaining state
      off simd → dfa = passFrom endian config.config acc reader.pending reader.chunkRemaining state
        off →
      ((∃ left, simd.result = .ok left) → (∃ left, dfa.result = .ok left) → simd = dfa) ∧
        (reader.pending.length ≤ reader.chunkRemaining →
          ((∃ left, simd.result = .ok left) ↔ ∃ left, dfa.result = .ok left)) := by
    intro off hfollows hdfa
    constructor
    · rintro ⟨left, hleft⟩ -
      rcases hfollows with heq | ⟨⟨err, herr⟩, -⟩
      · rw [heq, hdfa]
      · rw [hleft] at herr
        cases herr
    · intro hwhole
      rw [hdfa]
      exact hfollows.whole endian acc hwhole
  rcases hfind with rfl | rfl
  · refine hagree 0 hsimd ?_
    rw [hpending, hchunk]
    exact parseBody_eq endian config.config acc hreliable' (.refl reader') state
  · have hdfa := parse_headers endian config.config acc hreliable' state assumption
    rw [← hpending, ← hchunk] at hdfa
    simp only at hsimd
    cases hend : headerEndOf endian config.config (reader.pending.take reader.chunkRemaining) with
    | found off =>
        rw [hend] at hsimd hdfa
        exact hagree off hsimd hdfa
    | absent =>
        rw [hend] at hsimd hdfa
        have heq : simd = dfa := hsimd.trans hdfa.symm
        rw [heq]
        exact ⟨fun _ _ => rfl, fun _ => Iff.rfl⟩
    | rejected off =>
        rw [hend] at hsimd hdfa
        have heq : simd = dfa := hsimd.trans hdfa.symm
        rw [heq]
        exact ⟨fun _ _ => rfl, fun _ => Iff.rfl⟩

/-- A blank line between two rows of which the first is quoted. -/
theorem parse_alike_quoted :
    ((SimdChunkParser.mk pairs.config ⟨false⟩).chunkParser .bytes
        RecordWise.acceptAll.accumulator).parse
          (.whole [34, 97, 10, 34, 44, 98, 10, 10, 99, 44, 100, 10]) [] .outOfQuotes .no =
      ((DfaChunkParser.new .little pairs.config).chunkParser .bytes
        RecordWise.acceptAll.accumulator).parse
          (.whole [34, 97, 10, 34, 44, 98, 10, 10, 99, 44, 100, 10]) [] .outOfQuotes .no := by
  have halike := @parse_alike _ pairs rfl .little ⟨false⟩ RecordWise.acceptAll.accumulator
    (.whole [34, 97, 10, 34, 44, 98, 10, 10, 99, 44, 100, 10])
    (.whole [34, 97, 10, 34, 44, 98, 10, 10, 99, 44, 100, 10])
    Schedule.reliable_exact Schedule.reliable_exact rfl rfl [] .outOfQuotes .no (Or.inl rfl)
  have hdfa : ∃ left, (((DfaChunkParser.new .little pairs.config).chunkParser .bytes
      RecordWise.acceptAll.accumulator).parse
        (.whole [34, 97, 10, 34, 44, 98, 10, 10, 99, 44, 100, 10]) [] .outOfQuotes .no).result =
          .ok left := ⟨[[[97, 10], [98]], [[99], [100]]], by decide +kernel⟩
  exact halike.1 ((halike.2 le_rfl).mpr hdfa) hdfa

end Csveee.Simd
