import Csveee.Parser.Dfa.Pass
import Csveee.Parser.Simd.CursorFinish

/-!
# The vectorized pass over a chunk

Whichever stepper runs, what it makes of a body is what the reference makes of it.  So the
vectorized chunk parser keeps the scheduler's contract, though it looks ahead of its chunk.
-/

namespace Csveee.Simd

open Dfa

variable {σ : Type}

namespace Edge

/-- Without the probe, nothing is rejected. -/
theorem scan_lenient (config : Config) (edge : Edge) (x : ℕ) (bytes : Bytes) (off : ℕ) :
    edge.scan config false x bytes ≠ .rejected off := by
  induction bytes generalizing edge x with
  | nil => exact Boundary.noConfusion
  | cons b rest ih =>
      rw [Edge.scan, Bool.false_and, if_neg Bool.false_ne_true]
      split_ifs with hfinds
      · exact Boundary.noConfusion
      · exact ih _ _

theorem lt_of_scan_found {config : Config} {strict : Bool} {edge : Edge} {x off : ℕ}
    {bytes : Bytes} (hfound : edge.scan config strict x bytes = .found off) :
    off < x + bytes.length := by
  induction bytes generalizing edge x with
  | nil => cases hfound
  | cons b rest ih =>
      rw [List.length_cons]
      rw [Edge.scan] at hfound
      split_ifs at hfound
      · cases hfound
        omega
      · have hlt := ih hfound
        omega

end Edge

section Header

variable {config : Config} (hs : Supported config) (h : config.Distinct) (endian : Endian)

include hs h

/-- A record that has begun is scanned as one that is about to. -/
theorem scanBytes_recordStart {bytes : Bytes} (hblank : blankRun config bytes = 0) (x : ℕ) :
    (scanBytes (Dfa.new endian config) false .recordStart x bytes).boundary =
      (scanBytes (Dfa.new endian config) false .fieldStart x bytes).boundary := by
  cases bytes with
  | nil => rfl
  | cons b rest =>
      have hterm : ¬ config.isTerminator b = true := by
        intro hterm
        rw [blankRun, List.takeWhile_cons, if_pos hterm] at hblank
        cases hblank
      have hsame : (Dfa.new endian config).transition .recordStart b =
          (Dfa.new endian config).transition .fieldStart b := by
        have hsymbol := symbol_tests h b
        rw [transition_eq h endian _ (by decide), transition_eq h endian _ (by decide)]
        cases hsym : config.symbol b with
        | terminator => exact absurd (hsymbol.2.1.mp hsym) hterm
        | comment =>
            have hcomment := hsymbol.2.2.2.2.mp hsym
            rw [hs.comment] at hcomment
            cases hcomment
        | _ => rfl
      rw [scanBytes, scanBytes, hsame]

/-- The byte automaton passes over the blank lines, too. -/
theorem headerEndOf_eq (bytes : Bytes) :
    headerEndOf endian config bytes =
      ((scanBytes (Dfa.new endian config) false .fieldStart 0
        (bytes.drop (blankRun config bytes))).shift (blankRun config bytes)).boundary := by
  have hrest := blankRun_drop config bytes _ le_rfl
  have hstay := scanBytes_stay (Dfa.new endian config) false .recordStart 0
    (bytes.takeWhile config.isTerminator) (bytes.dropWhile config.isTerminator) rfl
    fun b hb => ⟨(blank_reference h endian b).mpr (List.mem_takeWhile_imp hb), rfl⟩
  have hdrop : bytes.dropWhile config.isTerminator = bytes.drop (blankRun config bytes) := by
    have happend := List.takeWhile_append_dropWhile (p := config.isTerminator) (l := bytes)
    calc bytes.dropWhile config.isTerminator
        = (bytes.takeWhile config.isTerminator ++ bytes.dropWhile config.isTerminator).drop
            (blankRun config bytes) := List.drop_left.symm
      _ = bytes.drop (blankRun config bytes) := by rw [happend]
  rw [List.takeWhile_append_dropWhile, hdrop] at hstay
  rw [Nat.sub_self] at hrest
  rw [headerEndOf, show (DfaChunkParser.new endian config).dfa = Dfa.new endian config from rfl,
    hstay, scanBytes_recordStart hs h endian hrest, ← scanBytes_shift, Nat.zero_add, Nat.add_zero,
    blankRun]

/-- The header's end is where the byte automaton finds it. -/
theorem scanHeaderEnd_spec (reader : ChunkReader) :
    (SimdChunkParser.scanHeaderEnd config reader).Matches reader
      (headerEndOf endian config (reader.pending.take reader.chunkRemaining)) := by
  have hskip := skipEmptyLines_spec config reader
  rw [SimdChunkParser.scanHeaderEnd]
  cases hresult : skipEmptyLines config reader with
  | error err =>
      rw [hresult] at hskip
      exact Or.inr hskip
  | ok found =>
      obtain ⟨later, skipped, straddles⟩ := found
      rw [hresult] at hskip
      obtain ⟨hskipped, -, hlater⟩ := hskip
      have hrun : blankRun config (reader.pending.take reader.chunkRemaining) = skipped := by
        rw [hskipped, min_comm]
        exact takeWhile_take config.isTerminator reader.pending reader.chunkRemaining
      have hbytes : (reader.pending.take reader.chunkRemaining).drop skipped =
          later.pending.take later.chunkRemaining := by
        rw [hlater.pending, hlater.chunkRemaining, List.drop_take]
      have hscan := findRecordStart_spec h later .outOfQuotes false
      have hfound := scan_eq_scanBytes hs h endian (fun hfalse => absurd hfalse Bool.false_ne_true)
        .fieldStart 0 (later.pending.take later.chunkRemaining)
      rw [headerEndOf_eq hs h endian, hrun, hbytes]
      simp only
      cases hfind : findRecordStart config later .outOfQuotes false with
      | error err =>
          rw [hfind] at hscan
          rcases hscan with ⟨off, hrejected, -⟩ | ⟨failure, hfails, rfl⟩
          · exact absurd hrejected (Edge.scan_lenient config _ _ _ off)
          · obtain ⟨call, hcall⟩ := hfails
            exact Or.inr ⟨failure, hlater.schedule.failsWith hcall, rfl⟩
      | ok found =>
          rw [hfind] at hscan
          cases found with
          | none =>
              have habsent := hfound.symm.trans hscan
              cases hbuffer : scanBytes (Dfa.new endian config) false .fieldStart 0
                (later.pending.take later.chunkRemaining) with
              | exhausted state => rfl
              | recordEnd pos => rw [hbuffer] at habsent; cases habsent
              | rejected pos => rw [hbuffer] at habsent; cases habsent
          | some found =>
              obtain ⟨last, off⟩ := found
              obtain ⟨hoff, hlast⟩ := hscan
              have hend := hfound.symm.trans hoff
              cases hbuffer : scanBytes (Dfa.new endian config) false .fieldStart 0
                (later.pending.take later.chunkRemaining) with
              | exhausted state => rw [hbuffer] at hend; cases hend
              | recordEnd pos =>
                  rw [hbuffer] at hend
                  cases hend
                  have hmatches : ScanOutcome.Matches reader (.found (skipped + off))
                      (.ok (some (last, skipped + off))) := ⟨rfl, hlater.trans hlast⟩
                  exact hmatches
              | rejected pos => rw [hbuffer] at hend; cases hend

end Header

namespace Body

/-- Whichever stepper the quote byte picks. -/
theorem post (body : Body σ) (level : Isa) {reader : ChunkReader}
    (hpending : reader.pending = body.text)
    (hremaining : reader.chunkRemaining = body.chunkEnd - body.base) :
    body.Post reader.schedule ((SimdChunkParser.mk body.config level).runSteppers body.output
      body.acc reader body.initial body.base) := by
  rw [SimdChunkParser.runSteppers]
  split_ifs with hquote
  · exact body.cursor_post (Option.isNone_iff_eq_none.mp hquote) level hpending hremaining
  · exact body.index_post level hpending hremaining

theorem outcome_eq (body : Body σ) (h : body.config.Distinct) (endian : Endian)
    (hblank : blankRun body.config body.text = 0) (chunkEnd : ℕ) :
    body.outcome chunkEnd = refParse (reference endian body.config) body.acc chunkEnd body.base
      body.text body.initial :=
  (refParse_eq_emitCells body.supported h endian body.acc chunkEnd body.count hblank
    body.chain).symm

/-- The body of a run that keeps nothing in mind. -/
def plain {config : Config} (hs : Supported config) (h : config.Distinct) (acc : Accumulator σ)
    (output : Output) {n : ℕ} (hcount : config.fieldCount = some n) (text : Bytes)
    {base chunkEnd : ℕ} (hle : base ≤ chunkEnd) (initial : σ) {cells : List Cell}
    (hchain : (marksOf config (terminated config text)).Chain 0 cells) : Body σ where
  config := config
  acc := acc
  output := output
  n := n
  text := text
  base := base
  chunkEnd := chunkEnd
  initial := initial
  cells := cells
  valid := fun _ => True
  kept := fun _ => True
  supported := hs
  distinct := h
  count := hcount
  base_le := hle
  chain := hchain
  valid_zero := trivial
  validates := fun _ _ _ _ _ _ => trivial
  kept_initial := trivial
  keeps := fun _ _ _ _ _ _ _ => trivial

end Body

section Pass

variable {config : Config} (hs : Supported config) (h : config.Distinct) (endian : Endian)
  (acc : Accumulator σ) (output : Output)

include hs h in
/-- A text has cells, and its records a number of fields. -/
theorem exists_cells (text : Bytes) : ∃ n cells, config.fieldCount = some n ∧
    (marksOf config (terminated config text)).Chain 0 cells := by
  obtain ⟨n, hcount, -⟩ := hs.fieldCount
  obtain ⟨cells, hchain⟩ := Marks.exists_chain (proper_marksOf h) 0 (Or.inl rfl)
  exact ⟨n, cells, hcount, hchain⟩

include hs h in
/-- A text that starts on a record, parsed from there: the reference's outcome; or an error,
which the reference comes to as well if it reads on far enough; or a `fill` call that failed,
or bytes that did not pass. -/
theorem runSteppers_spec (level : Isa) (reader : ChunkReader) (base : ℕ) (state : σ)
    (hblank : blankRun config reader.pending = 0) :
    let result := (SimdChunkParser.mk config level).runSteppers output acc reader state base
    match result.2 with
    | .ok next => refParse (reference endian config) acc (base + reader.chunkRemaining) base
        reader.pending state = (result.1, .ok next)
    | .error err =>
        (∃ ahead state' err', refParse (reference endian config) acc
          (base + reader.chunkRemaining + ahead) base reader.pending state =
            (state', .error err')) ∨
        (∃ failure, reader.schedule.FailsWith failure ∧ err = .io failure) ∨
        ∃ v rel, Refuses output reader.pending v rel := by
  obtain ⟨n, cells, hcount, hchain⟩ := exists_cells hs h reader.pending
  have hle := Nat.le_add_right base reader.chunkRemaining
  set body := Body.plain hs h acc output hcount reader.pending hle state hchain
  intro result
  have hpost : body.Post reader.schedule result :=
    body.post level rfl (Nat.add_sub_cancel_left _ _).symm
  have heq := body.outcome_eq h endian hblank
  have hends := hpost.ends
  cases hresult : result.2 with
  | ok next =>
      rw [hresult] at hends
      exact (heq _).symm.trans hends
  | error err =>
      rw [hresult] at hends
      rcases hends with ⟨walk, hblames⟩ | hfails | ⟨v, rel, -, hrefuses, -⟩
      · obtain ⟨state', err', hfar⟩ := hblames.fails
        have hfar_le : base + reader.chunkRemaining ≤ body.far := le_max_left _ _
        refine Or.inl ⟨body.far - (base + reader.chunkRemaining), state', err', ?_⟩
        rw [Nat.add_sub_cancel' hfar_le]
        exact (heq _).symm.trans hfar
      · exact Or.inr (Or.inl hfails)
      · exact Or.inr (Or.inr ⟨v, rel, hrefuses⟩)

include hs h in
/-- The vectorized chunk parser finds what the byte automaton finds, and parses what the
reference parses; but it may fail on what lies behind the chunk. -/
theorem contract (level : Isa) (acc : RecordWise) :
    ((SimdChunkParser.mk config level).chunkParser .bytes acc.accumulator).Contract endian config
      acc (boundaryOf config) true where
  dialect := rfl
  scan := fun reader assumption strict => findRecordStart_spec h reader assumption strict
  within := by
    intro assumption strict bytes off hfound
    have hlt := Edge.lt_of_scan_found hfound
    rwa [Nat.zero_add] at hlt
  lenient := by
    intro assumption hmem bytes
    exact boundaryOf_eq hs h endian hmem (fun hfalse => absurd hfalse Bool.false_ne_true) bytes
  strict := by
    intro assumption hmem bytes
    rcases scan_strict ⟨initialCarry config assumption, true, false⟩ 0 bytes with hsame | hrejected
    · exact Or.inl hsame
    · refine Or.inr ⟨hrejected, ?_⟩
      have hthere := scan_strict_rejected hs h endian (tracks_initial hs endian hmem) 0 bytes
        hrejected
      rw [Dfa.boundaryOf]
      simp only [show (DfaChunkParser.new endian config).findDfa = Dfa.new endian config from
        congrArg (Dfa.new endian) hs.handling_eq]
      exact hthere
  header := scanHeaderEnd_spec hs h endian
  body_ok := by
    intro reader base records next hblank hrun
    have hspec := runSteppers_spec hs h endian acc.accumulator .bytes level reader base [] hblank
    have hrun' : (SimdChunkParser.mk config level).runSteppers .bytes acc.accumulator reader []
      base = (records, .ok next) := hrun
    rw [hrun'] at hspec
    exact hspec
  body_error := by
    intro reader base records err hblank hrun
    have hspec := runSteppers_spec hs h endian acc.accumulator .bytes level reader base [] hblank
    have hrun' : (SimdChunkParser.mk config level).runSteppers .bytes acc.accumulator reader []
      base = (records, .error err) := hrun
    rw [hrun'] at hspec
    rcases hspec with ⟨ahead, records', err', hfails⟩ | ⟨failure, hfails, -⟩ | ⟨v, rel, hrefuses⟩
    · exact Or.inr ⟨ahead, records', err', Or.inr rfl, hfails⟩
    · exact Or.inl ⟨failure, hfails⟩
    · exact absurd hrefuses (not_refuses_bytes _ _ _)

end Pass

end Csveee.Simd
