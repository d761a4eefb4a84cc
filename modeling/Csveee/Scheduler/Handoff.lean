import Csveee.Parser.Dfa.Anchors
import Csveee.Scheduler.Backends

/-!
# Handing over between chunks

Where the parse of a chunk stops past its end is where the boundary scan of the next chunk
starts it, if the scan assumes what is true there.
-/

namespace Csveee

namespace Dfa

section

variable {dfa : Dfa} {config : Config} {data : Bytes} {p i : ℕ}

/-- Where a record of the input can start: a run over the bytes before it is between
records, or the byte is a terminator that ends one. -/
def TrueBoundary (dfa : Dfa) (config : Config) (data : Bytes) (p : ℕ) : Prop :=
  p ≤ data.length ∧ (dfa.stateAfter .recordStart (data.take p) = .recordStart ∨
    Anchor dfa config .recordStart data p)

theorem stateAfter_split {state : State} (hp : p ≤ i) :
    dfa.stateAfter (dfa.stateAfter state (data.take p)) ((data.drop p).take (i - p)) =
      dfa.stateAfter state (data.take i) := by
  rw [stateAfter, stateAfter, stateAfter, ← List.foldl_append, ← List.take_add,
    Nat.add_sub_cancel' hp]

end

section

variable {config : Config} (h : config.Distinct) (endian : Endian) {data : Bytes} {p i : ℕ}

include h

theorem interior_input (hcomment : config.comment = none) (bytes : Bytes) :
    Interior config ((dialect endian config .toggle).stateAfter .recordStart bytes) :=
  interior_toggle h endian hcomment (interior_recordStart config) bytes

/-- Behind an anchor a run is between records. -/
theorem advance_anchor {state : State} {b : Byte} (hstate : Interior config state)
    (hterm : config.isTerminator b = true) (hquotes : state.inQuotes = false) :
    (dialect endian config .toggle).advance state b = .recordStart := by
  rw [advance, dialect_transition h endian .toggle hstate.comment,
    (symbol_tests h b).2.1.mpr hterm]
  rcases @symbolRow_terminator .toggle config.doubledQuotes _ hstate.live hstate.comment hquotes
    with ⟨-, hnext⟩ | hnext
  · rw [hnext]
    rfl
  · rw [hnext]
    rfl

/-- A run from a boundary goes through the states of the run over the whole input. -/
theorem stateAfter_boundary (hcomment : config.comment = none)
    (hboundary : TrueBoundary (dialect endian config .toggle) config data p) (hp : p < i) :
    (dialect endian config .toggle).stateAfter .recordStart ((data.drop p).take (i - p)) =
      (dialect endian config .toggle).stateAfter .recordStart (data.take i) := by
  obtain ⟨-, hidle | hanchor⟩ := hboundary
  · rw [← stateAfter_split hp.le, hidle]
  · obtain ⟨⟨b, hb, hterm⟩, hquotes⟩ := hanchor
    have hcut : (data.drop p).take (i - p) = b :: (data.drop (p + 1)).take (i - (p + 1)) := by
      obtain ⟨hlt, hget⟩ := List.getElem?_eq_some_iff.mp hb
      rw [List.drop_eq_getElem_cons hlt, hget, show i - p = i - (p + 1) + 1 by omega,
        List.take_succ_cons]
    have hone : (data.take (p + 1)) = data.take p ++ [b] := by
      rw [List.take_add_one, hb]
      rfl
    rw [← stateAfter_split (show p + 1 ≤ i from hp), hcut, hone]
    simp only [stateAfter, List.foldl_cons, List.foldl_append, List.foldl_nil]
    have hthere := advance_anchor h endian (interior_input h endian hcomment _) hterm hquotes
    have hhere := advance_anchor h endian (interior_recordStart config) hterm rfl
    rw [stateAfter] at hthere
    rw [hthere, hhere]

theorem anchor_boundary (hcomment : config.comment = none)
    (hboundary : TrueBoundary (dialect endian config .toggle) config data p) (hp : p ≤ i) :
    Anchor (dialect endian config .toggle) config .recordStart (data.drop p) (i - p) ↔
      Anchor (dialect endian config .toggle) config .recordStart data i := by
  rcases Nat.eq_or_lt_of_le hp with rfl | hlt
  · have hquotes : ((dialect endian config .toggle).stateAfter .recordStart
        (data.take p)).inQuotes = false := by
      obtain ⟨-, hidle | hanchor⟩ := hboundary
      · rw [hidle]
        rfl
      · exact hanchor.2
    rw [Anchor, Anchor, List.getElem?_drop, Nat.add_sub_cancel' hp, Nat.sub_self, List.take_zero]
    exact and_congr_right fun _ => ⟨fun _ => hquotes, fun _ => rfl⟩
  · rw [Anchor, Anchor, List.getElem?_drop, Nat.add_sub_cancel' hp,
      stateAfter_boundary h endian hcomment hboundary hlt]

theorem lastEnd_boundary (hcomment : config.comment = none)
    (hboundary : TrueBoundary (dialect endian config .toggle) config data p) (hp : p ≤ i)
    (hend : LastEnd (dialect endian config .toggle) config .recordStart (data.drop p) (i - p)) :
    LastEnd (dialect endian config .toggle) config .recordStart data i := by
  obtain ⟨hstop, hstate, hbehind⟩ := hend
  have hlt : p < i := by
    refine Nat.lt_of_le_of_ne hp ?_
    rintro rfl
    rw [Nat.sub_self] at hstate
    exact hstate rfl
  have hle := hboundary.1
  refine ⟨?_, ?_, fun j b hj hget => hbehind (j - p) b (by omega) ?_⟩
  · rw [List.length_drop] at hstop
    exact hstop.imp (fun hlen => by omega) (anchor_boundary h endian hcomment hboundary hp).mp
  · rwa [← stateAfter_boundary h endian hcomment hboundary hlt]
  · rw [List.getElem?_drop, Nat.add_sub_cancel' (by omega)]
    exact hget

end

end Dfa

namespace Scheduler

open Dfa

section

variable {σ : Type} {platform : Platform} {backend : Backend} {config : Config}
  (h : config.Distinct) (hsupports : backend = .simd → Simd.supports config = .ok ())
  {output : Output} {acc : Accumulator σ}

include h hsupports

/-- Either body parse that succeeds is the reference's. -/
theorem parseFrom_ok {reader : ChunkReader} {base : ℕ} {state left : σ} {next : Option ℕ}
    (hblank : blankRun config reader.pending = 0)
    (hparse : (parserOf platform backend config output acc).parseFrom reader state base =
      (left, .ok next)) :
    refParse (reference platform.endian config) acc (base + reader.chunkRemaining) base
      reader.pending state = (left, .ok next) := by
  cases backend with
  | dfa =>
      have hends := @run_ends _ (reference platform.endian config) acc
        (searchSound_new platform.endian config) output reader base state
      have hparse' : ChunkDriver.run (stepper (reference platform.endian config) acc) output
        (.new reader base) (.new base) state = (left, .ok next) := hparse
      rw [hparse'] at hends
      rw [refParse, RefState.run_eq_after]
      generalize houtcome : (left, Except.ok next) = outcome at hends
      cases hends with
      | @halted v _ _ hafter =>
          rw [show (RefState.new base state).after (reference platform.endian config) acc
              (base + reader.chunkRemaining) base reader.pending = .inr outcome by
            rw [← List.take_append_drop v reader.pending, RefState.after_append, hafter]]
      | finished _ hafter => rw [hafter]
      | failed => cases houtcome
      | refused => cases houtcome
  | simd =>
      have hs := Simd.supported_of_supports h (hsupports rfl)
      have hspec := Simd.runSteppers_spec hs h platform.endian acc output platform.isa reader base
        state hblank
      have hparse' : (Simd.SimdChunkParser.mk config platform.isa).runSteppers output acc reader
        state base = (left, .ok next) := hparse
      rw [hparse'] at hspec
      exact hspec

omit h hsupports in
theorem refParse_ok_from {ref : StepperConfig} {c x : ℕ} {bytes : Bytes} {state left : σ}
    {q : ℕ} (n : ℕ) (hparse : refParse ref acc c x bytes state = (left, .ok (some q))) :
    refParse ref acc (n + c) (n + x) bytes state = (left, .ok (some (n + q))) := by
  have hmove := @RefState.run_move σ ref acc σ acc n none id (fun _ _ => ⟨rfl, rfl⟩) c x bytes
    (RefState.new x state)
  rw [← refParse, hparse] at hmove
  obtain ⟨hstate, hnext⟩ := hmove
  cases hthere : refParse ref acc (n + c) (n + x) bytes state with
  | mk left' outcome =>
      have hmoved : (RefState.run ref acc (n + c) (n + x) bytes
          ((RefState.new x state).move n none id)) = (left', outcome) := hthere
      rw [hmoved] at hstate hnext
      cases outcome with
      | error => cases hnext
      | ok next =>
          have hnext' : next = some (n + q) := Option.some_inj.mp hnext
          rw [show left' = left from hstate, hnext']

theorem parseBody_ok {reader : ChunkReader} {data : Bytes} {start base c e : ℕ}
    {state left : σ} (hc : start + base ≤ c) (hreader : reader.pending = data.drop (start + base))
    (hchunk : reader.chunkRemaining = c - (start + base))
    (hbody : (parserOf platform backend config output acc).parseBody reader state base =
      ⟨some base, some e, .ok left⟩) :
    refParse (reference platform.endian config) acc c (start + base) (data.drop (start + base))
      state = (left, .ok (some (start + e))) := by
  have hdialect : (parserOf platform backend config output acc).config = config := by
    cases backend <;> rfl
  have hskip := skipEmptyLines_spec config reader
  rw [ChunkParser.parseBody, hdialect] at hbody
  cases hresult : skipEmptyLines config reader with
  | error err =>
      rw [hresult] at hbody
      cases hbody
  | ok found =>
      obtain ⟨later, skipped, straddles⟩ := found
      rw [hresult] at hbody hskip
      obtain ⟨hskipped, hstraddles, hlater⟩ := hskip
      have hpending := hlater.pending
      have hremaining := hlater.chunkRemaining
      rw [hreader, hchunk] at hskipped hstraddles
      rw [hreader] at hpending
      rw [hchunk] at hremaining
      cases straddles with
      | true =>
          have hlt := of_decide_eq_true hstraddles.symm
          cases hbody
          rw [refParse_straddle h platform.endian acc c _ _ state hc hlt,
            show start + (base + skipped) = c by omega]
      | false =>
          have hle := of_decide_eq_false hstraddles.symm
          cases hparse : (parserOf platform backend config output acc).parseFrom later state
              (base + skipped) with
          | mk rest outcome =>
              simp only [hparse] at hbody
              cases outcome with
              | error err => cases hbody
              | ok next =>
                  cases hbody
                  have hblank : blankRun config later.pending = 0 := by
                    rw [hpending, blankRun_drop config _ _ (by omega)]
                    omega
                  have href := refParse_ok_from start (parseFrom_ok h hsupports hblank hparse)
                  rw [hpending, show start + (base + skipped + later.chunkRemaining) = c by omega,
                    ← Nat.add_assoc, refParse_skip h platform.endian acc c (start + base) skipped _
                      state (by omega) (by omega)] at href
                  exact href

omit h hsupports in
theorem dialect_of_toggle {endian : Endian} (htoggle : config.quoteHandling = .toggle) :
    dialect endian config .toggle = Dfa.new endian config := by
  rw [dialect, Config.withHandling, ← htoggle]

/-- Both backends find in a chunk what the byte automaton finds. -/
theorem scan_matches {assumption : Assumption}
    (hmem : assumption ∈ assumptionsForConfig config.quote config.escape) (next : ChunkReader) :
    ((parserOf platform backend config output acc).scanRecordStart next assumption false).Matches
      next (Dfa.boundaryOf platform.endian config assumption false
        (next.pending.take next.chunkRemaining)) := by
  cases backend with
  | dfa => exact (Dfa.contract platform.endian config .acceptAll).scan next assumption false
  | simd =>
      have hs := Simd.supported_of_supports h (hsupports rfl)
      have hcontract := Simd.contract hs h platform.endian platform.isa .acceptAll
      rw [← hcontract.lenient assumption hmem]
      exact hcontract.scan next assumption false

/-- The lenient scan of a chunk, in the state that stands for the true one, finds the chunk's
first anchor. -/
theorem scan_toggle (htoggle : config.quoteHandling = .toggle) (hcomment : config.comment = none)
    {data : Bytes} {c stop : ℕ} {next : ChunkReader} (hnext : next.pending = data.drop c)
    (hchunk : next.chunkRemaining = stop - c) (hreliable : next.schedule.Reliable) :
    ∃ found, ((parserOf platform backend config output acc).scanRecordStart next (trueAssumption
        ((Dfa.new platform.endian config).stateAfter .recordStart (data.take c))) false).map
          (·.map Prod.snd) = .ok found ∧
      match found with
      | some i => i < stop - c ∧
          Anchor (Dfa.new platform.endian config) config .recordStart data (c + i) ∧
          ∀ j < i, ¬ Anchor (Dfa.new platform.endian config) config .recordStart data (c + j)
      | none => ∀ j < stop - c,
          ¬ Anchor (Dfa.new platform.endian config) config .recordStart data (c + j) := by
  have hinterior := interior_input h platform.endian hcomment (data.take c)
  have hanchors : ∀ j, Anchor (dialect platform.endian config .toggle) config
      ((dialect platform.endian config .toggle).stateAfter .recordStart (data.take c))
        ((data.drop c).take (stop - c)) j ↔
      j < stop - c ∧ Anchor (dialect platform.endian config .toggle) config .recordStart data
        (c + j) := by
    intro j
    rw [anchor_take, anchor_drop (Nat.le_add_right c j), Nat.add_sub_cancel_left]
  have hscan := scan_anchor h platform.endian hcomment
    (tracks_trueAssumption platform.endian hinterior) ((data.drop c).take (stop - c)) 0
  have hmatches := @scan_matches σ platform backend config h hsupports output acc _
    (trueAssumption_mem hinterior) next
  rw [hnext, hchunk, Dfa.boundaryOf] at hmatches
  simp only [hanchors] at hscan
  rw [← dialect_of_toggle htoggle]
  generalize trueAssumption ((dialect platform.endian config .toggle).stateAfter .recordStart
    (data.take c)) = assumption at hscan hmatches ⊢
  change (∃ i, _ ∧ _ ∧ scanBytes (DfaChunkParser.new platform.endian config).findDfa false _ _ _ =
    _) ∨ _ ∧ ∃ last, scanBytes (DfaChunkParser.new platform.endian config).findDfa false _ _ _ =
    _ at hscan
  cases houtcome : (parserOf platform backend config output acc).scanRecordStart next assumption
      false with
  | error err =>
      rw [houtcome] at hmatches
      rcases hmatches with ⟨off, hrejected, -⟩ | ⟨failure, ⟨call, hfails⟩, -⟩
      · rcases hscan with ⟨i, -, -, hend⟩ | ⟨-, last, hend⟩
        · rw [hend] at hrejected
          cases hrejected
        · rw [hend] at hrejected
          cases hrejected
      · exact absurd hfails (hreliable call failure)
  | ok found =>
      rw [houtcome] at hmatches
      cases found with
      | none =>
          refine ⟨none, rfl, fun j hj hanchor => ?_⟩
          rcases hscan with ⟨i, -, -, hend⟩ | ⟨hnone, -⟩
          · have habsent : BufferScan.boundary _ = .absent := hmatches
            rw [hend] at habsent
            cases habsent
          · exact hnone j ⟨hj, hanchor⟩
      | some found =>
          obtain ⟨later, off⟩ := found
          refine ⟨some off, rfl, ?_⟩
          rcases hscan with ⟨i, ⟨hi, hanchor⟩, hnone, hend⟩ | ⟨-, last, hend⟩
          · have hfound := hmatches.1
            rw [hend, Nat.zero_add] at hfound
            cases hfound
            exact ⟨hi, hanchor, fun j hj hthere => hnone j hj ⟨by omega, hthere⟩⟩
          · have hfound := hmatches.1
            rw [hend] at hfound
            cases hfound

end

section

variable {σ : Type} (platform : Platform) (backend : Backend) (config : ValidConfig)
  (output : Output) (acc : Accumulator σ)

/-- Where a body that succeeds stops: the next chunk's lenient scan, assuming what is true at
the chunk's end, finds the same byte. -/
theorem handoff_agrees (htoggle : config.config.quoteHandling = .toggle)
    (hcomment : config.config.comment = none)
    (hsupports : backend = .simd → Simd.supports config.config = .ok ())
    {data : Bytes} {start base c e : ℕ} {reader : ChunkReader} {init left : σ}
    (hboundary : TrueBoundary (Dfa.new platform.endian config.config) config.config data
      (start + base))
    (hc : start + base ≤ c) (hreader : reader.pending = data.drop (start + base))
    (hchunk : reader.chunkRemaining = c - (start + base))
    (hbody : (parserOf platform backend config.config output acc).parseBody reader init base =
      ⟨some base, some e, .ok left⟩) :
    (c ≤ start + e ∨
        LastEnd (Dfa.new platform.endian config.config) config.config .recordStart data
          (start + e)) ∧
      (c ≤ start + e → start + e < data.length →
        Anchor (Dfa.new platform.endian config.config) config.config .recordStart data
          (start + e)) ∧
      (c ≤ start + e → ∀ (stop : ℕ) (next : ChunkReader), next.pending = data.drop c →
        next.chunkRemaining = stop - c → next.schedule.Reliable →
        ((parserOf platform backend config.config output acc).scanRecordStart next
          (trueAssumption ((Dfa.new platform.endian config.config).stateAfter .recordStart
            (data.take c))) false).map (·.map Prod.snd) =
          .ok (if start + e < min stop data.length then some (start + e - c) else none)) := by
  have href := parseBody_ok config.distinct hsupports hc hreader hchunk hbody
  have hdfa : (reference platform.endian config.config).dfa =
      dialect platform.endian config.config .toggle := (dialect_of_toggle htoggle).symm
  have hrun := run_anchors config.distinct platform.endian hdfa hcomment
    (data.drop (start + base)) (RefState.new (start + base) init)
    (interior_recordStart config.config) (fun _ hlast => by cases hlast) href
  have hat := fun i => @anchor_boundary _ config.distinct platform.endian data (start + base) i
    hcomment (dialect_of_toggle htoggle ▸ hboundary)
  have hend := fun i => @lastEnd_boundary _ config.distinct platform.endian data (start + base) i
    hcomment (dialect_of_toggle htoggle ▸ hboundary)
  have hle := hboundary.1
  rw [hdfa, List.length_drop, Nat.add_sub_cancel' hle] at hrun
  rw [dialect_of_toggle htoggle] at hrun hat hend
  generalize hq : start + e = q at hrun ⊢
  rcases hrun with ⟨hcq, hpq, hqlen, hnone, hstop⟩ | ⟨hcq, ⟨hpq, hlast⟩ | ⟨hnothing, -, -⟩⟩
  · have hanchor : q < data.length → Anchor (Dfa.new platform.endian config.config)
        config.config .recordStart data q := fun hlt => (hat q hpq).mp (hstop hlt)
    refine ⟨Or.inl hcq, fun _ => hanchor, fun _ stop next hnext hremaining hreliable => ?_⟩
    obtain ⟨found, hscan, hfirst⟩ := @scan_toggle _ platform backend _ config.distinct hsupports
      output acc htoggle hcomment data c stop next hnext hremaining hreliable
    rw [hscan]
    cases found with
    | none =>
        have hno : ¬ q < min stop data.length := by
          intro hlt
          refine hfirst (q - c) (by omega) ?_
          rw [Nat.add_sub_cancel' hcq]
          exact hanchor (by omega)
        rw [if_neg hno]
    | some i =>
        obtain ⟨hi, hfound, hbefore⟩ := hfirst
        have hlt := hfound.lt
        -- neither stops short of the other
        have hleft : ¬ c + i < q := by
          intro hshort
          exact hnone (c + i - (start + base)) (by omega) (by omega)
            ((hat _ (by omega)).mpr hfound)
        have hright : ¬ q < c + i := by
          intro hshort
          refine hbefore (q - c) (by omega) ?_
          rw [Nat.add_sub_cancel' hcq]
          exact hanchor (by omega)
        rw [if_pos (by omega), show q - c = i by omega]
  · exact ⟨Or.inr (hend q hpq hlast), fun hle => absurd hcq (Nat.not_lt.mpr hle),
      fun hle => absurd hcq (Nat.not_lt.mpr hle)⟩
  · cases hnothing

end

/-- The chunk ends within quotes: both sides name the terminator behind them. -/
theorem handoff_agrees_quoted :
    ((parserOf scalarPlatform .simd Simd.pairs.config .bytes
        RecordWise.acceptAll.accumulator).scanRecordStart
      (sliceReader [97, 44, 34, 98, 10, 99, 34, 10, 100, 44, 10] .exact 5 11) .inQuotes false).map
        (·.map Prod.snd) = .ok (some 2) :=
  (@handoff_agrees _ scalarPlatform .simd Simd.pairs .bytes RecordWise.acceptAll.accumulator rfl rfl
    (fun _ => rfl) [97, 44, 34, 98, 10, 99, 34, 10, 100, 44, 10] 0 0 5 7
    (sliceReader [97, 44, 34, 98, 10, 99, 34, 10, 100, 44, 10] .exact 0 5) []
    [[[97], [98, 10, 99]]] ⟨by decide, Or.inl rfl⟩ (by decide) rfl rfl
    (by decide +kernel)).2.2 (by decide) 11 _ rfl rfl Schedule.reliable_exact

end Scheduler

end Csveee
