import Csveee.Parser.Dfa.Modes
import Csveee.Scheduler.RunSpec

/-!
# Well-formed input survives chunking

On input the strict dialect accepts, the assumption that is true at a chunk's start
passes the strict probe and finds the pending boundary: no chunk the boundary lies in
is left without a pass.
-/

namespace Csveee.Scheduler.Job

open Dfa

variable {job : Job (List Record)} {endian : Endian} {acc : RecordWise}
  {boundary : Assumption → Bool → Bytes → Boundary} {looksAhead : Bool}

/-- The chunk a terminator outside of quotes lies in has a pass. -/
theorem Sound.hasPass_of_clean (h : job.Sound endian acc boundary looksAhead)
    (hreliable : job.env.Reliable)
    (hclean : (dialect endian job.config .strict).RunsClean .recordStart job.data)
    {idx q : ℕ} (hidx : 0 < idx) (hstart : job.chunkStart idx ≤ q) (hstop : q < job.chunkStop idx)
    (hterm : ∃ b, job.data[q]? = some b ∧ job.config.isTerminator b = true)
    (hquotes : ((dialect endian job.config .strict).stateAfter .recordStart
      (job.data.take q)).inQuotes = false) :
    job.HasPass idx := by
  have hstop_le : job.chunkStop idx ≤ job.data.length := Nat.min_le_right _ _
  obtain ⟨b, hb, hterm⟩ := hterm
  set start := job.chunkStart idx with hstart_eq
  set stop := job.chunkStop idx with hstop_eq
  set state := (dialect endian job.config .strict).stateAfter .recordStart
    (job.data.take start) with hstate_eq
  have hprefix : (dialect endian job.config .strict).RunsClean .recordStart
      (job.data.take start) := by
    intro n
    rw [List.take_take]
    exact hclean _
  have hstate : Interior job.config state :=
    (interior_recordStart job.config).stateAfter h.distinct endian h.comment _ hprefix
  have hchunk : (dialect endian job.config .strict).RunsClean state
      (job.chunkBytes start stop) := by
    intro n
    rw [chunkBytes, List.take_take]
    exact hclean.drop start _
  have hbyte : (job.chunkBytes start stop)[q - start]? = some b := by
    rw [chunkBytes, List.getElem?_take_of_lt (by omega), List.getElem?_drop,
      Nat.add_sub_cancel' hstart, hb]
  have hsplit : job.data.take q =
      job.data.take start ++ (job.chunkBytes start stop).take (q - start) := by
    rw [chunkBytes, List.take_take, min_eq_left (by omega), ← List.take_add,
      Nat.add_sub_cancel' hstart]
  rw [hsplit, stateAfter, List.foldl_append] at hquotes
  have hscan := fun probe => scan_tracks h.distinct endian h.comment probe
    (tracks_trueAssumption endian hstate) hstate _ hchunk 0 (q - start) hbyte hterm hquotes
  have hfound : ∀ probe, ∃ off, boundaryOf endian job.config (trueAssumption state) probe
      (job.chunkBytes start stop) = .found off := by
    intro probe
    obtain ⟨pos, -, hpos⟩ := hscan probe
    exact ⟨pos, congrArg BufferScan.boundary hpos⟩
  have hmode : findMode job.config idx = .strict := by
    rw [findMode, if_neg (by omega)]
  refine Or.inl ⟨trueAssumption state, trueAssumption_mem hstate, ?_⟩
  rw [hmode, h.starts_iff hreliable idx (by omega) hstop_le]
  rcases h.contract.strict (trueAssumption state) (trueAssumption_mem hstate)
    (job.chunkBytes start stop) with
    hsame | ⟨-, off, hrejected⟩
  · obtain ⟨off, hoff⟩ := hfound false
    refine ⟨off, ?_⟩
    rw [boundaryFor, hsame, h.contract.lenient _ (trueAssumption_mem hstate), hoff]
  · obtain ⟨off', hoff'⟩ := hfound true
    rw [hrejected] at hoff'
    cases hoff'

/-- The run of a whole input the strict dialect accepts gets through it. -/
theorem Sound.runWith_wellFormed (h : job.Sound endian acc boundary looksAhead)
    (hreliable : job.env.Reliable) (hheaders : job.config.hasHeaders = false)
    (hdata : 0 < job.data.length)
    (hclean : (dialect endian job.config .strict).RunsClean .recordStart job.data) :
    h.Completes 0 job.runWith := by
  obtain ⟨hpasses, hbase⟩ := h.first_pass hheaders
  have hfollows := h.runWith_follows (chunkCount_pos h.chunkSize hdata)
    (fun _ hlt => absurd hlt (Nat.not_lt_zero _)) hpasses hbase (Nat.zero_le _)
  cases hresult : job.runWith with
  | error err =>
      rw [hresult] at hfollows
      exact h.error_of_failed hreliable hfollows
  | ok states =>
      rw [hresult] at hfollows
      rcases hfollows.whole_or_pending with hwhole | hpending
      · exact hwhole
      · obtain ⟨c, q, -, hc, hcq, hq, hchunk, hbody, hnone⟩ := hpending
        obtain ⟨idx, hidx, hcount, hcidx, hstart, hstop, hend⟩ :=
          h.chunk_of_offset hchunk hcq hq
        obtain ⟨next', hparse, hn⟩ := bodyRecords_ok.mp hbody
        rw [if_pos hc] at hn
        subst hn
        -- the sequential parse hands over outside of quotes, as the strict one sees it
        have hprefix : (dialect endian job.config .strict).RunsClean .recordStart
            (job.data.take q) := by
          intro n
          rw [List.take_take]
          exact hclean _
        have hsame := stateAfter_strict h.distinct endian h.comment job.config.quoteHandling
          (interior_recordStart job.config) _ hprefix
        have hinterior := (interior_recordStart job.config).stateAfter h.distinct endian
          h.comment _ hprefix
        obtain ⟨hterm, hquotes⟩ := bodyRecords_stops h.distinct endian hcq hq (Nat.zero_le c)
          (by
            rw [List.drop_zero, Nat.sub_zero]
            exact hsame ▸ hinterior.comment) hparse
        rw [List.drop_zero, Nat.sub_zero] at hquotes
        refine absurd ?_ (hnone idx hcount hend.le hcidx)
        exact h.hasPass_of_clean hreliable hclean hidx hstart hstop hterm (hsame ▸ hquotes)

end Csveee.Scheduler.Job
