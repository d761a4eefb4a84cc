import Csveee.Parser.Dfa.Emission
import Csveee.Scheduler.RunSpec

/-!
# Messy input

With stray quotes in the input, the strict probe may reject the assumption that is
true of a chunk, while another one scans it without finding a boundary.  Such a chunk
has no pass.  The merge recovers at the next chunk that has one, by parsing from the
pending boundary; what follows the last of those is lost.
-/

namespace Csveee.Scheduler.Job

open Dfa

variable {job : Job (List Record)} {endian : Endian} {acc : RecordWise}
  {boundary : Assumption → Bool → Bytes → Boundary} {looksAhead : Bool}

/-- A scan finds a boundary in the chunk: one under the strict probe, or, where the
probe rejects every assumption, one without. -/
def FindsBoundary (job : Job (List Record))
    (boundary : Assumption → Bool → Bytes → Boundary) (idx : ℕ) : Prop :=
  let bytes := job.chunkBytes (job.chunkStart idx) (job.chunkStop idx)
  (∃ assumption ∈ job.assumptions, ∃ off, boundary assumption true bytes = .found off) ∨
    (∀ assumption ∈ job.assumptions, ∃ off, boundary assumption true bytes = .rejected off) ∧
      ∃ assumption ∈ job.assumptions, ∃ off, boundary assumption false bytes = .found off

/-- The byte at `q` is a terminator outside of quotes. -/
def TerminatorAt (endian : Endian) (config : Config) (data : Bytes) (q : ℕ) : Prop :=
  (∃ b, data[q]? = some b ∧ config.isTerminator b = true) ∧
    ((Dfa.new endian config).stateAfter .recordStart (data.take q)).inQuotes = false

/-- Nothing but terminators follows the first terminator outside of quotes past the end
of some chunk a boundary is found in. -/
def Recovers (job : Job (List Record)) (endian : Endian)
    (boundary : Assumption → Bool → Bytes → Boundary) : Prop :=
  ∃ idx, idx < job.chunkCount ∧ (idx = 0 ∨ job.FindsBoundary boundary idx) ∧
    ∀ q, (idx + 1) * job.chunkSize ≤ q → TerminatorAt endian job.config job.data q →
      ∀ b ∈ job.data.drop q, job.config.isTerminator b = true

/-- On reliable readers, an attempt fails early exactly where the scan rejects. -/
theorem Sound.failsEarly_iff (h : job.Sound endian acc boundary looksAhead)
    (hreliable : job.env.Reliable) (idx : ℕ) {start stop : ℕ} (hstart : start ≤ stop)
    (hstop : stop ≤ job.data.length) (find : FindRecordStart) (assumption : Assumption) :
    job.FailsEarly idx start stop find assumption ↔
      ∃ off, boundaryFor endian job.config boundary assumption find
        (job.chunkBytes start stop) = .rejected off := by
  have hreports := h.attempt_spec idx hstart hstop find assumption
  rw [FailsEarly]
  generalize job.attempt idx start stop find assumption = pr at hreports
  obtain ⟨recordStart, recordEnd, result⟩ := pr
  cases recordStart with
  | some off =>
      have hfound : boundaryFor endian job.config boundary assumption find
          (job.chunkBytes start stop) = .found off := by
        cases result with
        | ok records => exact hreports.1
        | error err => exact hreports.1
      constructor
      · rintro ⟨err, hfalse, -⟩
        cases hfalse
      · rintro ⟨off', hrejected⟩
        rw [hfound] at hrejected
        cases hrejected
  | none =>
      cases result with
      | ok records =>
          constructor
          · rintro ⟨err, -, hfalse⟩
            cases hfalse
          · rintro ⟨off', hrejected⟩
            rw [hreports.1] at hrejected
            cases hrejected
      | error err =>
          refine ⟨fun _ => ?_, fun _ => ⟨err, rfl, rfl⟩⟩
          rcases hreports with hrejected | ⟨failure, hfails⟩
          · exact hrejected
          · exact absurd hfails ((hreliable _).not_failsWith failure)

/-- On reliable readers, a later chunk has a pass exactly when a boundary is found. -/
theorem Sound.hasPass_iff (h : job.Sound endian acc boundary looksAhead)
    (hreliable : job.env.Reliable) {idx : ℕ} (hpos : 0 < idx) (hidx : idx < job.chunkCount) :
    job.HasPass idx ↔ job.FindsBoundary boundary idx := by
  have hmode : findMode job.config idx = .strict := by
    rw [findMode, if_neg (by omega)]
  have hstart := chunkStart_le (lt_chunkCount hidx).le
  have hstop : job.chunkStop idx ≤ job.data.length := Nat.min_le_right _ _
  simp only [HasPass, FindsBoundary, hmode, true_and,
    h.starts_iff hreliable idx hstart hstop, h.failsEarly_iff hreliable idx hstart hstop]
  rfl

/-- The sequential parse hands over at a terminator outside of quotes. -/
theorem Sound.terminatorAt_of_body (h : job.Sound endian acc boundary looksAhead) {c q : ℕ}
    {records : List Record} (hc : c < job.data.length) (hcq : c ≤ q) (hq : q < job.data.length)
    (hbody : h.seq.body 0 c = .ok (records, some q)) :
    TerminatorAt endian job.config job.data q := by
  obtain ⟨next, hparse, hn⟩ := bodyRecords_ok.mp hbody
  rw [if_pos hc] at hn
  subst hn
  have hstops := bodyRecords_stops h.distinct endian hcq hq (Nat.zero_le c)
    (stateAfter_ne_inComment h.distinct endian h.comment job.config.quoteHandling (by simp) _)
    hparse
  rw [List.drop_zero, Nat.sub_zero] at hstops
  exact hstops

/-- It hands over at the first one at or past the chunk's end. -/
theorem Sound.le_of_terminatorAt (h : job.Sound endian acc boundary looksAhead) {c q p : ℕ}
    {records : List Record} (hc : c < job.data.length)
    (hbody : h.seq.body 0 c = .ok (records, some q)) (hcp : c ≤ p)
    (hterm : TerminatorAt endian job.config job.data p) : q ≤ p := by
  obtain ⟨next, hparse, hn⟩ := bodyRecords_ok.mp hbody
  rw [if_pos hc] at hn
  subst hn
  obtain ⟨⟨b, hb, hterm⟩, hquotes⟩ := hterm
  refine RefState.run_first h.distinct h.comment endian (job.data.drop 0) (RefState.new 0 [])
    (interior_recordStart _) hparse (Nat.zero_le p) hcp (b := b) ?_ hterm ?_
  · rw [List.drop_zero, Nat.sub_zero, hb]
  · rw [List.drop_zero, Nat.sub_zero]
    exact hquotes

/-- A run gets through input the stream accepts exactly when it recovers. -/
theorem Sound.runWith_whole_iff (h : job.Sound endian acc boundary looksAhead)
    (hreliable : job.env.Reliable) (hheaders : job.config.hasHeaders = false)
    (hdata : 0 < job.data.length) {records : List Record} {next : Option ℕ}
    (hstream : h.seq.body 0 job.data.length = .ok (records, next)) :
    (∃ states, job.runWith = .ok states ∧ states.flatten = records) ↔
      job.Recovers endian boundary := by
  obtain ⟨hpasses, hbase⟩ := h.first_pass hheaders
  have hfollows := h.runWith_follows (chunkCount_pos h.chunkSize hdata)
    (fun _ hlt => absurd hlt (Nat.not_lt_zero _)) hpasses hbase (Nat.zero_le _)
  have hfirst := (job.processChunk_spec 0).2.mp hpasses
  cases hresult : job.runWith with
  | error err =>
      rw [hresult] at hfollows
      have herr := h.error_of_failed hreliable hfollows
      rw [hstream] at herr
      cases herr
  | ok states =>
      rw [hresult] at hfollows
      constructor
      · rintro ⟨states', heq, hflatten⟩
        cases heq
        obtain ⟨c, next', hreached, -⟩ := hfollows
        obtain ⟨idx, hidx, hcount, hpass⟩ := hreached.chunk
        rw [h.spec_stop, chunkStop_eq] at hidx
        refine ⟨idx, hcount, ?_, fun q' hq' hterm b hb => ?_⟩
        · rcases Nat.eq_zero_or_pos idx with hzero | hpos
          · exact Or.inl hzero
          · exact Or.inr ((h.hasPass_iff hreliable hpos hcount).mp hpass)
        · -- a record past the pending boundary would be missing from the states
          obtain ⟨⟨b', hb', -⟩, -⟩ := id hterm
          have hlt : q' < job.data.length := (List.getElem?_eq_some_iff.mp hb').1
          have hc : c < job.data.length := by omega
          obtain ⟨q, -, hbody, hcq, hqlen⟩ := hreached.pending hc
          have hqq' := h.le_of_terminatorAt hc hbody (by omega) hterm
          have hrest := h.seq.handover (Nat.zero_le c) hc.le (Nat.le_refl _) hbody hqlen
          rw [hstream] at hrest
          by_contra hbyte
          cases hparse : h.seq.body q job.data.length with
          | error err =>
              rw [hparse] at hrest
              cases hrest
          | ok outcome =>
              rw [hparse] at hrest
              obtain ⟨rest, next''⟩ := outcome
              obtain ⟨n, hparse', -⟩ := bodyRecords_ok.mp hparse
              have hlength := List.length_drop (i := q) (l := job.data)
              have hrun := blankRun_le job.config (job.data.drop q)
              have hne := refParse_nonempty h.distinct h.comment endian
                (show q + blankRun job.config (job.data.drop q) ≤ job.data.length by omega)
                ⟨b, List.mem_of_mem_drop (i := q' - q) (by
                  rw [List.drop_drop, Nat.add_sub_cancel' hqq']
                  exact hb), by simpa using hbyte⟩ hparse'
              have hrecords := congrArg Prod.fst (Except.ok.inj hrest)
              simp only [hflatten] at hrecords
              exact hne (List.self_eq_append_right.mp hrecords)
      · rintro ⟨idx, hidx, hfinds, hblank⟩
        refine ⟨states, rfl, ?_⟩
        have hpass : job.HasPass idx := by
          rcases hfinds with rfl | hfinds
          · exact hfirst
          · rcases Nat.eq_zero_or_pos idx with rfl | hpos
            · exact hfirst
            · exact (h.hasPass_iff hreliable hpos hidx).mpr hfinds
        rcases hfollows.whole_or_pending with ⟨next', hwhole⟩ | hpending
        · rw [hstream] at hwhole
          cases hwhole
          rfl
        · obtain ⟨c, q, -, hc, hcq, hq, ⟨i, rfl, -, -⟩, hbody, hnone⟩ := hpending
          have hpast : (idx + 1) * job.chunkSize ≤ q := by
            by_cases hle : (i + 1) * job.chunkSize ≤ idx * job.chunkSize
            · by_contra hlt
              exact hnone idx hidx (by omega) hle hpass
            · have hmul : (idx + 1) * job.chunkSize ≤ (i + 1) * job.chunkSize := by
                apply Nat.mul_le_mul_right
                by_contra hlt
                exact hle (Nat.mul_le_mul_right _ (by omega))
              exact le_trans hmul hcq
          have hrest : h.seq.body q job.data.length = .ok ([], none) :=
            bodyRecords_blank h.distinct endian hq.le
              (hblank q hpast (h.terminatorAt_of_body hc hcq hq hbody))
          have hwhole := h.seq.handover (Nat.zero_le _) hc.le (Nat.le_refl _) hbody hq.le
          rw [hrest, hstream] at hwhole
          have hrecords := congrArg Prod.fst (Except.ok.inj hwhole)
          simp only [List.append_nil] at hrecords
          exact hrecords.symm

end Csveee.Scheduler.Job
