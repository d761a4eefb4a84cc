import Csveee.Scheduler.Speculation

/-!
# Runs follow the sequential parse

The merge of a parallel run never leaves the sequential parse of the input, and the
stream is that parse.
-/

namespace Csveee.Scheduler.Job

variable {job : Job (List Record)} {endian : Endian} {acc : RecordWise}
  {boundary : Assumption → Bool → Bytes → Boundary} {looksAhead : Bool}

theorem le_chunkCount (hpos : 0 < job.chunkSize) :
    job.data.length ≤ job.chunkCount * job.chunkSize := by
  have hlt := Nat.lt_mul_div_succ (job.data.length + job.chunkSize - 1) hpos
  rw [Nat.mul_succ, Nat.mul_comm] at hlt
  rw [chunkCount, divCeil]
  omega

theorem chunkCount_pos (hpos : 0 < job.chunkSize) (hdata : 0 < job.data.length) :
    0 < job.chunkCount := by
  by_contra hzero
  have hle := le_chunkCount hpos
  rw [show job.chunkCount = 0 by omega, Nat.zero_mul] at hle
  omega

/-- What a run has come to where it stops: the records of the sequential parse from
`base` up to a chunk end `c`, with no pass left past it before the boundary. -/
def Sound.Follows (h : job.Sound endian acc boundary looksAhead) (base : ℕ) :
    Except Error (List (List Record)) → Prop
  | .ok states => ∃ c next, h.spec.Reached base c states.flatten next ∧
      ∀ idx, idx < job.chunkCount → c ≤ idx * job.chunkSize →
        ¬ job.HasPass idx ∨ ∃ q, next = some q ∧ (idx + 1) * job.chunkSize < q
  | .error err => h.spec.Failed base err

/-- On reliable readers, a run fails only if the sequential parse does. -/
theorem Sound.error_of_failed (h : job.Sound endian acc boundary looksAhead)
    (hreliable : job.env.Reliable) {base : ℕ} {err : Error} (hfailed : h.spec.Failed base err) :
    h.seq.body base job.data.length = .error () := by
  have hfailsBy : ∀ {p k}, p ≤ h.spec.stop k → h.spec.Fails k p err →
      h.seq.body p job.data.length = .error () := by
    intro p k hp hfails
    rcases hfails with hfallible | ⟨c, hstop, hc, -, hbody⟩
    · exact absurd hfallible (not_fallible hreliable)
    · rw [h.spec_stop] at hp
      exact h.seq.error (le_trans hp hstop) hc (Nat.le_refl _) hbody
  cases hfailed with
  | first k hbase _ hfails => exact hfailsBy hbase hfails
  | later k c q records hbase hc hbody hq _ hfails =>
      exact h.seq.error_of_handover hbase (le_trans hc (Speculation.stop_le_len k)) hbody
        (hfailsBy hq hfails)

/-- A run follows the sequential parse from where the first chunk with a pass starts. -/
theorem Sound.runWith_follows (h : job.Sound endian acc boundary looksAhead) {base first : ℕ}
    (hfirst : first < job.chunkCount)
    (hskipped : ∀ idx, idx < first → (job.processChunk idx).passes = [])
    (hpasses : (job.processChunk first).passes ≠ [])
    (hbase : ∀ pass ∈ (job.processChunk first).passes, pass.recordStart = base)
    (hbase_le : base ≤ job.chunkStop first) :
    h.Follows base job.runWith := by
  obtain ⟨n, hn⟩ := Nat.exists_eq_add_of_lt hfirst
  have houtputs : job.outputs = (List.range first).map job.processChunk ++
      job.processChunk first :: (List.range n).map fun j => job.processChunk (first + 1 + j) := by
    rw [outputs, show divCeil job.data.length job.chunkSize = first + (n + 1) from hn,
      List.range_add, List.map_append, List.range_succ_eq_map, List.map_cons, List.map_cons,
      List.map_map, List.map_map]
    congr 2
    apply List.map_congr_left
    intro j _
    simp only [Function.comp_apply, Nat.succ_eq_add_one]
    rw [show first + (j + 1) = first + 1 + j by omega]
  have hrest : ∀ j output, ((List.range n).map fun j => job.processChunk (first + 1 + j))[j]? =
      some output → j < n ∧ output = job.processChunk (first + 1 + j) := by
    intro j output hget
    rw [List.getElem?_map, Option.map_eq_some_iff] at hget
    obtain ⟨i, hi, rfl⟩ := hget
    obtain ⟨hlt, rfl⟩ := List.getElem?_eq_some_iff.mp hi
    rw [List.length_range] at hlt
    rw [List.getElem_range]
    exact ⟨hlt, rfl⟩
  have hlength : ((List.range first).map job.processChunk).length = first := by
    rw [List.length_map, List.length_range]
  have hmerge := Speculation.collectAndMerge_spec h.reparses
    (by
      intro output hmem
      obtain ⟨idx, hidx, rfl⟩ := List.mem_map.mp hmem
      exact hskipped idx (List.mem_range.mp hidx))
    (by
      rw [hlength]
      exact h.truthful hfirst)
    hpasses hbase
    (by
      rw [hlength, h.spec_stop]
      exact hbase_le)
    (by
      intro j output hget
      obtain ⟨hj, rfl⟩ := hrest j output hget
      rw [hlength]
      exact h.speculative (by omega) (by omega))
  rw [hlength, show h.spec.chunkSize = job.chunkSize from rfl] at hmerge
  rw [runWith, houtputs]
  cases hresult : collectAndMerge job.chunkSize ((List.range first).map job.processChunk ++
      job.processChunk first :: (List.range n).map fun j => job.processChunk (first + 1 + j))
      job.reparseChunk with
  | error err => rwa [hresult] at hmerge
  | ok states =>
      rw [hresult] at hmerge
      obtain ⟨c, next, hreached, hpast, hlater⟩ := hmerge
      refine ⟨c, next, hreached, fun idx hidx hle => ?_⟩
      by_cases hfirst_lt : first < idx
      · obtain ⟨j, rfl⟩ : ∃ j, idx = first + 1 + j := ⟨idx - (first + 1), by omega⟩
        have hget : ((List.range n).map fun j => job.processChunk (first + 1 + j))[j]? =
            some (job.processChunk (first + 1 + j)) := by
          rw [List.getElem?_map, List.getElem?_range (by omega)]
          rfl
        rcases hlater j _ hget hle with hempty | hbeyond
        · refine Or.inl fun hpass => ?_
          exact ((job.processChunk_spec (first + 1 + j)).2.mpr hpass) hempty
        · exact Or.inr hbeyond
      · -- the chunks up to the first one lie before where the merge has come
        have hmul : idx * job.chunkSize ≤ first * job.chunkSize :=
          Nat.mul_le_mul_right _ (by omega)
        have hlt := lt_chunkCount hfirst
        rw [h.spec_stop, chunkStop_eq, Nat.succ_mul] at hpast
        have hpos := h.chunkSize
        omega

/-- Where a merge ends short of the sequential parse, the pending boundary lies before
the input's end, and no chunk from its own on has a pass. -/
theorem Sound.Follows.whole_or_pending (h : job.Sound endian acc boundary looksAhead) {base : ℕ}
    {states : List (List Record)} (hfollows : h.Follows base (.ok states)) :
    (∃ next, h.seq.body base job.data.length = .ok (states.flatten, next)) ∨
      ∃ c q, base ≤ c ∧ c < job.data.length ∧ c ≤ q ∧ q < job.data.length ∧
        (∃ i, c = (i + 1) * job.chunkSize ∧ i < job.chunkCount ∧ job.HasPass i) ∧
        h.seq.body base c = .ok (states.flatten, some q) ∧
        ∀ idx, idx < job.chunkCount → q ≤ (idx + 1) * job.chunkSize → c ≤ idx * job.chunkSize →
          ¬ job.HasPass idx := by
  obtain ⟨c, next, hreached, hlater⟩ := hfollows
  by_cases hc : c < job.data.length
  · obtain ⟨q, hnext, hbody, hcq, hqlen⟩ := hreached.pending hc
    by_cases hq : q < job.data.length
    · refine Or.inr ⟨c, q, hreached.base_le, hc, hcq, hq, ?_, hbody, ?_⟩
      · obtain ⟨i, hi, hpass⟩ := hreached.chunk
        rw [h.spec_stop, chunkStop_eq] at hi
        exact ⟨i, by omega, hpass.1, hpass.2⟩
      · intro idx hidx hqidx hle
        rcases hlater idx hidx hle with hpass | ⟨q', hq', hlt⟩
        · exact hpass
        · rw [hnext] at hq'
          cases hq'
          omega
    · -- from the input's end there is nothing left
      have hend : q = job.data.length := le_antisymm hqlen (by omega)
      have hrest : h.seq.body q job.data.length = .ok ([], none) := by
        have hboundary := @Dfa.bodyRecords_boundary (Dfa.reference endian job.config) acc
          job.data q (fun hlt => absurd hlt hq)
        rw [if_neg hq] at hboundary
        rw [← hend]
        exact hboundary
      refine Or.inl ⟨none, ?_⟩
      rw [h.seq.handover hreached.base_le hc.le (Nat.le_refl _) hbody hqlen, hrest]
      simp only [Except.map, List.append_nil]
  · have hlen : c = job.data.length := le_antisymm hreached.le_len (by omega)
    obtain ⟨next', hbody, -⟩ := hreached.body
    rw [hlen] at hbody
    exact Or.inl ⟨next', hbody⟩

/-- The chunk an offset past an earlier chunk's end lies in. -/
theorem Sound.chunk_of_offset (h : job.Sound endian acc boundary looksAhead) {c q : ℕ}
    (hc : ∃ i, c = (i + 1) * job.chunkSize ∧ i < job.chunkCount ∧ job.HasPass i)
    (hcq : c ≤ q) (hq : q < job.data.length) :
    ∃ idx, 0 < idx ∧ idx < job.chunkCount ∧ c ≤ idx * job.chunkSize ∧
      job.chunkStart idx ≤ q ∧ q < job.chunkStop idx ∧ q < (idx + 1) * job.chunkSize := by
  obtain ⟨i, rfl, -⟩ := hc
  have hpos := h.chunkSize
  have hlt : q < (q / job.chunkSize + 1) * job.chunkSize := by
    rw [Nat.mul_comm]
    exact Nat.lt_mul_div_succ q hpos
  have hdiv := Nat.div_mul_le_self q job.chunkSize
  have hi : i + 1 ≤ q / job.chunkSize := (Nat.le_div_iff_mul_le hpos).mpr hcq
  refine ⟨q / job.chunkSize, by omega, ?_, Nat.mul_le_mul_right _ hi, hdiv, ?_, hlt⟩
  · exact (Nat.div_lt_iff_lt_mul hpos).mpr (Nat.lt_of_lt_of_le hq (le_chunkCount hpos))
  · rw [chunkStop_eq]
    omega

/-- Without headers, the first chunk's pass starts at the input's start. -/
theorem Sound.first_pass (h : job.Sound endian acc boundary looksAhead)
    (hheaders : job.config.hasHeaders = false) :
    (job.processChunk 0).passes ≠ [] ∧
      ∀ pass ∈ (job.processChunk 0).passes, pass.recordStart = 0 := by
  have hmode : findMode job.config 0 = .no := by
    rw [findMode, if_pos rfl, hheaders]
    rfl
  have hstart : job.chunkStart 0 = 0 := Nat.zero_mul _
  constructor
  · refine (job.processChunk_spec 0).2.mpr (Or.inl ⟨.outOfQuotes,
      outOfQuotes_mem_assumptions _ _, ?_⟩)
    rw [Starts, hmode, attempt, ChunkParser.parse, ChunkParser.scan]
    simp only [ChunkParser.parseBody_recordStart, Option.isSome_some]
  · intro pass hmem
    obtain ⟨find, assumption, -, hfind, hof⟩ := (job.processChunk_spec 0).1 pass hmem
    have hno : find = .no := by
      rw [hmode] at hfind
      rcases hfind with hfind | ⟨hfalse, -⟩
      · exact hfind
      · cases hfalse
    rw [hno] at hof
    have hfound := (h.passOf_spec (chunkStart_le (by omega)) (Nat.min_le_right _ _) hof).2.1
    have hinside := (h.passOf_spec (chunkStart_le (by omega)) (Nat.min_le_right _ _) hof).1
    simp only [boundaryFor, Boundary.found.injEq] at hfound
    rw [hstart] at hfound hinside
    omega

/-- On reliable readers, an attempt starts exactly where the scan finds a boundary. -/
theorem Sound.starts_iff (h : job.Sound endian acc boundary looksAhead)
    (hreliable : job.env.Reliable) (idx : ℕ) {start stop : ℕ} (hstart : start ≤ stop)
    (hstop : stop ≤ job.data.length) (find : FindRecordStart) (assumption : Assumption) :
    job.Starts idx start stop find assumption ↔
      ∃ off, boundaryFor endian job.config boundary assumption find
        (job.chunkBytes start stop) = .found off := by
  have hreports := h.attempt_spec idx hstart hstop find assumption
  rw [Starts]
  generalize job.attempt idx start stop find assumption = pr at hreports
  obtain ⟨recordStart, recordEnd, result⟩ := pr
  cases recordStart with
  | some off =>
      refine ⟨fun _ => ⟨off, ?_⟩, fun _ => rfl⟩
      cases result with
      | ok records => exact hreports.1
      | error err => exact hreports.1
  | none =>
      constructor
      · intro hfalse
        cases hfalse
      · rintro ⟨off, hfound⟩
        cases result with
        | ok records =>
            rw [hfound] at hreports
            cases hreports.1
        | error err =>
            rcases hreports with ⟨_, hrejected⟩ | ⟨failure, hfails⟩
            · rw [hfound] at hrejected
              cases hrejected
            · exact absurd hfails ((hreliable _).not_failsWith failure)

def stream (job : Job (List Record)) (find : FindRecordStart) : PassResult (List Record) :=
  job.parser.parse (streamReader job.data (job.env .stream)) job.init .outOfQuotes find

theorem Sound.stream_spec (h : job.Sound endian acc boundary looksAhead)
    (hfits : job.data.length ≤ usizeMax) (find : FindRecordStart) :
    h.Reports (job.env .stream)
      (boundaryFor endian job.config boundary .outOfQuotes find job.data) 0 job.data.length
      (job.stream find) := by
  have hbytes : job.chunkBytes 0 job.data.length = job.data := by
    rw [chunkBytes, List.drop_zero, Nat.sub_zero, List.take_length]
  have horigin : job.Windows (streamReader job.data (job.env .stream)) 0 job.data.length :=
    ⟨rfl, Or.inr ⟨rfl, hfits⟩⟩
  have hparse := h.parse_spec (Nat.zero_le _) (Nat.le_refl _) horigin find .outOfQuotes
  rw [hbytes] at hparse
  rw [stream, h.init]
  exact hparse

/-- Both runs succeed, with the same records in the same order, or both fail. -/
def SameRecords : Except Error (List (List Record)) → Except Error (List (List Record)) → Prop
  | .ok states, .ok states' => states.flatten = states'.flatten
  | .error _, .error _ => True
  | _, _ => False

/-- The result tells what the sequential parse from `base` comes to as a whole. -/
def Sound.Completes (h : job.Sound endian acc boundary looksAhead) (base : ℕ) :
    Except Error (List (List Record)) → Prop
  | .ok states => ∃ next, h.seq.body base job.data.length = .ok (states.flatten, next)
  | .error _ => h.seq.body base job.data.length = .error ()

/-- A parallel run that gets through the sequential parse from the boundary the stream
starts from agrees with the stream. -/
theorem Sound.sameRecords (h : job.Sound endian acc boundary looksAhead)
    (hreliable : job.env.Reliable) (hfits : job.data.length ≤ usizeMax)
    {find : FindRecordStart} {base : ℕ}
    (hbase : boundaryFor endian job.config boundary .outOfQuotes find job.data = .found base)
    {result : Except Error (List (List Record))}
    (hresult : h.Completes base result) :
    SameRecords result ((job.stream find).result.map fun state => [state]) := by
  have hstream := h.stream_spec hfits find
  rw [hbase] at hstream
  generalize job.stream find = pr at hstream
  obtain ⟨recordStart, recordEnd, outcome⟩ := pr
  cases outcome with
  | error err =>
      have hfails : h.seq.body base job.data.length = .error () := by
        cases recordStart with
        | none =>
            rcases hstream with ⟨_, hfalse⟩ | ⟨failure, hfails⟩
            · cases hfalse
            · exact absurd hfails ((hreliable _).not_failsWith failure)
        | some off =>
            obtain ⟨hoff, ⟨failure, hfails⟩ | hfails⟩ := hstream
            · exact absurd hfails ((hreliable _).not_failsWith failure)
            · cases hoff
              rw [Nat.zero_add] at hfails
              obtain ⟨c, hstop, hc, -, hbody⟩ := hfails
              rwa [le_antisymm hc hstop] at hbody
      cases result with
      | error err' => trivial
      | ok states =>
          obtain ⟨next, hbody⟩ := hresult
          rw [hfails] at hbody
          cases hbody
  | ok records =>
      cases recordStart with
      | none => cases hstream.1
      | some off =>
          obtain ⟨hoff, next, hbody, -⟩ := hstream
          cases hoff
          rw [Nat.zero_add] at hbody
          cases result with
          | error err =>
              have hfails : h.seq.body base job.data.length = .error () := hresult
              rw [hfails] at hbody
              cases hbody
          | ok states =>
              obtain ⟨next', hbody'⟩ := hresult
              rw [hbody'] at hbody
              cases hbody
              exact (List.flatten_singleton).symm

end Csveee.Scheduler.Job
