import Csveee.Parser.Dfa.Emission
import Csveee.Parser.Dfa.Unquoted
import Csveee.Scheduler.RunSpec

/-!
# The header row

Only the first chunk looks for the end of the header row.  Without quotes, the first
terminator past the leading blank lines is that end for every chunk that holds it; a
chunk that starts among the leading blank lines takes the first of those for it.
-/

namespace Csveee.Scheduler.Job

open Dfa

/-- Where a chunk's first record is taken to start after in a dialect without quotes. -/
def startIn (config : Config) (find : FindRecordStart) (bytes : Bytes) : Option ℕ :=
  match find with
  | .no => some 0
  | .skipHeaders => headerEnd config bytes
  | .strict | .lenient => bytes.findIdx? config.isTerminator

/-- Where the first pass the merge selects starts: with no boundary expected yet, it is
the first pass of the first chunk that has one. -/
def firstSelected {σ : Type} (job : Job σ) : Option ℕ :=
  job.outputs.findSome? fun output => output.passes.head?.map ResolvedPass.recordStart

theorem firstSelected_eq {job : Job (List Record)} {first base : ℕ}
    (hfirst : first < job.chunkCount)
    (hskipped : ∀ idx, idx < first → (job.processChunk idx).passes = [])
    (hpasses : (job.processChunk first).passes ≠ [])
    (hbase : ∀ pass ∈ (job.processChunk first).passes, pass.recordStart = base) :
    job.firstSelected = some base := by
  obtain ⟨n, hn⟩ := Nat.exists_eq_add_of_lt hfirst
  have hleading : ((List.range first).map job.processChunk).findSome?
      (fun output => output.passes.head?.map ResolvedPass.recordStart) = none := by
    rw [List.findSome?_eq_none_iff]
    intro output hmem
    obtain ⟨idx, hidx, rfl⟩ := List.mem_map.mp hmem
    rw [hskipped idx (List.mem_range.mp hidx)]
    rfl
  rw [firstSelected, outputs, show divCeil job.data.length job.chunkSize = first + (n + 1) from hn,
    List.range_add, List.map_append, List.findSome?_append, hleading, Option.none_or,
    List.range_succ_eq_map, List.map_cons, List.map_cons, List.findSome?_cons, Nat.add_zero]
  cases hchunk : (job.processChunk first).passes with
  | nil => exact absurd hchunk hpasses
  | cons pass rest =>
      simp only [List.head?_cons, Option.map_some]
      rw [hbase pass (by rw [hchunk]; exact List.mem_cons_self)]

theorem firstSelected_none {job : Job (List Record)}
    (hnone : ∀ idx, idx < job.chunkCount → (job.processChunk idx).passes = []) :
    job.firstSelected = none := by
  rw [firstSelected, List.findSome?_eq_none_iff]
  intro output hmem
  obtain ⟨idx, hidx, rfl⟩ := List.mem_map.mp hmem
  rw [hnone idx (List.mem_range.mp hidx)]
  rfl

theorem runWith_none {job : Job (List Record)}
    (hnone : ∀ idx, idx < job.chunkCount → (job.processChunk idx).passes = []) :
    job.runWith = .ok [] := by
  have hleading := @Speculation.mergeLoop_leading _ job.chunkSize job.reparseChunk job.outputs [] 0
    (by
      intro output hmem
      obtain ⟨idx, hidx, rfl⟩ := List.mem_map.mp hmem
      exact hnone idx (List.mem_range.mp hidx))
  rw [List.append_nil, Nat.zero_mul] at hleading
  rw [runWith, collectAndMerge, hleading]
  rfl

variable {job : Job (List Record)} {endian : Endian} {acc : RecordWise}
  {boundary : Assumption → Bool → Bytes → Boundary} {looksAhead : Bool}

/-- Without quotes, every scan of a chunk finds the same first terminator. -/
theorem Sound.boundaryFor_unquoted (h : job.Sound endian acc boundary looksAhead)
    (hquote : job.config.quote = none) (find : FindRecordStart) (bytes : Bytes) :
    boundaryFor endian job.config boundary .outOfQuotes find bytes =
      boundaryAt 0 (startIn job.config find bytes) := by
  have hscan := fun probe => scan_unquoted h.distinct hquote endian .toggle probe
    (Or.inl rfl : State.fieldStart = .fieldStart ∨ _) 0 bytes
  cases find with
  | no => rfl
  | skipHeaders =>
      exact scan_header h.distinct hquote endian h.comment job.config.quoteHandling false 0 bytes
  | lenient =>
      rw [boundaryFor, h.contract.lenient _ (outOfQuotes_mem_assumptions _ _)]
      exact hscan false
  | strict =>
      rcases h.contract.strict .outOfQuotes (outOfQuotes_mem_assumptions _ _) bytes with
        hsame | ⟨-, off, hrejected⟩
      · rw [boundaryFor, hsame, h.contract.lenient _ (outOfQuotes_mem_assumptions _ _)]
        exact hscan false
      · have hfound := (hscan true).symm.trans hrejected
        rw [startIn] at *
        cases hfind : bytes.findIdx? job.config.isTerminator with
        | none => rw [hfind] at hfound; cases hfound
        | some off' => rw [hfind] at hfound; cases hfound

theorem Sound.assumptions_unquoted (_ : job.Sound endian acc boundary looksAhead)
    (hquote : job.config.quote = none) : job.assumptions = [.outOfQuotes] := by
  rw [assumptions, hquote, assumptionsForConfig]

/-- A chunk's passes start where its scan finds the first terminator. -/
theorem Sound.passes_unquoted (h : job.Sound endian acc boundary looksAhead)
    (hreliable : job.env.Reliable) (hquote : job.config.quote = none) {idx : ℕ}
    (hidx : idx < job.chunkCount) :
    ((job.processChunk idx).passes ≠ [] ↔ ∃ off, startIn job.config (findMode job.config idx)
      (job.chunkBytes (job.chunkStart idx) (job.chunkStop idx)) = some off) ∧
      ∀ pass ∈ (job.processChunk idx).passes, ∃ off,
        startIn job.config (findMode job.config idx)
          (job.chunkBytes (job.chunkStart idx) (job.chunkStop idx)) = some off ∧
            pass.recordStart = job.chunkStart idx + off := by
  have hstart := chunkStart_le (lt_chunkCount hidx).le
  have hstop : job.chunkStop idx ≤ job.data.length := Nat.min_le_right _ _
  have hassumptions := h.assumptions_unquoted hquote
  have hstarts : ∀ find, job.Starts idx (job.chunkStart idx) (job.chunkStop idx) find
      .outOfQuotes ↔ ∃ off, startIn job.config find
        (job.chunkBytes (job.chunkStart idx) (job.chunkStop idx)) = some off := by
    intro find
    rw [h.starts_iff hreliable idx hstart hstop, h.boundaryFor_unquoted hquote]
    cases startIn job.config find (job.chunkBytes (job.chunkStart idx) (job.chunkStop idx)) with
    | none => simp [boundaryAt]
    | some off => simp [boundaryAt]
  obtain ⟨hfrom, hpasses⟩ := job.processChunk_spec idx
  rw [hassumptions] at hfrom
  constructor
  · rw [hpasses, HasPass, hassumptions]
    simp only [List.mem_singleton, exists_eq_left]
    rw [hstarts]
    constructor
    · rintro (hfound | ⟨hstrict, -, hlenient⟩)
      · exact hfound
      · rw [hstarts] at hlenient
        rw [hstrict]
        exact hlenient
    · exact Or.inl
  · intro pass hmem
    obtain ⟨find, assumption, hassumption, hfind, hof⟩ := hfrom pass hmem
    rw [List.mem_singleton.mp hassumption] at hof
    obtain ⟨hinside, hfound, -⟩ := h.passOf_spec hstart hstop hof
    have hsame : startIn job.config find = startIn job.config (findMode job.config idx) := by
      rcases hfind with rfl | ⟨hstrict, rfl⟩
      · rfl
      · rw [hstrict]
        rfl
    rw [h.boundaryFor_unquoted hquote, hsame] at hfound
    cases hoff : startIn job.config (findMode job.config idx)
        (job.chunkBytes (job.chunkStart idx) (job.chunkStop idx)) with
    | none =>
        rw [hoff] at hfound
        cases hfound
    | some off =>
        rw [hoff, boundaryAt, Nat.zero_add, Boundary.found.injEq] at hfound
        exact ⟨off, rfl, by omega⟩

/-- Whether a later chunk has passes is up to its terminators. -/
theorem Sound.passes_later (h : job.Sound endian acc boundary looksAhead)
    (hreliable : job.env.Reliable) (hquote : job.config.quote = none) {idx : ℕ}
    (hpos : 0 < idx) (hidx : idx < job.chunkCount) :
    (job.processChunk idx).passes ≠ [] ↔ ∃ q, job.chunkStart idx ≤ q ∧ q < job.chunkStop idx ∧
      ∃ b, job.data[q]? = some b ∧ job.config.isTerminator b = true := by
  have hmode : findMode job.config idx = .strict := by
    rw [findMode, if_neg (by omega)]
  have hstart := chunkStart_le (lt_chunkCount hidx).le
  rw [(h.passes_unquoted hreliable hquote hidx).1, hmode]
  simp only [startIn]
  rw [← Option.isSome_iff_exists, List.findIdx?_isSome, List.any_eq_true]
  constructor
  · rintro ⟨b, hmem, hterm⟩
    obtain ⟨j, hj⟩ := List.getElem?_of_mem hmem
    have hlt : j < job.chunkStop idx - job.chunkStart idx := by
      have hlen := (List.getElem?_eq_some_iff.mp hj).1
      rw [chunkBytes, List.length_take] at hlen
      omega
    rw [chunkBytes, List.getElem?_take_of_lt hlt, List.getElem?_drop] at hj
    exact ⟨job.chunkStart idx + j, by omega, by omega, b, hj, hterm⟩
  · rintro ⟨q, hq, hlt, b, hb, hterm⟩
    refine ⟨b, List.mem_of_getElem? (i := q - job.chunkStart idx) ?_, hterm⟩
    rw [chunkBytes, List.getElem?_take_of_lt (by omega), List.getElem?_drop,
      Nat.add_sub_cancel' hq]
    exact hb

/-- Every boundary a run without quotes comes to lies in a chunk with a pass, so it gets
through the sequential parse from where it starts. -/
theorem Sound.Follows.whole_unquoted (h : job.Sound endian acc boundary looksAhead)
    (hreliable : job.env.Reliable) (hquote : job.config.quote = none) {base : ℕ}
    {result : Except Error (List (List Record))} (hfollows : h.Follows base result) :
    h.Completes base result := by
  cases result with
  | error err => exact h.error_of_failed hreliable hfollows
  | ok states =>
      rcases hfollows.whole_or_pending with hwhole | hpending
      · exact hwhole
      · obtain ⟨c, q, hbase, hc, hcq, hq, hchunk, hbody, hnone⟩ := hpending
        obtain ⟨idx, hidx, hcount, hcidx, hstart, hstop, hend⟩ :=
          h.chunk_of_offset hchunk hcq hq
        obtain ⟨next', hparse, hn⟩ := bodyRecords_ok.mp hbody
        rw [if_pos hc] at hn
        subst hn
        obtain ⟨hterm, -⟩ := bodyRecords_stops h.distinct endian hcq hq hbase
          (stateAfter_ne_inComment h.distinct endian h.comment job.config.quoteHandling
            (by simp) _) hparse
        have hpasses := (h.passes_later hreliable hquote hidx hcount).mpr
          ⟨q, hstart, hstop, hterm⟩
        exact absurd ((job.processChunk_spec idx).2.mp hpasses) (hnone idx hcount hend.le hcidx)

/-- Without an end of the header row, the stream yields nothing. -/
theorem Sound.stream_absent (h : job.Sound endian acc boundary looksAhead)
    (hreliable : job.env.Reliable) (hfits : job.data.length ≤ usizeMax)
    (habsent : headerEndOf endian job.config job.data = .absent) :
    (job.stream .skipHeaders).result = .ok [] := by
  have hreports := h.stream_spec hfits .skipHeaders
  rw [boundaryFor, habsent] at hreports
  generalize job.stream .skipHeaders = pr at hreports
  obtain ⟨recordStart, recordEnd, result⟩ := pr
  cases recordStart with
  | some off =>
      cases result with
      | ok records => cases hreports.1
      | error err => cases hreports.1
  | none =>
      cases result with
      | ok records => exact congrArg Except.ok hreports.2
      | error err =>
          rcases hreports with ⟨_, hfalse⟩ | ⟨failure, hfails⟩
          · cases hfalse
          · exact absurd hfails ((hreliable _).not_failsWith failure)

theorem findIdx?_chunkBytes {start stop e : ℕ} {c : Byte} (hstart : start ≤ e) (hstop : e < stop)
    (hc : job.data[e]? = some c) (hterm : job.config.isTerminator c = true)
    (hbefore : ∀ j b, start ≤ j → j < e → job.data[j]? = some b →
      job.config.isTerminator b = false) :
    (job.chunkBytes start stop).findIdx? job.config.isTerminator = some (e - start) := by
  have hget : ∀ j, j < stop - start →
      (job.chunkBytes start stop)[j]? = job.data[start + j]? := by
    intro j hj
    rw [chunkBytes, List.getElem?_take_of_lt hj, List.getElem?_drop]
  have hbyte := hget (e - start) (by omega)
  rw [Nat.add_sub_cancel' hstart, hc] at hbyte
  obtain ⟨hlt, hbyte⟩ := List.getElem?_eq_some_iff.mp hbyte
  refine List.findIdx?_eq_some_iff_getElem.mpr ⟨hlt, hbyte ▸ hterm, fun j hj => ?_⟩
  have hother := hget j (by omega)
  rw [List.getElem?_eq_getElem (by omega)] at hother
  rw [hbefore _ _ (Nat.le_add_right _ _) (by omega) hother.symm]
  exact Bool.false_ne_true

section Headers

variable (h : job.Sound endian acc boundary looksAhead) (hreliable : job.env.Reliable)
  (hquote : job.config.quote = none) (hheaders : job.config.hasHeaders = true)

include h hreliable hquote hheaders

/-- The first chunk has a pass exactly if the header row ends in it. -/
theorem Sound.passes_first (hcount : 0 < job.chunkCount) :
    ((job.processChunk 0).passes ≠ [] ↔
        ∃ e, headerEnd job.config job.data = some e ∧ e < job.chunkSize) ∧
      ∀ pass ∈ (job.processChunk 0).passes,
        headerEnd job.config job.data = some pass.recordStart := by
  have hmode : findMode job.config 0 = .skipHeaders := by
    rw [findMode, if_pos rfl, hheaders]
    rfl
  have hstart : job.chunkStart 0 = 0 := Nat.zero_mul _
  have hchunk : headerEnd job.config (job.chunkBytes 0 (job.chunkStop 0)) =
      (headerEnd job.config job.data).bind (Option.guard fun e => e < job.chunkStop 0) := by
    rw [chunkBytes, List.drop_zero, Nat.sub_zero, headerEnd_take]
  obtain ⟨hiff, hpass⟩ := h.passes_unquoted hreliable hquote hcount
  rw [hmode, hstart] at hiff hpass
  simp only [startIn, hchunk, Nat.zero_add, Option.bind_eq_some_iff, Option.guard_eq_some_iff,
    decide_eq_true_eq] at hiff hpass
  constructor
  · rw [hiff]
    constructor
    · rintro ⟨_, e, he, rfl, hlt⟩
      rw [chunkStop] at hlt
      exact ⟨e, he, by omega⟩
    · rintro ⟨e, he, hlt⟩
      obtain ⟨⟨c, hc, -⟩, -⟩ := headerEnd_eq_some he
      have hlen := (List.getElem?_eq_some_iff.mp hc).1
      exact ⟨e, e, he, rfl, by rw [chunkStop]; omega⟩
  · intro pass hmem
    obtain ⟨off, ⟨e, he, rfl, -⟩, hoff⟩ := hpass pass hmem
    rw [he, hoff]

/-- Where the leading blank lines do not outlast the first chunk, the run starts where
the header row ends. -/
theorem Sound.starts_at_headerEnd (hrun : blankRun job.config job.data ≤ job.chunkSize) {e : ℕ}
    (he : headerEnd job.config job.data = some e) :
    job.firstSelected = some e ∧ h.Follows e job.runWith := by
  obtain ⟨⟨c, hc, hterm⟩, hlt, hbefore⟩ := headerEnd_eq_some he
  have hlen := (List.getElem?_eq_some_iff.mp hc).1
  have hpos := h.chunkSize
  set first := e / job.chunkSize with hfirst
  have hdiv : job.chunkStart first ≤ e := Nat.div_mul_le_self e job.chunkSize
  have hnext : e < (first + 1) * job.chunkSize := by
    rw [Nat.mul_comm]
    exact Nat.lt_mul_div_succ e hpos
  have hcount : first < job.chunkCount := by
    apply (Nat.div_lt_iff_lt_mul hpos).mpr
    exact Nat.lt_of_lt_of_le hlen (le_chunkCount hpos)
  have hstop : e < job.chunkStop first := by
    rw [chunkStop_eq]
    omega
  have hskipped : ∀ idx, idx < first → (job.processChunk idx).passes = [] := by
    intro idx hidx
    have hmul : (idx + 1) * job.chunkSize ≤ job.chunkStart first := Nat.mul_le_mul_right _ hidx
    have hsucc := Nat.succ_mul idx job.chunkSize
    by_contra hne
    rcases Nat.eq_zero_or_pos idx with rfl | hidxpos
    · obtain ⟨e', he', hlt'⟩ :=
        (h.passes_first hreliable hquote hheaders (by omega)).1.mp hne
      rw [he] at he'
      cases he'
      omega
    · -- between the leading blank lines and the header's end there is no terminator
      obtain ⟨q, hq, hqstop, b, hb, hbterm⟩ :=
        (h.passes_later hreliable hquote hidxpos (by omega)).mp hne
      have hone : job.chunkSize ≤ job.chunkStart idx := Nat.le_mul_of_pos_left _ hidxpos
      rw [chunkStop_eq] at hqstop
      have hfalse := hbefore q b (by omega) (by omega) hb
      rw [hbterm] at hfalse
      cases hfalse
  have hpasses : (job.processChunk first).passes ≠ [] := by
    rcases Nat.eq_zero_or_pos first with hzero | hfirstpos
    · rw [hzero] at hnext hcount ⊢
      exact (h.passes_first hreliable hquote hheaders hcount).1.mpr ⟨e, he, by omega⟩
    · exact (h.passes_later hreliable hquote hfirstpos hcount).mpr
        ⟨e, hdiv, hstop, c, hc, hterm⟩
  have hbase : ∀ pass ∈ (job.processChunk first).passes, pass.recordStart = e := by
    intro pass hmem
    rcases Nat.eq_zero_or_pos first with hzero | hfirstpos
    · rw [hzero] at hmem hcount
      have hpass := (h.passes_first hreliable hquote hheaders hcount).2 pass hmem
      rw [he] at hpass
      cases hpass
      rfl
    · obtain ⟨off, hoff, hpass⟩ := (h.passes_unquoted hreliable hquote hcount).2 pass hmem
      have hmode : findMode job.config first = .strict := by
        rw [findMode, if_neg (by omega)]
      have hone : job.chunkSize ≤ job.chunkStart first := Nat.le_mul_of_pos_left _ hfirstpos
      rw [hmode, startIn, findIdx?_chunkBytes hdiv hstop hc hterm
        fun j b hj => hbefore j b (by omega)] at hoff
      cases hoff
      rw [hpass, Nat.add_sub_cancel' hdiv]
  exact ⟨firstSelected_eq hcount hskipped hpasses hbase,
    h.runWith_follows hcount hskipped hpasses hbase hstop.le⟩

/-- Without a header row, and without leading blank lines that outlast the first chunk,
no chunk has a pass. -/
theorem Sound.no_passes (hrun : blankRun job.config job.data ≤ job.chunkSize)
    (he : headerEnd job.config job.data = none) :
    ∀ idx, idx < job.chunkCount → (job.processChunk idx).passes = [] := by
  intro idx hidx
  by_contra hne
  rcases Nat.eq_zero_or_pos idx with rfl | hpos
  · obtain ⟨e, he', -⟩ := (h.passes_first hreliable hquote hheaders hidx).1.mp hne
    rw [he] at he'
    cases he'
  · obtain ⟨q, hq, -, b, hb, hterm⟩ := (h.passes_later hreliable hquote hpos hidx).mp hne
    have hone : job.chunkSize ≤ job.chunkStart idx := Nat.le_mul_of_pos_left _ hpos
    have hfalse := headerEnd_eq_none he q b (by omega) hb
    rw [hterm] at hfalse
    cases hfalse

/-- Leading blank lines that outlast the first chunk make the run start at its end. -/
theorem Sound.starts_at_chunkSize (hrun : job.chunkSize < blankRun job.config job.data) :
    job.firstSelected = some job.chunkSize ∧ h.Follows job.chunkSize job.runWith := by
  have hpos := h.chunkSize
  have hle := blankRun_le job.config job.data
  have hcount : 1 < job.chunkCount := by
    have hcover := le_chunkCount hpos
    by_contra hone
    have hmul : job.chunkCount * job.chunkSize ≤ 1 * job.chunkSize :=
      Nat.mul_le_mul_right _ (by omega)
    omega
  have hstart : job.chunkStart 1 = job.chunkSize := Nat.one_mul _
  have hstop : job.chunkSize < job.chunkStop 1 := by
    rw [chunkStop_eq]
    omega
  have hterm : ∃ b, job.data[job.chunkSize]? = some b ∧ job.config.isTerminator b = true := by
    have hlt : job.chunkSize < job.data.length := by omega
    exact ⟨_, List.getElem?_eq_getElem hlt,
      isTerminator_of_lt_blankRun hrun (List.getElem?_eq_getElem hlt)⟩
  have hskipped : ∀ idx, idx < 1 → (job.processChunk idx).passes = [] := by
    intro idx hidx
    obtain rfl : idx = 0 := by omega
    by_contra hne
    obtain ⟨e, he, hlt⟩ := (h.passes_first hreliable hquote hheaders (by omega)).1.mp hne
    have hpast := (headerEnd_eq_some he).2.1
    omega
  have hpasses := (h.passes_later hreliable hquote Nat.one_pos hcount).mpr
    ⟨job.chunkSize, hstart.le, hstop, hterm⟩
  have hbase : ∀ pass ∈ (job.processChunk 1).passes, pass.recordStart = job.chunkSize := by
    intro pass hmem
    obtain ⟨off, hoff, hpass⟩ := (h.passes_unquoted hreliable hquote hcount).2 pass hmem
    obtain ⟨b, hb, hbterm⟩ := hterm
    have hmode : findMode job.config 1 = .strict := rfl
    have hbytes : ∃ rest, job.chunkBytes (job.chunkStart 1) (job.chunkStop 1) = b :: rest := by
      obtain ⟨n, hn⟩ : ∃ n, job.chunkStop 1 - job.chunkSize = n + 1 :=
        ⟨job.chunkStop 1 - job.chunkSize - 1, by omega⟩
      rw [chunkBytes, hstart, List.drop_eq_getElem?_toList_append, hb, hn]
      exact ⟨_, rfl⟩
    obtain ⟨rest, hrest⟩ := hbytes
    rw [hmode, startIn, hrest, List.findIdx?_cons, if_pos hbterm] at hoff
    cases hoff
    rw [hpass, hstart, Nat.add_zero]
  exact ⟨firstSelected_eq hcount hskipped hpasses hbase,
    h.runWith_follows hcount hskipped hpasses hbase hstop.le⟩

/-- The parallel run starts where the header row ends, if there is one, and agrees with
the stream, exactly if its leading blank lines end by the end of the first chunk, or
nothing follows them. -/
theorem Sound.headers_iff (hfits : job.data.length ≤ usizeMax) :
    SameRecords job.runWith ((job.stream .skipHeaders).result.map fun state => [state]) ∧
        (blankRun job.config job.data < job.data.length →
          job.firstSelected = headerEnd job.config job.data) ↔
      blankRun job.config job.data ≤ job.chunkSize ∨
        job.data.length ≤ blankRun job.config job.data := by
  have hscan := h.boundaryFor_unquoted hquote .skipHeaders job.data
  rw [startIn] at hscan
  constructor
  · rintro ⟨-, hstart⟩
    by_contra hlong
    have hcut : job.chunkSize < blankRun job.config job.data := by omega
    obtain ⟨hselected, -⟩ := h.starts_at_chunkSize hreliable hquote hheaders hcut
    have hend := hstart (by omega)
    rw [hselected] at hend
    have hpast := (headerEnd_eq_some hend.symm).2.1
    omega
  · intro hcond
    cases he : headerEnd job.config job.data with
    | some e =>
        obtain ⟨⟨c, hc, -⟩, hlt, -⟩ := headerEnd_eq_some he
        have hlen := (List.getElem?_eq_some_iff.mp hc).1
        obtain ⟨hselected, hfollows⟩ :=
          h.starts_at_headerEnd hreliable hquote hheaders (by omega) he
        rw [he, boundaryAt, Nat.zero_add] at hscan
        exact ⟨h.sameRecords hreliable hfits hscan (hfollows.whole_unquoted h hreliable hquote),
          fun _ => hselected⟩
    | none =>
        rw [he] at hscan
        rw [h.stream_absent hreliable hfits hscan]
        by_cases hrun : blankRun job.config job.data ≤ job.chunkSize
        · have hnone := h.no_passes hreliable hquote hheaders hrun he
          rw [runWith_none hnone, firstSelected_none hnone]
          exact ⟨rfl, fun _ => rfl⟩
        · -- nothing but terminators, which yield no record
          have hall : job.data.length ≤ blankRun job.config job.data := by omega
          have hle := blankRun_le job.config job.data
          obtain ⟨-, hfollows⟩ := h.starts_at_chunkSize hreliable hquote hheaders (by omega)
          have hwhole := hfollows.whole_unquoted h hreliable hquote
          have hrest : h.seq.body job.chunkSize job.data.length = .ok ([], none) := by
            refine bodyRecords_blank h.distinct endian (by omega) fun b hmem => ?_
            obtain ⟨i, hi⟩ := List.getElem?_of_mem (List.mem_of_mem_drop hmem)
            have hlen := (List.getElem?_eq_some_iff.mp hi).1
            exact isTerminator_of_lt_blankRun (by omega) hi
          refine ⟨?_, fun hlt => by omega⟩
          cases hresult : job.runWith with
          | error err =>
              rw [hresult, Completes, hrest] at hwhole
              cases hwhole
          | ok states =>
              rw [hresult, Completes, hrest] at hwhole
              obtain ⟨next, hstates⟩ := hwhole
              exact (congrArg Prod.fst (Except.ok.inj hstates)).symm

end Headers

end Csveee.Scheduler.Job
