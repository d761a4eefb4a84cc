import Csveee.Scheduler.Reproducible

/-!
# Runs agree

Two runs over the same chunks whose scans find the same boundaries select passes from the
same places.  If neither parser leaves the sequential parse, they merge the same records:
a run of the vectorized backend that succeeds is a run of the byte automaton.
-/

namespace Csveee

namespace Scheduler

namespace Job

section Scans

variable {σ : Type} {job job' : Job σ}

/-- Two outcomes of the same kind, whose passes are related. -/
inductive RelatedOutcomes (related : ChunkOutput σ → ChunkOutput σ → Prop) :
    TryOutcome σ → TryOutcome σ → Prop
  | resolved {passes passes' : List (ResolvedPass σ)} {recordEnd recordEnd' : Option ℕ}
      (h : related ⟨passes, recordEnd⟩ ⟨passes', recordEnd'⟩) :
      RelatedOutcomes related (.resolved passes recordEnd) (.resolved passes' recordEnd')
  | cleanNoBoundary : RelatedOutcomes related .cleanNoBoundary .cleanNoBoundary
  | allFailed : RelatedOutcomes related .allFailed .allFailed

/-- The first passes start at the same offset, or neither chunk has one. -/
def SameHead (output output' : ChunkOutput σ) : Prop :=
  output.passes.head?.map ResolvedPass.recordStart =
    output'.passes.head?.map ResolvedPass.recordStart

/-- Two attempts that start at the same boundary, or neither does, and for the same reason. -/
def SameScan (job job' : Job σ) (idx start stop : ℕ) (find : FindRecordStart)
    (assumption : Assumption) : Prop :=
  (job.attempt idx start stop find assumption).recordStart =
      (job'.attempt idx start stop find assumption).recordStart ∧
    (job.FailsEarly idx start stop find assumption ↔
      job'.FailsEarly idx start stop find assumption)

theorem processChunk_eq (job : Job σ) (idx : ℕ) :
    job.processChunk idx =
      match job.tryAssumptions idx (job.chunkStart idx) (job.chunkStop idx)
        (findMode job.config idx) with
      | .resolved passes recordEnd => ⟨passes, recordEnd⟩
      | .cleanNoBoundary => ⟨[], none⟩
      | .allFailed =>
          if findMode job.config idx = .strict then
            match job.tryAssumptions idx (job.chunkStart idx) (job.chunkStop idx) .lenient with
            | .resolved passes recordEnd => ⟨passes, recordEnd⟩
            | .cleanNoBoundary | .allFailed => ⟨[], none⟩
          else ⟨[], none⟩ :=
  rfl

/-- An attempt that ends the loop over the assumptions. -/
def Resolves (job : Job σ) (idx start stop : ℕ) (find : FindRecordStart)
    (assumption : Assumption) : Prop :=
  (job.attempt idx start stop find assumption).recordStart.isSome = true ∧
    ∃ state, (job.attempt idx start stop find assumption).result = .ok state

/-- The attempts the loop makes have a property, along with the assumptions behind them. -/
def EachTried (job : Job σ) (idx start stop : ℕ) (find : FindRecordStart)
    (property : Assumption → List Assumption → Prop) : List Assumption → Prop
  | [] => True
  | assumption :: assumptions => property assumption assumptions ∧
      (job.Resolves idx start stop find assumption ∨
        job.EachTried idx start stop find property assumptions)

/-- The attempts made for a chunk have a property, those of a lenient retry too. -/
def TriedInChunk (job : Job σ) (idx : ℕ)
    (property : FindRecordStart → Assumption → List Assumption → Prop) : Prop :=
  job.EachTried idx (job.chunkStart idx) (job.chunkStop idx) (findMode job.config idx)
      (property (findMode job.config idx)) job.assumptions ∧
    (findMode job.config idx = .strict →
      job.tryAssumptions idx (job.chunkStart idx) (job.chunkStop idx) .strict = .allFailed →
        job.EachTried idx (job.chunkStart idx) (job.chunkStop idx) .lenient (property .lenient)
          job.assumptions)

theorem EachTried.of_forall {idx start stop : ℕ} {find : FindRecordStart}
    {property : Assumption → List Assumption → Prop} (assumptions : List Assumption)
    (h : ∀ assumption ∈ assumptions, ∀ rest, property assumption rest) :
    job.EachTried idx start stop find property assumptions := by
  induction assumptions with
  | nil => trivial
  | cons assumption assumptions ih =>
      exact ⟨h assumption List.mem_cons_self _,
        Or.inr (ih fun other hmem => h other (List.mem_cons_of_mem _ hmem))⟩

theorem EachTried.imp {idx start stop : ℕ} {find : FindRecordStart}
    {property property' : Assumption → List Assumption → Prop} {assumptions : List Assumption}
    (h : job.EachTried idx start stop find property assumptions)
    (himp : ∀ assumption rest, property assumption rest → property' assumption rest) :
    job.EachTried idx start stop find property' assumptions := by
  induction assumptions with
  | nil => trivial
  | cons assumption assumptions ih => exact ⟨himp _ _ h.1, h.2.imp_right ih⟩

/-- Once there is a pass, the loop keeps it at the front. -/
theorem tryLoop_started (job : Job σ) (idx start stop : ℕ) (find : FindRecordStart)
    (assumptions : List Assumption) (passes : List (ResolvedPass σ)) (sawClean : Bool)
    (hpasses : passes ≠ []) :
    ∃ passes' recordEnd,
      job.tryLoop idx start stop find assumptions passes sawClean = .resolved passes' recordEnd ∧
        passes'.head? = passes.head? := by
  induction assumptions generalizing passes sawClean with
  | nil =>
      refine ⟨passes, none, ?_, rfl⟩
      rw [tryLoop, List.isEmpty_eq_false_iff.mpr hpasses]
      rfl
  | cons assumption assumptions ih =>
      have happend : ∀ pass, passes ++ [pass] ≠ [] ∧ (passes ++ [pass]).head? = passes.head? := by
        intro pass
        cases passes with
        | nil => exact absurd rfl hpasses
        | cons first rest => exact ⟨List.cons_ne_nil _ _, rfl⟩
      rw [tryLoop]
      cases (job.attempt idx start stop find assumption).recordStart with
      | some off =>
          cases (job.attempt idx start stop find assumption).result with
          | ok state => exact ⟨_, _, rfl, (happend _).2⟩
          | error err =>
              obtain ⟨passes', recordEnd, hloop, hhead⟩ := ih _ sawClean (happend _).1
              exact ⟨passes', recordEnd, hloop, hhead.trans (happend _).2⟩
      | none =>
          cases (job.attempt idx start stop find assumption).result with
          | ok state => exact ih passes true hpasses
          | error err => exact ih passes sawClean hpasses

theorem tryLoop_first (job : Job σ) (idx start stop : ℕ) (find : FindRecordStart)
    (assumption : Assumption) (assumptions : List Assumption) (sawClean : Bool) {off : ℕ}
    (hoff : (job.attempt idx start stop find assumption).recordStart = some off) :
    ∃ passes recordEnd,
      job.tryLoop idx start stop find (assumption :: assumptions) [] sawClean =
        .resolved passes recordEnd ∧
      passes.head?.map ResolvedPass.recordStart = some (start + off) := by
  rw [tryLoop, hoff]
  cases (job.attempt idx start stop find assumption).result with
  | ok state => exact ⟨_, _, rfl, rfl⟩
  | error err =>
      obtain ⟨passes, recordEnd, hloop, hhead⟩ := job.tryLoop_started idx start stop find
        assumptions [⟨start + off, .error (err.withBase start)⟩] sawClean (List.cons_ne_nil _ _)
      exact ⟨passes, recordEnd, hloop, by rw [hhead]; rfl⟩

theorem tryLoop_none (job : Job σ) (idx start stop : ℕ) (find : FindRecordStart)
    (assumption : Assumption) (assumptions : List Assumption) (passes : List (ResolvedPass σ))
    (sawClean : Bool) (hnone : (job.attempt idx start stop find assumption).recordStart = none) :
    (job.FailsEarly idx start stop find assumption →
      job.tryLoop idx start stop find (assumption :: assumptions) passes sawClean =
        job.tryLoop idx start stop find assumptions passes sawClean) ∧
    (¬ job.FailsEarly idx start stop find assumption →
      job.tryLoop idx start stop find (assumption :: assumptions) passes sawClean =
        job.tryLoop idx start stop find assumptions passes true) := by
  rw [tryLoop, hnone]
  cases hresult : (job.attempt idx start stop find assumption).result with
  | ok state =>
      refine ⟨fun hfails => ?_, fun _ => rfl⟩
      obtain ⟨err, -, herr⟩ := hfails
      rw [hresult] at herr
      cases herr
  | error err => exact ⟨fun _ => rfl, fun hclean => absurd ⟨err, hnone, hresult⟩ hclean⟩

/-- The loops of two jobs whose scans find the same come out with passes from the same start. -/
theorem tryLoop_sameStart {idx start stop : ℕ} {find : FindRecordStart}
    (assumptions : List Assumption) (sawClean : Bool)
    (hsame : job.EachTried idx start stop find
      (fun assumption _ => job.SameScan job' idx start stop find assumption) assumptions) :
    RelatedOutcomes SameHead (job.tryLoop idx start stop find assumptions [] sawClean)
      (job'.tryLoop idx start stop find assumptions [] sawClean) := by
  induction assumptions generalizing sawClean with
  | nil =>
      cases sawClean with
      | true => exact .cleanNoBoundary
      | false => exact .allFailed
  | cons assumption assumptions ih =>
      obtain ⟨⟨hstart, hfails⟩, hrest⟩ := hsame
      cases hoff : (job.attempt idx start stop find assumption).recordStart with
      | some off =>
          obtain ⟨passes, recordEnd, hloop, hhead⟩ := job.tryLoop_first idx start stop find
            assumption assumptions sawClean hoff
          obtain ⟨passes', recordEnd', hloop', hhead'⟩ := job'.tryLoop_first idx start stop find
            assumption assumptions sawClean (hstart.symm.trans hoff)
          rw [hloop, hloop']
          exact .resolved (hhead.trans hhead'.symm)
      | none =>
          have hrest := hrest.resolve_left fun hresolves => by
            rw [Resolves, hoff] at hresolves
            cases hresolves.1
          obtain ⟨hfailed, hclean⟩ := job.tryLoop_none idx start stop find assumption assumptions []
            sawClean hoff
          obtain ⟨hfailed', hclean'⟩ := job'.tryLoop_none idx start stop find assumption
            assumptions [] sawClean (hstart.symm.trans hoff)
          by_cases hearly : job.FailsEarly idx start stop find assumption
          · rw [hfailed hearly, hfailed' (hfails.mp hearly)]
            exact ih sawClean hrest
          · rw [hclean hearly, hclean' (mt hfails.mpr hearly)]
            exact ih true hrest

/-- What relates the outcomes of the attempts relates what is made of them. -/
theorem processChunk_related {related : ChunkOutput σ → ChunkOutput σ → Prop}
    (hnone : related ⟨[], none⟩ ⟨[], none⟩) {idx : ℕ}
    (hmode : findMode job'.config idx = findMode job.config idx)
    (hsize : job'.chunkSize = job.chunkSize) (hdata : job'.data = job.data)
    (hfirst : RelatedOutcomes related
      (job.tryAssumptions idx (job.chunkStart idx) (job.chunkStop idx) (findMode job.config idx))
      (job'.tryAssumptions idx (job.chunkStart idx) (job.chunkStop idx) (findMode job.config idx)))
    (hretry : findMode job.config idx = .strict →
      job.tryAssumptions idx (job.chunkStart idx) (job.chunkStop idx) .strict = .allFailed →
        RelatedOutcomes related
          (job.tryAssumptions idx (job.chunkStart idx) (job.chunkStop idx) .lenient)
          (job'.tryAssumptions idx (job.chunkStart idx) (job.chunkStop idx) .lenient)) :
    related (job.processChunk idx) (job'.processChunk idx) := by
  have hstart : job'.chunkStart idx = job.chunkStart idx := by
    rw [chunkStart, chunkStart, hsize]
  have hstop : job'.chunkStop idx = job.chunkStop idx := by
    rw [chunkStop, chunkStop, hsize, hdata]
  rw [processChunk_eq, processChunk_eq, hmode, hstart, hstop]
  generalize job'.tryAssumptions idx (job.chunkStart idx) (job.chunkStop idx)
    (findMode job.config idx) = right at hfirst ⊢
  generalize hleft : job.tryAssumptions idx (job.chunkStart idx) (job.chunkStop idx)
    (findMode job.config idx) = left at hfirst ⊢
  cases hfirst with
  | resolved h => exact h
  | cleanNoBoundary => exact hnone
  | allFailed =>
      by_cases hstrict : findMode job.config idx = .strict
      · rw [hstrict] at hleft
        have hlenient := hretry hstrict hleft
        simp only [if_pos hstrict]
        generalize job.tryAssumptions idx _ _ .lenient = left at hlenient ⊢
        generalize job'.tryAssumptions idx _ _ .lenient = right at hlenient ⊢
        cases hlenient with
        | resolved h => exact h
        | cleanNoBoundary => exact hnone
        | allFailed => exact hnone
      · simp only [if_neg hstrict]
        exact hnone

/-- The chunk's first pass starts at the same offset in both. -/
theorem processChunk_sameStart (hconfig : findMode job.config = findMode job'.config)
    (hassumptions : job.assumptions = job'.assumptions) (hsize : job.chunkSize = job'.chunkSize)
    (hdata : job.data = job'.data) {idx : ℕ}
    (hsame : job.TriedInChunk idx fun find assumption _ =>
      job.SameScan job' idx (job.chunkStart idx) (job.chunkStop idx) find assumption) :
    SameHead (job.processChunk idx) (job'.processChunk idx) := by
  have htry : ∀ find, job.EachTried idx (job.chunkStart idx) (job.chunkStop idx) find
      (fun assumption _ => job.SameScan job' idx (job.chunkStart idx) (job.chunkStop idx) find
        assumption) job.assumptions →
      RelatedOutcomes SameHead
        (job.tryAssumptions idx (job.chunkStart idx) (job.chunkStop idx) find)
        (job'.tryAssumptions idx (job.chunkStart idx) (job.chunkStop idx) find) := by
    intro find hscans
    have hloop := tryLoop_sameStart job.assumptions false hscans
    rw [assumptions] at hloop hassumptions
    rw [assumptions] at hassumptions
    rw [tryAssumptions, tryAssumptions, ← hassumptions]
    exact hloop
  exact processChunk_related (show SameHead _ _ from rfl) (congrFun hconfig.symm idx) hsize.symm
    hdata.symm (htry _ hsame.1) fun hstrict hfailed => htry _ (hsame.2 hstrict hfailed)

end Scans

section Agreement

variable {job job' : Job (List Record)} {endian endian' : Endian} {acc : RecordWise}
  {boundary boundary' : Assumption → Bool → Bytes → Boundary} {looksAhead looksAhead' : Bool}

/-- On reliable readers, an attempt starts where the scan finds a boundary. -/
theorem Sound.recordStart_eq (h : job.Sound endian acc boundary looksAhead)
    (hreliable : job.env.Reliable) (idx : ℕ) {start stop : ℕ} (hstart : start ≤ stop)
    (hstop : stop ≤ job.data.length) (find : FindRecordStart) (assumption : Assumption) {off : ℕ} :
    (job.attempt idx start stop find assumption).recordStart = some off ↔
      boundaryFor endian job.config boundary assumption find (job.chunkBytes start stop) =
        .found off := by
  have hreports := h.attempt_spec idx hstart hstop find assumption
  generalize job.attempt idx start stop find assumption = pr at hreports
  obtain ⟨recordStart, recordEnd, result⟩ := pr
  cases recordStart with
  | some off' =>
      have hfound : boundaryFor endian job.config boundary assumption find
          (job.chunkBytes start stop) = .found off' := by
        cases result with
        | ok records => exact hreports.1
        | error err => exact hreports.1
      rw [hfound, Option.some.injEq, Boundary.found.injEq]
  | none =>
      constructor
      · intro hfalse
        cases hfalse
      · intro hfound
        cases result with
        | ok records =>
            rw [hreports.1] at hfound
            cases hfound
        | error err =>
            rcases hreports with ⟨off', hrejected⟩ | ⟨failure, hfails⟩
            · rw [hrejected] at hfound
              cases hfound
            · exact absurd hfails ((hreliable _).not_failsWith failure)

/-- Two jobs over the same input in the same chunks, whose parsers find the same boundaries and
parse the same records. -/
structure Sound.Agree (h : job.Sound endian acc boundary looksAhead)
    (h' : job'.Sound endian' acc boundary' looksAhead') : Prop where
  reliable : job.env.Reliable
  reliable' : job'.env.Reliable
  findMode : findMode job.config = Scheduler.findMode job'.config
  assumptions : job.assumptions = job'.assumptions
  chunkSize : job.chunkSize = job'.chunkSize
  data : job.data = job'.data
  boundary : ∀ find, ∀ assumption ∈ job.assumptions, ∀ bytes,
    boundaryFor endian job.config boundary assumption find bytes =
      boundaryFor endian' job'.config boundary' assumption find bytes
  body : h.seq.body = h'.seq.body

namespace Sound.Agree

variable {h : job.Sound endian acc boundary looksAhead}
  {h' : job'.Sound endian' acc boundary' looksAhead'}

/-- The first pass of a chunk starts at the same offset in both. -/
theorem head (hagree : h.Agree h') {idx : ℕ} (hidx : idx < job.chunkCount) :
    (job.processChunk idx).passes.head?.map ResolvedPass.recordStart =
      (job'.processChunk idx).passes.head?.map ResolvedPass.recordStart := by
  have hstart := chunkStart_le (lt_chunkCount hidx).le
  have hstop : job.chunkStop idx ≤ job.data.length := Nat.min_le_right _ _
  have hstop' : job.chunkStop idx ≤ job'.data.length := hagree.data ▸ hstop
  have hbytes : job.chunkBytes (job.chunkStart idx) (job.chunkStop idx) =
      job'.chunkBytes (job.chunkStart idx) (job.chunkStop idx) := by
    rw [chunkBytes, chunkBytes, hagree.data]
  have hsame : ∀ find, ∀ assumption ∈ job.assumptions, ∀ _ : List Assumption,
      job.SameScan job' idx (job.chunkStart idx) (job.chunkStop idx) find assumption := by
    intro find assumption hmem _
    have hboundary := hagree.boundary find assumption hmem
        (job.chunkBytes (job.chunkStart idx) (job.chunkStop idx))
    constructor
    · apply Option.ext
      intro off
      rw [h.recordStart_eq hagree.reliable idx hstart hstop,
        h'.recordStart_eq hagree.reliable' idx hstart hstop', hboundary, hbytes]
    · rw [h.failsEarly_iff hagree.reliable idx hstart hstop,
        h'.failsEarly_iff hagree.reliable' idx hstart hstop', hboundary, hbytes]
  exact processChunk_sameStart hagree.findMode hagree.assumptions hagree.chunkSize hagree.data
    ⟨.of_forall _ (hsame _), fun _ _ => .of_forall _ (hsame _)⟩

end Sound.Agree

/-- Two jobs over the same input in the same chunks, whose passes start at the same offsets and
that parse the same records; the second one has no failing readers. -/
structure Sound.Aligned (h : job.Sound endian acc boundary looksAhead)
    (h' : job'.Sound endian' acc boundary' looksAhead') : Prop where
  reliable' : job'.env.Reliable
  chunkSize : job.chunkSize = job'.chunkSize
  data : job.data = job'.data
  head : ∀ idx, idx < job.chunkCount →
    (job.processChunk idx).passes.head?.map ResolvedPass.recordStart =
      (job'.processChunk idx).passes.head?.map ResolvedPass.recordStart
  body : h.seq.body = h'.seq.body

namespace Sound.Aligned

variable {h : job.Sound endian acc boundary looksAhead}
  {h' : job'.Sound endian' acc boundary' looksAhead'}

theorem chunkCount (haligned : h.Aligned h') : job.chunkCount = job'.chunkCount := by
  rw [Job.chunkCount, Job.chunkCount, haligned.data, haligned.chunkSize]

/-- A chunk has a pass in both or in neither. -/
theorem hasPass_iff (haligned : h.Aligned h') {idx : ℕ} (hidx : idx < job.chunkCount) :
    job.HasPass idx ↔ job'.HasPass idx := by
  have hhead := haligned.head idx hidx
  rw [← (job.processChunk_spec idx).2, ← (job'.processChunk_spec idx).2]
  cases hleft : (job.processChunk idx).passes with
  | nil =>
      cases hright : (job'.processChunk idx).passes with
      | nil => exact Iff.rfl
      | cons pass' rest' =>
          rw [hleft, hright] at hhead
          cases hhead
  | cons pass rest =>
      cases hright : (job'.processChunk idx).passes with
      | nil =>
          rw [hleft, hright] at hhead
          cases hhead
      | cons pass' rest' => simp only [ne_eq, reduceCtorEq, not_false_eq_true]

end Sound.Aligned

/-- Jobs that agree are aligned. -/
theorem Sound.Agree.aligned {h : job.Sound endian acc boundary looksAhead}
    {h' : job'.Sound endian' acc boundary' looksAhead'} (hagree : h.Agree h') : h.Aligned h' where
  reliable' := hagree.reliable'
  chunkSize := hagree.chunkSize
  data := hagree.data
  head _ hidx := hagree.head hidx
  body := hagree.body

/-- Only the last pass of a chunk succeeds. -/
theorem tryLoop_errors {σ : Type} (job : Job σ) (idx start stop : ℕ) (find : FindRecordStart)
    (assumptions : List Assumption) (passes : List (ResolvedPass σ)) (sawClean : Bool)
    (hpasses : ∀ pass ∈ passes, ∃ err, pass.result = .error err) {passes' : List (ResolvedPass σ)}
    {recordEnd : Option ℕ}
    (hloop : job.tryLoop idx start stop find assumptions passes sawClean =
      .resolved passes' recordEnd) :
    ∀ pass ∈ passes'.dropLast, ∃ err, pass.result = .error err := by
  induction assumptions generalizing passes sawClean with
  | nil =>
      rw [tryLoop] at hloop
      split_ifs at hloop
      cases hloop
      exact fun pass hmem => hpasses pass (List.mem_of_mem_dropLast hmem)
  | cons assumption assumptions ih =>
      rw [tryLoop] at hloop
      cases hoff : (job.attempt idx start stop find assumption).recordStart with
      | some off =>
          cases hresult : (job.attempt idx start stop find assumption).result with
          | ok state =>
              simp only [hoff, hresult, TryOutcome.resolved.injEq] at hloop
              rw [← hloop.1, List.dropLast_concat]
              exact hpasses
          | error err =>
              simp only [hoff, hresult] at hloop
              refine ih _ sawClean (fun pass hmem => ?_) hloop
              rcases List.mem_append.mp hmem with hmem | hmem
              · exact hpasses pass hmem
              · rw [List.mem_singleton.mp hmem]
                exact ⟨_, rfl⟩
      | none =>
          cases hresult : (job.attempt idx start stop find assumption).result with
          | ok state =>
              simp only [hoff, hresult] at hloop
              exact ih passes true hpasses hloop
          | error err =>
              simp only [hoff, hresult] at hloop
              exact ih passes sawClean hpasses hloop

/-- A chunk whose first pass succeeds has no other. -/
theorem processChunk_single {σ : Type} (job : Job σ) {idx : ℕ} {pass : ResolvedPass σ}
    {rest : List (ResolvedPass σ)} {state : σ}
    (hpasses : (job.processChunk idx).passes = pass :: rest) (hok : pass.result = .ok state) :
    rest = [] := by
  have herrors : ∀ other ∈ (job.processChunk idx).passes.dropLast,
      ∃ err, other.result = .error err := by
    have hnone : ∀ other ∈ ([] : List (ResolvedPass σ)), ∃ err, other.result = .error err :=
      fun other hmem => absurd hmem List.not_mem_nil
    simp only [processChunk, tryAssumptions]
    split
    · next hloop => exact job.tryLoop_errors _ _ _ _ _ _ _ hnone hloop
    · exact hnone
    · split_ifs
      · split
        · next hloop => exact job.tryLoop_errors _ _ _ _ _ _ _ hnone hloop
        · exact hnone
        · exact hnone
      · exact hnone
  rw [hpasses] at herrors
  cases rest with
  | nil => rfl
  | cons other rest =>
      obtain ⟨err, herr⟩ := herrors pass List.mem_cons_self
      rw [hok] at herr
      cases herr

theorem outputs_split {σ : Type} (job : Job σ) {first : ℕ} (hfirst : first < job.chunkCount) :
    ∃ rest, job.outputs =
      (List.range first).map job.processChunk ++ job.processChunk first :: rest := by
  obtain ⟨n, hn⟩ := Nat.exists_eq_add_of_lt hfirst
  have hsplit : job.outputs = (List.range first).map job.processChunk ++
      job.processChunk (first + 0) ::
        (((List.range n).map Nat.succ).map (first + ·)).map job.processChunk := by
    rw [outputs, show divCeil job.data.length job.chunkSize = first + (n + 1) from hn,
      List.range_add, List.map_append, List.range_succ_eq_map, List.map_cons, List.map_cons]
  exact ⟨_, hsplit⟩

/-- A run whose first pass of all fails fails with it. -/
theorem runWith_first_error {σ : Type} (job : Job σ) {first : ℕ} (hfirst : first < job.chunkCount)
    (hskipped : ∀ idx, idx < first → (job.processChunk idx).passes = [])
    {pass : ResolvedPass σ} {rest : List (ResolvedPass σ)} {err : Error}
    (hpasses : (job.processChunk first).passes = pass :: rest)
    (herr : pass.result = .error err) : job.runWith = .error err := by
  obtain ⟨outputs, hsplit⟩ := job.outputs_split hfirst
  have hleading := @Speculation.mergeLoop_leading σ job.chunkSize job.reparseChunk
    ((List.range first).map job.processChunk) (job.processChunk first :: outputs) 0
    (by
      intro output hmem
      obtain ⟨idx, hidx, rfl⟩ := List.mem_map.mp hmem
      exact hskipped idx (List.mem_range.mp hidx))
  rw [Nat.zero_mul] at hleading
  rw [runWith, collectAndMerge, hsplit, hleading, mergeLoop]
  simp only [hpasses, Option.any_none, Bool.false_eq_true, if_false, List.isEmpty_cons,
    List.find?_cons, Option.all_none, herr]

/-- A run follows the sequential parse from where the first pass of all starts. -/
theorem Sound.follows_first (h : job.Sound endian acc boundary looksAhead) {base first : ℕ}
    (hfirst : first < job.chunkCount)
    (hskipped : ∀ idx, idx < first → (job.processChunk idx).passes = [])
    (hhead : (job.processChunk first).passes.head?.map ResolvedPass.recordStart = some base) :
    h.Follows base job.runWith := by
  cases hpasses : (job.processChunk first).passes with
  | nil =>
      rw [hpasses] at hhead
      cases hhead
  | cons pass rest =>
      rw [hpasses, List.head?_cons, Option.map_some, Option.some.injEq] at hhead
      have hmem : pass ∈ (job.processChunk first).passes := by
        rw [hpasses]
        exact List.mem_cons_self
      have hstart := chunkStart_le (lt_chunkCount hfirst).le
      have hstop : job.chunkStop first ≤ job.data.length := Nat.min_le_right _ _
      have hle : base ≤ job.chunkStop first := by
        obtain ⟨find, assumption, -, -, hof⟩ := (job.processChunk_spec first).1 pass hmem
        rw [← hhead]
        rcases (h.passOf_spec hstart hstop hof).1 with ⟨-, hsame⟩ | ⟨-, hlt⟩
        · exact hsame.trans_le hstart
        · exact hlt.le
      cases hresult : pass.result with
      | ok records =>
          have hrest := job.processChunk_single hpasses hresult
          refine h.runWith_follows hfirst hskipped (by rw [hpasses]; exact List.cons_ne_nil _ _)
            (fun other hother => ?_) hle
          rw [hpasses, hrest] at hother
          rw [List.mem_singleton.mp hother, hhead]
      | error err =>
          have hne : (job.processChunk first).passes ≠ [] := by
            rw [hpasses]
            exact List.cons_ne_nil _ _
          have htruthful := h.truthful hfirst
          have hfails := htruthful.error pass hmem err hresult
          rw [hhead] at hfails
          rw [job.runWith_first_error hfirst hskipped hpasses hresult]
          exact .first first (hle.trans_eq (h.spec_stop first).symm) (htruthful.hasPass hne) hfails

/-- Where a merge has stopped, the sequential parse goes on without a record up to the end of any
later chunk with a pass. -/
theorem Sound.Follows.body_of_le (h : job.Sound endian acc boundary looksAhead) {base : ℕ}
    {states : List (List Record)} (hfollows : h.Follows base (.ok states)) {idx : ℕ}
    (hidx : idx < job.chunkCount) (hpass : job.HasPass idx) :
    (∃ c next, h.spec.stop idx ≤ c ∧ c ≤ job.data.length ∧
        h.seq.body base c = .ok (states.flatten, next)) ∨
      ∃ next, h.seq.body base (h.spec.stop idx) = .ok (states.flatten, next) := by
  obtain ⟨c, next, hreached, hlater⟩ := hfollows
  obtain ⟨next', hbody, -⟩ := hreached.body
  have hlen := hreached.le_len
  by_cases hle : h.spec.stop idx ≤ c
  · exact Or.inl ⟨c, next', hle, hlen, hbody⟩
  · obtain ⟨i, hi, -⟩ := hreached.chunk
    rw [h.spec_stop, chunkStop_eq] at hle hi
    have hpos := h.chunkSize
    have hci : c = (i + 1) * job.chunkSize := by omega
    have hmul : (i + 1) * job.chunkSize ≤ idx * job.chunkSize := by
      apply Nat.mul_le_mul_right
      by_contra hgt
      have hmul := Nat.mul_le_mul_right job.chunkSize (show idx + 1 ≤ i + 1 by omega)
      omega
    rcases hlater idx hidx (hci.trans_le hmul) with hnone | ⟨q, hq, hbeyond⟩
    · exact absurd hpass hnone
    · obtain ⟨q', hq', hpending, -, -⟩ := hreached.pending (show c < job.data.length by omega)
      rw [hq, Option.some.injEq] at hq'
      rw [← hq'] at hpending
      have hstay := @Sequential.stay _ _ h.seq _ _
        (min ((idx + 1) * job.chunkSize) job.data.length) _ _ hreached.base_le (by omega)
        (Nat.min_le_right _ _) hpending (by omega)
      refine Or.inr ⟨some q, ?_⟩
      rw [h.spec_stop, chunkStop_eq, hstay]
      exact hpending

/-- The merge has stopped at the end of a chunk with a pass. -/
theorem Sound.Follows.reached_chunk (h : job.Sound endian acc boundary looksAhead) {base : ℕ}
    {states : List (List Record)} (hfollows : h.Follows base (.ok states)) :
    ∃ idx, idx < job.chunkCount ∧ job.HasPass idx ∧ base ≤ h.spec.stop idx ∧
      ∃ next, h.seq.body base (h.spec.stop idx) = .ok (states.flatten, next) := by
  obtain ⟨c, next, hreached, -⟩ := hfollows
  obtain ⟨idx, rfl, hpass⟩ := hreached.chunk
  obtain ⟨next', hbody, -⟩ := hreached.body
  exact ⟨idx, hpass.1, hpass.2, hreached.base_le, next', hbody⟩

/-- Where a chunk has a pass, what the sequential parse yields up to its end is merged. -/
theorem Sound.Follows.records_prefix (h : job.Sound endian acc boundary looksAhead) {base : ℕ}
    {states : List (List Record)} (hfollows : h.Follows base (.ok states)) {idx : ℕ}
    (hidx : idx < job.chunkCount) (hpass : job.HasPass idx) (hbase : base ≤ h.spec.stop idx)
    {records : List Record} {next : Option ℕ}
    (hbody : h.seq.body base (h.spec.stop idx) = .ok (records, next)) :
    records <+: states.flatten := by
  rcases hfollows.body_of_le h hidx hpass with ⟨c, next', hle, hlen, hall⟩ | ⟨next', hall⟩
  · exact h.seq.records_prefix hbase hle hlen hbody hall
  · rw [hall] at hbody
    cases hbody
    exact List.prefix_rfl

/-- A run that fails without looking ahead fails by the end of a chunk with a pass. -/
theorem Sound.body_of_failed (h : job.Sound endian acc boundary false)
    (hreliable : job.env.Reliable) {base : ℕ} {err : Error} (hfailed : h.spec.Failed base err) :
    ∃ idx, idx < job.chunkCount ∧ job.HasPass idx ∧ base ≤ h.spec.stop idx ∧
      h.seq.body base (h.spec.stop idx) = .error () := by
  have hfailsBy : ∀ {p k}, h.spec.Fails k p err → h.seq.body p (h.spec.stop k) = .error () := by
    intro p k hfails
    rcases hfails with hfallible | ⟨c, -, -, hstop | hfalse, hbody⟩
    · exact absurd hfallible (not_fallible hreliable)
    · rw [h.spec_stop, ← hstop]
      exact hbody
    · cases hfalse
  cases hfailed with
  | first k hbase hpass hfails => exact ⟨k, hpass.1, hpass.2, hbase, hfailsBy hfails⟩
  | later k c q records hbase hc hbody hq hpass hfails =>
      refine ⟨k, hpass.1, hpass.2, hbase.trans hc, ?_⟩
      have hover := h.spec.seq.handover hbase hc (Speculation.stop_le_len k) hbody hq
      rw [show h.spec.seq.body q (h.spec.stop k) = .error () from hfailsBy hfails] at hover
      exact hover

/-- A run that does not look ahead succeeds where one aligned with it does, with the same
records. -/
theorem Sound.Aligned.runWith_ok {h : job.Sound endian acc boundary looksAhead}
    {h' : job'.Sound endian' acc boundary' false} (haligned : h.Aligned h')
    {states : List (List Record)} (hrun : job.runWith = .ok states) :
    ∃ states', job'.runWith = .ok states' ∧ states'.flatten = states.flatten := by
  have hcount := haligned.chunkCount
  have hempty : ∀ idx, idx < job.chunkCount →
      ((job.processChunk idx).passes = [] ↔ (job'.processChunk idx).passes = []) := by
    intro idx hidx
    have hiff := haligned.hasPass_iff hidx
    rw [← (job.processChunk_spec idx).2, ← (job'.processChunk_spec idx).2] at hiff
    exact not_iff_not.mp hiff
  by_cases hnone : ∀ idx, idx < job.chunkCount → (job.processChunk idx).passes = []
  · rw [runWith_none hnone] at hrun
    cases hrun
    refine ⟨[], runWith_none fun idx hidx => ?_, rfl⟩
    rw [← hcount] at hidx
    exact (hempty idx hidx).mp (hnone idx hidx)
  · have hsome : ∃ idx, idx < job.chunkCount ∧ (job.processChunk idx).passes ≠ [] := by
      by_contra hall
      exact hnone fun idx hidx => by_contra fun hne => hall ⟨idx, hidx, hne⟩
    classical
    obtain ⟨hfirst, hpasses⟩ := Nat.find_spec hsome
    have hbefore : ∀ idx, idx < Nat.find hsome → (job.processChunk idx).passes = [] := by
      intro idx hlt
      by_contra hne
      exact Nat.find_min hsome hlt ⟨hlt.trans hfirst, hne⟩
    generalize Nat.find hsome = first at hfirst hpasses hbefore
    obtain ⟨pass, rest, hcons⟩ := List.exists_cons_of_ne_nil hpasses
    have hhead : (job.processChunk first).passes.head?.map ResolvedPass.recordStart =
        some pass.recordStart := by
      rw [hcons]
      rfl
    have hfollows := h.follows_first hfirst hbefore hhead
    have hfollows' := h'.follows_first (hfirst.trans_eq hcount)
      (fun idx hlt => (hempty idx (hlt.trans hfirst)).mp (hbefore idx hlt))
      ((haligned.head first hfirst).symm.trans hhead)
    have hstop : ∀ idx, h'.spec.stop idx = h.spec.stop idx := by
      intro idx
      rw [h.spec_stop, h'.spec_stop, chunkStop_eq, chunkStop_eq, haligned.chunkSize, haligned.data]
    rw [hrun] at hfollows
    cases hrun' : job'.runWith with
    | error err =>
        rw [hrun'] at hfollows'
        obtain ⟨idx, hidx, hpass, hbase, hbody⟩ := h'.body_of_failed haligned.reliable' hfollows'
        rw [hstop] at hbase hbody
        rw [← haligned.body] at hbody
        rw [← hcount] at hidx
        rcases hfollows.body_of_le h hidx ((haligned.hasPass_iff hidx).mpr hpass) with
          ⟨c, next, hle, hlen, hall⟩ | ⟨next, hall⟩
        · rw [h.seq.error hbase hle hlen hbody] at hall
          cases hall
        · rw [hbody] at hall
          cases hall
    | ok states' =>
        rw [hrun'] at hfollows'
        refine ⟨states', rfl, ?_⟩
        -- either run has merged what the other one has come to
        obtain ⟨idx, hidx, hpass, hbase, next, hbody⟩ := hfollows.reached_chunk h
        obtain ⟨idx', hidx', hpass', hbase', next', hbody'⟩ := hfollows'.reached_chunk h'
        rw [← hstop, haligned.body] at hbody
        rw [← hstop] at hbase
        rw [hstop, ← haligned.body] at hbody'
        rw [hstop] at hbase'
        have hleft := hfollows'.records_prefix h' (hidx.trans_eq hcount)
          ((haligned.hasPass_iff hidx).mp hpass) hbase hbody
        rw [← hcount] at hidx'
        have hright := hfollows.records_prefix h hidx' ((haligned.hasPass_iff hidx').mpr hpass')
          hbase' hbody'
        exact hright.sublist.antisymm hleft.sublist

end Agreement

end Job

/-- The same dialect on the byte automaton. -/
def onDfa (config : ValidConfig) : ValidConfig where
  config := { config.config with parserBackend := .dfa }
  valid := config.valid

section Simd

variable {platform platform' : Platform} {config : ValidConfig} {acc : RecordWise} {data : Input}
  {env env' : Environment}

theorem boundaryFor_onDfa (hbackend : resolveParserBackend config.config = .ok .simd)
    (hescape : config.config.escape = config.config.quote) (endian endian' : Endian)
    (find : FindRecordStart) {assumption : Assumption}
    (hmem : assumption ∈ assumptionsForConfig config.config.quote config.config.escape)
    (bytes : Bytes) :
    Job.boundaryFor endian config.config (Simd.boundaryOf config.config) assumption find bytes =
      Job.boundaryFor endian' (onDfa config).config (Dfa.boundaryOf endian' (onDfa config).config)
        assumption find bytes := by
  have hs := Simd.supported_of_supports config.distinct (supports_of_resolve hbackend)
  have hdoubled : config.config.doubledQuotes = true ∨ config.config.quote = none := by
    cases hquote : config.config.quote with
    | none => exact Or.inr rfl
    | some q => exact Or.inl (hs.doubledQuotes_of_escape (hescape.trans hquote))
  have hfound : ∀ strict, Simd.boundaryOf config.config assumption strict bytes =
      Dfa.boundaryOf endian' (onDfa config).config assumption strict bytes :=
    fun strict => Simd.boundaryOf_eq hs config.distinct endian' hmem (fun _ => hdoubled) bytes
  cases find with
  | no => rfl
  | skipHeaders =>
      exact congrArg Dfa.BufferScan.boundary
        (Dfa.scanBytes_endian endian endian' config.config false _ 0 bytes)
  | strict => exact hfound true
  | lenient => exact hfound false

/-- A run of the vectorized backend that succeeds yields what the byte automaton's run yields,
on any machine and by any readers. -/
theorem runSlice_refines (hbackend : resolveParserBackend config.config = .ok .simd)
    (hchunk : config.config.chunkSize ≠ 0)
    (hescape : config.config.escape = config.config.quote) (hreliable : env.Reliable)
    (hreliable' : env'.Reliable) {states : List (List Record)}
    (hrun : runSlice platform config .bytes acc.accumulator [] data env = .ok states) :
    ∃ states', runSlice platform' (onDfa config) .bytes acc.accumulator [] data env' =
        .ok states' ∧ states'.flatten = states.flatten := by
  have hcomment : config.config.comment = none :=
    (Simd.supported_of_supports config.distinct (supports_of_resolve hbackend)).comment
  have h := @sound_recordJob platform config acc data env _ hbackend hcomment
  have h' := @sound_recordJob platform' (onDfa config) acc data env' .dfa rfl hcomment
  have hagree : h.Agree h' := {
    reliable := hreliable
    reliable' := hreliable'
    findMode := rfl
    assumptions := rfl
    chunkSize := (if_pos hchunk).trans (if_pos hchunk).symm
    data := rfl
    boundary := fun find _ hmem bytes =>
      boundaryFor_onDfa hbackend hescape platform.endian platform'.endian find hmem bytes
    body := by
      funext p c
      change Dfa.bodyRecords (Dfa.reference platform.endian config.config) acc data.bytes p c =
        Dfa.bodyRecords (Dfa.reference platform'.endian config.config) acc data.bytes p c
      rw [Dfa.bodyRecords, Dfa.bodyRecords, Dfa.refParse_endian platform.endian platform'.endian] }
  rw [runSlice_eq hbackend] at hrun
  rw [runSlice_eq (show resolveParserBackend (onDfa config).config = .ok .dfa from rfl)]
  exact hagree.aligned.runWith_ok hrun

/-- Two fields a record, in chunks of four bytes. -/
def pairs4 : ValidConfig := ⟨{ Config.default with fieldCount := some 2, chunkSize := 4 }, rfl⟩

/-- A header row, and a record in quotes that a chunk ends within. -/
theorem runSlice_refines_quoted :
    ∃ states', runSlice ⟨.big, ⟨true⟩⟩ (onDfa pairs4) .bytes RecordWise.acceptAll.accumulator []
        ⟨[97, 44, 98, 10, 34, 99, 10, 34, 44, 100, 10], by decide⟩ exactReaders = .ok states' ∧
      states'.flatten = [[[99, 10], [100]]] := by
  have hrun : runSlice scalarPlatform pairs4 .bytes RecordWise.acceptAll.accumulator []
      ⟨[97, 44, 98, 10, 34, 99, 10, 34, 44, 100, 10], by decide⟩ exactReaders =
        .ok [[[[99, 10], [100]]], []] := by
    decide +kernel
  exact runSlice_refines rfl (by decide) rfl reliable_exactReaders reliable_exactReaders hrun

end Simd

end Scheduler

end Csveee
