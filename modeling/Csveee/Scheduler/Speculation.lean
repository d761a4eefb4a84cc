import Csveee.Parser.Contract
import Csveee.Scheduler.MergeCorrect
import Csveee.Scheduler.Run

/-!
# Speculative passes are truthful

Each pass of a chunk tells what the sequential parse would do from the boundary the
pass starts from: the outputs of a run meet what the merge relies on.
-/

namespace Csveee.Scheduler

namespace Job

section Passes

variable {σ : Type} (job : Job σ) (idx start stop : ℕ)

/-- The pass is the outcome of an attempt; the one that succeeds reports the record
end. -/
def PassOf (find : FindRecordStart) (assumption : Assumption) (pass : ResolvedPass σ)
    (recordEnd : Option ℕ) : Prop :=
  let pr := job.attempt idx start stop find assumption
  ∃ off, pr.recordStart = some off ∧ pass.recordStart = start + off ∧
    match pr.result with
    | .ok state => pass.result = .ok state ∧ recordEnd = pr.recordEnd.map (start + ·)
    | .error err => pass.result = .error (err.withBase start)

/-- An attempt that found a boundary. -/
def Starts (find : FindRecordStart) (assumption : Assumption) : Prop :=
  (job.attempt idx start stop find assumption).recordStart.isSome = true

/-- An attempt that failed before it found a boundary. -/
def FailsEarly (find : FindRecordStart) (assumption : Assumption) : Prop :=
  ∃ err, (job.attempt idx start stop find assumption).recordStart = none ∧
    (job.attempt idx start stop find assumption).result = .error err

/-- What the loop over the assumptions comes to, from the passes so far on. -/
def Tried (find : FindRecordStart) (assumptions : List Assumption)
    (passes : List (ResolvedPass σ)) (sawClean : Bool) : TryOutcome σ → Prop
  | .resolved passes' recordEnd => passes' ≠ [] ∧
      (∀ pass ∈ passes', pass ∈ passes ∨
        ∃ assumption ∈ assumptions, job.PassOf idx start stop find assumption pass recordEnd) ∧
      (passes ≠ [] ∨ ∃ assumption ∈ assumptions, job.Starts idx start stop find assumption)
  | .cleanNoBoundary => passes = [] ∧
      (∀ assumption ∈ assumptions, ¬ job.Starts idx start stop find assumption) ∧
      (sawClean = true ∨ ∃ assumption ∈ assumptions,
        ¬ job.FailsEarly idx start stop find assumption)
  | .allFailed => passes = [] ∧ sawClean = false ∧
      ∀ assumption ∈ assumptions, job.FailsEarly idx start stop find assumption

variable {job idx start stop} {find : FindRecordStart} {assumption : Assumption}
  {assumptions : List Assumption} {passes : List (ResolvedPass σ)} {outcome : TryOutcome σ}

/-- An attempt that failed past its boundary leaves a pass, and the loop goes on. -/
theorem Tried.pass {pass : ResolvedPass σ} {sawClean : Bool}
    (h : job.Tried idx start stop find assumptions (passes ++ [pass]) sawClean outcome)
    (hpass : ∀ recordEnd, job.PassOf idx start stop find assumption pass recordEnd)
    (hstarts : job.Starts idx start stop find assumption) :
    job.Tried idx start stop find (assumption :: assumptions) passes sawClean outcome := by
  have hne : passes ++ [pass] ≠ [] := by simp
  cases outcome with
  | resolved passes' recordEnd =>
      obtain ⟨hpasses, hfrom, -⟩ := h
      refine ⟨hpasses, fun pass' hmem => ?_, Or.inr ⟨assumption, List.mem_cons_self, hstarts⟩⟩
      rcases hfrom pass' hmem with hmem | ⟨other, hother, hof⟩
      · rcases List.mem_append.mp hmem with hmem | hmem
        · exact Or.inl hmem
        · rw [List.mem_singleton.mp hmem]
          exact Or.inr ⟨assumption, List.mem_cons_self, hpass recordEnd⟩
      · exact Or.inr ⟨other, List.mem_cons_of_mem _ hother, hof⟩
  | cleanNoBoundary => exact absurd h.1 hne
  | allFailed => exact absurd h.1 hne

theorem Tried.skip {sawClean sawClean' : Bool}
    (h : job.Tried idx start stop find assumptions passes sawClean' outcome)
    (hstarts : ¬ job.Starts idx start stop find assumption)
    (hclean : sawClean' = true → sawClean = true ∨
      ¬ job.FailsEarly idx start stop find assumption)
    (hfailed : sawClean' = false → sawClean = false ∧
      job.FailsEarly idx start stop find assumption) :
    job.Tried idx start stop find (assumption :: assumptions) passes sawClean outcome := by
  cases outcome with
  | resolved passes' recordEnd =>
      obtain ⟨hpasses, hfrom, hsome⟩ := h
      refine ⟨hpasses, fun pass hmem => ?_, ?_⟩
      · rcases hfrom pass hmem with hmem | ⟨other, hother, hof⟩
        · exact Or.inl hmem
        · exact Or.inr ⟨other, List.mem_cons_of_mem _ hother, hof⟩
      · rcases hsome with hne | ⟨other, hother, hstarts⟩
        · exact Or.inl hne
        · exact Or.inr ⟨other, List.mem_cons_of_mem _ hother, hstarts⟩
  | cleanNoBoundary =>
      obtain ⟨hpasses, hnone, hsome⟩ := h
      refine ⟨hpasses, fun other hother => ?_, ?_⟩
      · rcases List.mem_cons.mp hother with rfl | hother
        · exact hstarts
        · exact hnone other hother
      · rcases hsome with hsaw | ⟨other, hother, hfails⟩
        · rcases hclean hsaw with hsaw | hfails
          · exact Or.inl hsaw
          · exact Or.inr ⟨assumption, List.mem_cons_self, hfails⟩
        · exact Or.inr ⟨other, List.mem_cons_of_mem _ hother, hfails⟩
  | allFailed =>
      obtain ⟨hpasses, hsaw, hall⟩ := h
      obtain ⟨hsaw, hfails⟩ := hfailed hsaw
      refine ⟨hpasses, hsaw, fun other hother => ?_⟩
      rcases List.mem_cons.mp hother with rfl | hother
      · exact hfails
      · exact hall other hother

theorem tryLoop_spec (assumptions : List Assumption) (passes : List (ResolvedPass σ))
    (sawClean : Bool) :
    job.Tried idx start stop find assumptions passes sawClean
      (job.tryLoop idx start stop find assumptions passes sawClean) := by
  induction assumptions generalizing passes sawClean with
  | nil =>
      rw [tryLoop]
      cases passes with
      | nil =>
          cases sawClean with
          | true => exact ⟨rfl, by simp, Or.inl rfl⟩
          | false => exact ⟨rfl, rfl, by simp⟩
      | cons pass passes =>
          exact ⟨List.cons_ne_nil _ _, fun _ hmem => Or.inl hmem, Or.inl (List.cons_ne_nil _ _)⟩
  | cons assumption assumptions ih =>
      rw [tryLoop]
      cases hstart : (job.attempt idx start stop find assumption).recordStart with
      | some off =>
          have hstarts : job.Starts idx start stop find assumption := by
            rw [Starts, hstart]
            rfl
          cases hresult : (job.attempt idx start stop find assumption).result with
          | ok state =>
              refine ⟨by simp, fun pass hmem => ?_, Or.inr ⟨assumption, List.mem_cons_self,
                hstarts⟩⟩
              rcases List.mem_append.mp hmem with hmem | hmem
              · exact Or.inl hmem
              · rw [List.mem_singleton.mp hmem]
                refine Or.inr ⟨assumption, List.mem_cons_self, off, hstart, rfl, ?_⟩
                rw [hresult]
                exact ⟨rfl, rfl⟩
          | error err =>
              refine Tried.pass (ih _ sawClean) (fun recordEnd => ⟨off, hstart, rfl, ?_⟩) hstarts
              rw [hresult]
      | none =>
          have hstarts : ¬ job.Starts idx start stop find assumption := by
            rw [Starts, hstart]
            exact Bool.false_ne_true
          cases hresult : (job.attempt idx start stop find assumption).result with
          | ok state =>
              refine Tried.skip (ih passes true) hstarts (fun _ => Or.inr ?_)
                (fun hfalse => by cases hfalse)
              rintro ⟨err, -, herr⟩
              rw [hresult] at herr
              cases herr
          | error err =>
              exact Tried.skip (ih passes sawClean) hstarts Or.inl
                fun hsaw => ⟨hsaw, err, hstart, hresult⟩

end Passes

section Chunks

variable {σ : Type} (job : Job σ)

def assumptions : List Assumption :=
  assumptionsForConfig job.config.quote job.config.escape

/-- Where the `idx`-th chunk starts and ends. -/
def chunkStart (idx : ℕ) : ℕ := idx * job.chunkSize

def chunkStop (idx : ℕ) : ℕ := min (idx * job.chunkSize + job.chunkSize) job.data.length

/-- Some assumption finds a boundary in the chunk; where the strict probe rejects
them all, the scan without it counts. -/
def HasPass (idx : ℕ) : Prop :=
  (∃ assumption ∈ job.assumptions,
    job.Starts idx (job.chunkStart idx) (job.chunkStop idx) (findMode job.config idx)
      assumption) ∨
  findMode job.config idx = .strict ∧
    (∀ assumption ∈ job.assumptions,
      job.FailsEarly idx (job.chunkStart idx) (job.chunkStop idx) .strict assumption) ∧
    ∃ assumption ∈ job.assumptions,
      job.Starts idx (job.chunkStart idx) (job.chunkStop idx) .lenient assumption

theorem not_starts_of_failsEarly {idx start stop : ℕ} {find : FindRecordStart}
    {assumption : Assumption} (h : job.FailsEarly idx start stop find assumption) :
    ¬ job.Starts idx start stop find assumption := by
  obtain ⟨err, hstart, -⟩ := h
  rw [Starts, hstart]
  exact Bool.false_ne_true

/-- The chunk has a pass exactly when an assumption finds a boundary, and its passes
are outcomes of attempts. -/
theorem processChunk_spec (idx : ℕ) :
    (∀ pass ∈ (job.processChunk idx).passes, ∃ find, ∃ assumption ∈ job.assumptions,
      (find = findMode job.config idx ∨ findMode job.config idx = .strict ∧ find = .lenient) ∧
        job.PassOf idx (job.chunkStart idx) (job.chunkStop idx) find assumption pass
          (job.processChunk idx).recordEnd) ∧
      ((job.processChunk idx).passes ≠ [] ↔ job.HasPass idx) := by
  have htried := fun find => @tryLoop_spec _ job idx (job.chunkStart idx) (job.chunkStop idx)
    find job.assumptions [] false
  have hfirst := htried (findMode job.config idx)
  simp only [processChunk, tryAssumptions]
  simp only [chunkStart, chunkStop, assumptions] at htried hfirst
  cases hloop : job.tryLoop idx (idx * job.chunkSize)
      (min (idx * job.chunkSize + job.chunkSize) job.data.length) (findMode job.config idx)
      (assumptionsForConfig job.config.quote job.config.escape) [] false with
  | resolved passes recordEnd =>
      rw [hloop] at hfirst
      obtain ⟨hpasses, hfrom, hsome⟩ := hfirst
      refine ⟨fun pass hmem => ?_, fun _ => Or.inl ?_, fun _ => hpasses⟩
      · rcases hfrom pass hmem with hmem | ⟨assumption, hmem, hof⟩
        · cases hmem
        · exact ⟨_, assumption, hmem, Or.inl rfl, hof⟩
      · rcases hsome with hne | hsome
        · exact absurd rfl hne
        · exact hsome
  | cleanNoBoundary =>
      rw [hloop] at hfirst
      obtain ⟨-, hnone, hsome⟩ := hfirst
      refine ⟨fun _ hmem => absurd hmem List.not_mem_nil, fun hne => absurd rfl hne, ?_⟩
      rintro (⟨assumption, hmem, hstarts⟩ | ⟨hstrict, hall, -⟩)
      · exact absurd hstarts (hnone assumption hmem)
      · rcases hsome with hfalse | ⟨assumption, hmem, hclean⟩
        · cases hfalse
        · rw [hstrict] at hclean
          exact absurd (hall assumption hmem) hclean
  | allFailed =>
      rw [hloop] at hfirst
      obtain ⟨-, -, hall⟩ := hfirst
      have hnone : ¬ ∃ assumption ∈ job.assumptions, job.Starts idx (job.chunkStart idx)
          (job.chunkStop idx) (findMode job.config idx) assumption := by
        rintro ⟨assumption, hmem, hstarts⟩
        exact not_starts_of_failsEarly job (hall assumption hmem) hstarts
      by_cases hstrict : findMode job.config idx = .strict
      · simp only [hstrict, if_true]
        have hsecond := htried .lenient
        cases hloop' : job.tryLoop idx (idx * job.chunkSize)
            (min (idx * job.chunkSize + job.chunkSize) job.data.length) .lenient
            (assumptionsForConfig job.config.quote job.config.escape) [] false with
        | resolved passes recordEnd =>
            rw [hloop'] at hsecond
            obtain ⟨hpasses, hfrom, hsome⟩ := hsecond
            refine ⟨fun pass hmem => ?_, fun _ => Or.inr ⟨hstrict, ?_, ?_⟩, fun _ => hpasses⟩
            · rcases hfrom pass hmem with hmem | ⟨assumption, hmem, hof⟩
              · cases hmem
              · exact ⟨_, assumption, hmem, Or.inr ⟨trivial, rfl⟩, hof⟩
            · rw [hstrict] at hall
              exact hall
            · rcases hsome with hne | hsome
              · exact absurd rfl hne
              · exact hsome
        | cleanNoBoundary =>
            rw [hloop'] at hsecond
            refine ⟨fun _ hmem => absurd hmem List.not_mem_nil, fun hne => absurd rfl hne, ?_⟩
            rintro (hsome | ⟨-, -, assumption, hmem, hstarts⟩)
            · exact absurd hsome hnone
            · exact absurd hstarts (hsecond.2.1 assumption hmem)
        | allFailed =>
            rw [hloop'] at hsecond
            refine ⟨fun _ hmem => absurd hmem List.not_mem_nil, fun hne => absurd rfl hne, ?_⟩
            rintro (hsome | ⟨-, -, assumption, hmem, hstarts⟩)
            · exact absurd hsome hnone
            · exact absurd hstarts
                (not_starts_of_failsEarly job (hsecond.2.2 assumption hmem))
      · simp only [if_neg hstrict]
        refine ⟨fun _ hmem => absurd hmem List.not_mem_nil, fun hne => absurd rfl hne, ?_⟩
        rintro (hsome | ⟨hfalse, -⟩)
        · exact absurd hsome hnone
        · exact absurd hfalse hstrict

end Chunks

end Job

/-- A run over a comment-free dialect, whose chunk parser keeps the contract. -/
structure Job.Sound (job : Job (List Record)) (endian : Endian) (acc : RecordWise)
    (boundary : Assumption → Bool → Bytes → Boundary) (looksAhead : Bool) : Prop where
  contract : job.parser.Contract endian job.config acc boundary looksAhead
  distinct : job.config.Distinct
  comment : job.config.comment = none
  init : job.init = []
  chunkSize : 0 < job.chunkSize

namespace Job

/-- The boundary an attempt starts from. -/
def boundaryFor (endian : Endian) (config : Config)
    (boundary : Assumption → Bool → Bytes → Boundary) (assumption : Assumption)
    (find : FindRecordStart) (bytes : Bytes) : Boundary :=
  match find with
  | .no => .found 0
  | .skipHeaders => Dfa.headerEndOf endian config bytes
  | .strict => boundary assumption true bytes
  | .lenient => boundary assumption false bytes

/-- Some `fill` call of the run fails. -/
def Fallible (env : Environment) : Prop := ∃ id failure, (env id).FailsWith failure

theorem not_fallible {env : Environment} (h : env.Reliable) : ¬ Fallible env :=
  fun ⟨id, failure, hfails⟩ => (h id).not_failsWith failure hfails

variable {job : Job (List Record)} {endian : Endian} {acc : RecordWise}
  {boundary : Assumption → Bool → Bytes → Boundary} {looksAhead : Bool}

/-- The sequential parse of the run's input. -/
def Sound.seq (h : job.Sound endian acc boundary looksAhead) : Sequential Record Unit :=
  Dfa.sequential (Dfa.shape_reference h.distinct endian)
    (Dfa.commentFree_reference h.distinct h.comment endian) acc job.data

/-- The parse from `p` fails by the end `stop` of a chunk, or past it for a parser that
looks ahead. -/
def Sound.FailsBy (h : job.Sound endian acc boundary looksAhead) (p stop : ℕ) : Prop :=
  ∃ c, stop ≤ c ∧ c ≤ job.data.length ∧ (c = stop ∨ looksAhead = true) ∧
    h.seq.body p c = .error ()

/-- What an attempt on the bytes from `start` to `stop` reports. -/
def Sound.Reports (h : job.Sound endian acc boundary looksAhead) (schedule : Schedule)
    (found : Boundary) (start stop : ℕ) (pr : PassResult (List Record)) : Prop :=
  match pr.recordStart, pr.result with
  | some off, .ok records => found = .found off ∧
      ∃ next, h.seq.body (start + off) stop = .ok (records, next) ∧
        (stop < h.seq.len → next = pr.recordEnd.map (start + ·))
  | some off, .error _ => found = .found off ∧
      ((∃ failure, schedule.FailsWith failure) ∨ h.FailsBy (start + off) stop)
  | none, .ok records => found = .absent ∧ records = []
  | none, .error _ => (∃ off, found = .rejected off) ∨ ∃ failure, schedule.FailsWith failure

theorem Sound.reports_ok (h : job.Sound endian acc boundary looksAhead) {schedule : Schedule}
    {start stop off : ℕ} {records : List Record} {recordEnd : Option ℕ}
    (hbody : ∃ next, h.seq.body (start + off) stop = .ok (records, next) ∧
      (stop < h.seq.len → next = recordEnd.map (start + ·))) :
    h.Reports schedule (.found off) start stop (.started off (.ok recordEnd) records) :=
  ⟨rfl, hbody⟩

theorem Sound.reports_error (h : job.Sound endian acc boundary looksAhead) {schedule : Schedule}
    {start stop off : ℕ} {records : List Record} {err : Error}
    (hfails : (∃ failure, schedule.FailsWith failure) ∨ h.FailsBy (start + off) stop) :
    h.Reports schedule (.found off) start stop (.started off (.error err) records) :=
  ⟨rfl, hfails⟩

/-- A parse of the rest of a chunk, told in offsets of the whole input. -/
theorem Sound.body_of_refParse (h : job.Sound endian acc boundary looksAhead) {start stop off n : ℕ}
    {records : List Record} {next : Option ℕ} (hstop : start + off + n ≤ stop)
    (hn : n ≤ blankRun job.config (job.data.drop (start + off)))
    (hparse : Dfa.refParse (Dfa.reference endian job.config) acc.accumulator (stop - start)
      (off + n) (job.data.drop (start + off + n)) [] = (records, .ok next)) :
    ∃ next', h.seq.body (start + off) stop = .ok (records, next') ∧
      (stop < h.seq.len → next' = next.map (start + ·)) := by
  have hshift := Dfa.refParse_ok_shift start hparse
  rw [Nat.add_sub_cancel' (by omega), ← Nat.add_assoc, ← List.drop_drop,
    Dfa.refParse_skip h.distinct endian _ stop (start + off) n _ [] hn hstop] at hshift
  exact ⟨_, Dfa.bodyRecords_ok.mpr ⟨_, hshift, rfl⟩, fun hlt => if_pos hlt⟩

theorem Sound.failsBy_of_refParse (h : job.Sound endian acc boundary looksAhead)
    {start stop off n ahead : ℕ} {records : List Record} {err : Error}
    (hstop : start + off + n ≤ stop) (hlen : stop ≤ job.data.length)
    (hn : n ≤ blankRun job.config (job.data.drop (start + off)))
    (hahead : ahead = 0 ∨ looksAhead = true)
    (hparse : Dfa.refParse (Dfa.reference endian job.config) acc.accumulator
      (stop - start + ahead) (off + n) (job.data.drop (start + off + n)) [] =
        (records, .error err)) :
    h.FailsBy (start + off) stop := by
  obtain ⟨err', hshift⟩ := Dfa.refParse_error_shift start hparse
  rw [← Nat.add_assoc start, Nat.add_sub_cancel' (by omega), ← Nat.add_assoc, ← List.drop_drop,
    Dfa.refParse_skip h.distinct endian _ _ (start + off) n _ [] hn (by omega)] at hshift
  by_cases hc : stop + ahead ≤ job.data.length
  · refine ⟨stop + ahead, Nat.le_add_right _ _, hc, ?_, Dfa.bodyRecords_error.mpr ⟨_, _, hshift⟩⟩
    exact hahead.imp_left fun hzero => by rw [hzero, Nat.add_zero]
  · -- past the input's end, every chunk end is alike
    refine ⟨job.data.length, hlen, Nat.le_refl _, hahead.imp_left fun hzero => by omega,
      Dfa.bodyRecords_error.mpr ⟨records, err', ?_⟩⟩
    rw [← hshift]
    have hlength := List.length_drop (i := start + off) (l := job.data)
    exact Dfa.RefState.run_chunkEnd_congr _ _ (start + off) _ _ (by omega) (by omega)

/-- A reader of the input from `start` whose chunk ends at `stop`, or goes on past the
end of the input. -/
structure Windows (job : Job (List Record)) (reader : ChunkReader) (start stop : ℕ) : Prop where
  pending : reader.pending = job.data.drop start
  chunkRemaining : reader.chunkRemaining = stop - start ∨
    stop = job.data.length ∧ stop - start ≤ reader.chunkRemaining

theorem windows_sliceReader (schedule : Schedule) (start stop : ℕ) :
    job.Windows (sliceReader job.data schedule start stop) start stop :=
  ⟨rfl, Or.inl rfl⟩

/-- A chunk that goes on past the end of the input is one that ends there. -/
theorem Sound.refParse_of_windows (_ : job.Sound endian acc boundary looksAhead)
    {start stop n rem : ℕ} (ahead : ℕ) (hn : start + n ≤ stop)
    (hrem : rem = stop - (start + n) ∨ stop = job.data.length ∧ stop - (start + n) ≤ rem) :
    Dfa.refParse (Dfa.reference endian job.config) acc.accumulator (n + rem + ahead) n
        (job.data.drop (start + n)) [] =
      Dfa.refParse (Dfa.reference endian job.config) acc.accumulator (stop - start + ahead) n
        (job.data.drop (start + n)) [] := by
  rcases hrem with hrem | ⟨hlen, hrem⟩
  · rw [hrem, show n + (stop - (start + n)) = stop - start by omega]
  · have hlength : (job.data.drop (start + n)).length = stop - (start + n) := by
      rw [List.length_drop, hlen]
    exact Dfa.RefState.run_chunkEnd_congr _ _ n _ _ (by omega) (by omega)

/-- What a parse from a known boundary reports. -/
theorem Sound.parseBody_spec (h : job.Sound endian acc boundary looksAhead)
    {origin reader : ChunkReader} {start stop off : ℕ} (hoff : start + off ≤ stop)
    (hstop : stop ≤ job.data.length) (horigin : job.Windows origin start stop)
    (hreader : origin.Advanced off reader) :
    h.Reports origin.schedule (.found off) start stop (job.parser.parseBody reader [] off) := by
  have hpending : reader.pending = job.data.drop (start + off) := by
    rw [hreader.pending, horigin.pending, List.drop_drop]
  have hremaining : reader.chunkRemaining = stop - (start + off) ∨
      stop = job.data.length ∧ stop - (start + off) ≤ reader.chunkRemaining := by
    have hrem := horigin.chunkRemaining
    rw [hreader.chunkRemaining]
    omega
  have hblank := blankRun_le job.config (job.data.drop (start + off))
  rw [List.length_drop] at hblank
  have hskip := skipEmptyLines_spec job.config reader
  rw [ChunkParser.parseBody, h.contract.dialect]
  cases hresult : skipEmptyLines job.config reader with
  | error err =>
      rw [hresult] at hskip
      obtain ⟨failure, hfails, rfl⟩ := hskip
      obtain ⟨call, hcall⟩ := hfails
      exact h.reports_error (Or.inl ⟨failure, hreader.schedule.failsWith hcall⟩)
  | ok found =>
      obtain ⟨later, skipped, straddles⟩ := found
      rw [hresult] at hskip
      obtain ⟨hskipped, hstraddles, hlater⟩ := hskip
      rw [hpending] at hskipped hstraddles
      cases straddles with
      | true =>
          -- the run outlasts the chunk
          have hlt := of_decide_eq_true hstraddles.symm
          have hrem : reader.chunkRemaining = stop - (start + off) := by omega
          rw [hrem] at hlt hskipped
          refine h.reports_ok ⟨_, Dfa.bodyRecords_ok.mpr ⟨_, Dfa.refParse_straddle h.distinct
            endian _ stop (start + off) _ [] hoff hlt, rfl⟩, fun hstop => ?_⟩
          rw [show stop = start + (off + skipped) by omega] at hstop ⊢
          exact if_pos hstop
      | false =>
          have hle := of_decide_eq_false hstraddles.symm
          have hpending' : later.pending = job.data.drop (start + off + skipped) := by
            rw [hlater.pending, hpending, List.drop_drop]
          have hremaining' : later.chunkRemaining = stop - (start + (off + skipped)) ∨
              stop = job.data.length ∧
                stop - (start + (off + skipped)) ≤ later.chunkRemaining := by
            rw [hlater.chunkRemaining]
            omega
          have hn : skipped ≤ blankRun job.config (job.data.drop (start + off)) := by omega
          have hsum : start + off + skipped ≤ stop := by omega
          have hblank : blankRun job.config later.pending = 0 := by
            rw [hpending', ← List.drop_drop, blankRun_drop _ _ _ hn]
            omega
          cases hparse : job.parser.parseFrom later [] (off + skipped) with
          | mk records outcome =>
              simp only [hparse]
              cases outcome with
              | ok next =>
                  have hbody := h.contract.body_ok later _ _ _ hblank hparse
                  have hwindow := h.refParse_of_windows 0 (by omega) hremaining'
                  rw [Nat.add_zero, Nat.add_zero, ← Nat.add_assoc] at hwindow
                  rw [hpending', hwindow] at hbody
                  obtain ⟨next', hbody', hnext⟩ := h.body_of_refParse hsum hn hbody
                  exact h.reports_ok ⟨next', hbody', hnext⟩
              | error err =>
                  apply h.reports_error
                  rcases h.contract.body_error later _ _ _ hblank hparse with
                    ⟨failure, call, hcall⟩ | ⟨ahead, records', err', hahead, hbody⟩
                  · obtain ⟨call', hcall'⟩ := hlater.schedule.failsWith hcall
                    exact Or.inl ⟨failure, hreader.schedule.failsWith hcall'⟩
                  · have hwindow := h.refParse_of_windows ahead (by omega) hremaining'
                    rw [← Nat.add_assoc start] at hwindow
                    rw [hpending', hwindow] at hbody
                    exact Or.inr (h.failsBy_of_refParse hsum hstop hn hahead hbody)

theorem Sound.boundaryFor_lt (h : job.Sound endian acc boundary looksAhead)
    {assumption : Assumption} {find : FindRecordStart} {bytes : Bytes} {off : ℕ}
    (hfound : boundaryFor endian job.config boundary assumption find bytes = .found off) :
    find = .no ∧ off = 0 ∨ off < bytes.length := by
  cases find with
  | no =>
      cases hfound
      exact Or.inl ⟨rfl, rfl⟩
  | skipHeaders => exact Or.inr (Dfa.lt_of_boundary_found hfound)
  | strict => exact Or.inr (h.contract.within _ _ _ _ hfound)
  | lenient => exact Or.inr (h.contract.within _ _ _ _ hfound)

def chunkBytes (job : Job (List Record)) (start stop : ℕ) : Bytes :=
  (job.data.drop start).take (stop - start)

theorem length_chunkBytes {start stop : ℕ} (hstop : stop ≤ job.data.length) :
    (job.chunkBytes start stop).length = stop - start := by
  rw [chunkBytes, List.length_take, List.length_drop]
  omega

/-- An attempt reports what the boundary scan finds in the bytes of the chunk. -/
theorem Sound.parse_spec (h : job.Sound endian acc boundary looksAhead) {origin : ChunkReader}
    {start stop : ℕ} (hstart : start ≤ stop) (hstop : stop ≤ job.data.length)
    (horigin : job.Windows origin start stop) (find : FindRecordStart)
    (assumption : Assumption) :
    h.Reports origin.schedule
      (boundaryFor endian job.config boundary assumption find (job.chunkBytes start stop))
      start stop (job.parser.parse origin [] assumption find) := by
  have hbytes : origin.pending.take origin.chunkRemaining = job.chunkBytes start stop := by
    rw [horigin.pending, chunkBytes]
    rcases horigin.chunkRemaining with hrem | ⟨hlen, hrem⟩
    · rw [hrem]
    · rw [List.take_of_length_le (by rw [List.length_drop]; omega),
        List.take_of_length_le (by rw [List.length_drop]; omega)]
  have hscan : ScanOutcome.Matches origin
      (boundaryFor endian job.config boundary assumption find (job.chunkBytes start stop))
      (job.parser.scan origin assumption find) := by
    rw [← hbytes]
    cases find with
    | no => exact ⟨rfl, .refl _⟩
    | skipHeaders => exact h.contract.header _
    | strict => exact h.contract.scan _ assumption true
    | lenient => exact h.contract.scan _ assumption false
  have hbound := fun off => @Sound.boundaryFor_lt _ _ _ _ _ h assumption find
    (job.chunkBytes start stop) off
  rw [length_chunkBytes hstop] at hbound
  rw [ChunkParser.parse]
  cases hresult : job.parser.scan origin assumption find with
  | error err =>
      rw [hresult] at hscan
      rcases hscan with ⟨off, hrejected, -⟩ | ⟨failure, hfails, -⟩
      · exact Or.inl ⟨off, hrejected⟩
      · exact Or.inr ⟨failure, hfails⟩
  | ok found =>
      rw [hresult] at hscan
      cases found with
      | none => exact ⟨hscan, rfl⟩
      | some found =>
          obtain ⟨reader, off⟩ := found
          obtain ⟨hfound, hreader⟩ := hscan
          rw [hfound]
          refine h.parseBody_spec ?_ hstop horigin hreader
          rcases hbound off hfound with ⟨-, hoff⟩ | hoff
          · omega
          · omega

theorem Sound.attempt_spec (h : job.Sound endian acc boundary looksAhead) (idx : ℕ) {start stop : ℕ}
    (hstart : start ≤ stop) (hstop : stop ≤ job.data.length) (find : FindRecordStart)
    (assumption : Assumption) :
    h.Reports (job.env (.chunk idx find assumption))
      (boundaryFor endian job.config boundary assumption find (job.chunkBytes start stop))
      start stop (job.attempt idx start stop find assumption) := by
  rw [attempt, h.init]
  exact h.parse_spec hstart hstop (windows_sliceReader _ _ _) find assumption

theorem lt_chunkCount {idx : ℕ} (h : idx < job.chunkCount) :
    idx * job.chunkSize < job.data.length := by
  rw [chunkCount, divCeil] at h
  rcases Nat.eq_zero_or_pos job.chunkSize with hzero | hpos
  · rw [hzero, Nat.div_zero] at h
    omega
  · have hle := (Nat.le_div_iff_mul_le hpos).mp h
    rw [Nat.succ_mul] at hle
    omega

theorem chunkStop_eq (job : Job (List Record)) (idx : ℕ) :
    job.chunkStop idx = min ((idx + 1) * job.chunkSize) job.data.length := by
  rw [chunkStop, Nat.succ_mul]

/-- What the chunks of the run speculate about. -/
def Sound.spec (h : job.Sound endian acc boundary looksAhead) : Speculation Record Unit where
  seq := h.seq
  chunkSize := job.chunkSize
  HasPass k := k < job.chunkCount ∧ job.HasPass k
  Fails k p _ := Fallible job.env ∨ h.FailsBy p (job.chunkStop k)

theorem Sound.spec_stop (h : job.Sound endian acc boundary looksAhead) (k : ℕ) :
    h.spec.stop k = job.chunkStop k := (chunkStop_eq job k).symm

theorem chunkStart_le {idx : ℕ} (h : idx * job.chunkSize ≤ job.data.length) :
    job.chunkStart idx ≤ job.chunkStop idx := by
  rw [chunkStart, chunkStop]
  omega

/-- A pass is truthful about the boundary it starts from. -/
theorem Sound.passOf_spec (h : job.Sound endian acc boundary looksAhead) {idx start stop : ℕ}
    (hstart : start ≤ stop) (hstop : stop ≤ job.data.length) {find : FindRecordStart}
    {assumption : Assumption} {pass : ResolvedPass (List Record)} {recordEnd : Option ℕ}
    (hpass : job.PassOf idx start stop find assumption pass recordEnd) :
    (find = .no ∧ pass.recordStart = start ∨
      start ≤ pass.recordStart ∧ pass.recordStart < stop) ∧
    boundaryFor endian job.config boundary assumption find (job.chunkBytes start stop) =
      .found (pass.recordStart - start) ∧
    (∀ records, pass.result = .ok records →
      ∃ next, h.seq.body pass.recordStart stop = .ok (records, next) ∧
        (stop < h.seq.len → next = recordEnd)) ∧
    ∀ err, pass.result = .error err →
      Fallible job.env ∨ h.FailsBy pass.recordStart stop := by
  obtain ⟨off, hoff, hpassStart, hresult⟩ := hpass
  have hreports := h.attempt_spec idx hstart hstop find assumption
  rw [Sound.Reports, hoff] at hreports
  rw [hpassStart, Nat.add_sub_cancel_left]
  have hfound : boundaryFor endian job.config boundary assumption find
      (job.chunkBytes start stop) = .found off := by
    cases hattempt : (job.attempt idx start stop find assumption).result with
    | ok records =>
        rw [hattempt] at hreports
        exact hreports.1
    | error err =>
        rw [hattempt] at hreports
        exact hreports.1
  refine ⟨?_, hfound, ?_⟩
  · have hlt := h.boundaryFor_lt hfound
    rw [length_chunkBytes hstop] at hlt
    rcases hlt with ⟨hno, rfl⟩ | hlt
    · exact Or.inl ⟨hno, rfl⟩
    · exact Or.inr ⟨by omega, by omega⟩
  · cases hattempt : (job.attempt idx start stop find assumption).result with
    | ok records =>
        rw [hattempt] at hreports hresult
        obtain ⟨-, next, hbody, hnext⟩ := hreports
        refine ⟨fun records' hrecords => ?_, fun err herr => ?_⟩
        · rw [hresult.1] at hrecords
          cases hrecords
          exact ⟨next, hbody, fun hlt => (hnext hlt).trans hresult.2.symm⟩
        · rw [hresult.1] at herr
          cases herr
    | error err =>
        rw [hattempt] at hreports hresult
        refine ⟨fun records' hrecords => ?_, fun err herr => ?_⟩
        · rw [hresult] at hrecords
          cases hrecords
        · rcases hreports.2 with ⟨failure, hfails⟩ | hfails
          · exact Or.inl ⟨_, failure, hfails⟩
          · exact Or.inr hfails

theorem Sound.truthful (h : job.Sound endian acc boundary looksAhead) {idx : ℕ}
    (hidx : idx < job.chunkCount) :
    h.spec.Truthful idx (job.processChunk idx) := by
  have hpass := (job.processChunk_spec idx).1
  have hstart := chunkStart_le (lt_chunkCount hidx).le
  have hstop : job.chunkStop idx ≤ job.data.length := Nat.min_le_right _ _
  refine ⟨fun hne => ⟨hidx, (job.processChunk_spec idx).2.mp hne⟩, ?_, ?_⟩
  · intro pass hmem records hresult
    obtain ⟨find, assumption, -, -, hof⟩ := hpass pass hmem
    rw [h.spec_stop]
    exact (h.passOf_spec hstart hstop hof).2.2.1 records hresult
  · intro pass hmem err hresult
    obtain ⟨find, assumption, -, -, hof⟩ := hpass pass hmem
    exact (h.passOf_spec hstart hstop hof).2.2.2 err hresult

theorem Sound.speculative (h : job.Sound endian acc boundary looksAhead) {idx : ℕ}
    (hpos : 0 < idx) (hidx : idx < job.chunkCount) :
    h.spec.Speculative idx (job.processChunk idx) where
  toTruthful := h.truthful hidx
  inside := by
    intro pass hmem
    obtain ⟨find, assumption, -, hfind, hof⟩ := (job.processChunk_spec idx).1 pass hmem
    rw [h.spec_stop]
    have hmode : findMode job.config idx = .strict := by
      rw [findMode, if_neg (by omega)]
    rw [hmode] at hfind
    rcases (h.passOf_spec (chunkStart_le (lt_chunkCount hidx).le) (Nat.min_le_right _ _) hof).1 with
      ⟨hno, -⟩ | hinside
    · rw [hno] at hfind
      rcases hfind with hfalse | ⟨-, hfalse⟩
      · cases hfalse
      · cases hfalse
    · exact hinside

theorem Sound.reparses (h : job.Sound endian acc boundary looksAhead) :
    h.spec.Reparses job.reparseChunk := by
  intro k p hp
  rw [h.spec_stop] at hp ⊢
  have hstop := chunkStop_eq job k
  have hparse := h.parseBody_spec (show p + 0 ≤ job.chunkStop k from hp)
    (Nat.min_le_right _ _)
    (windows_sliceReader (job.env (.reparse p (job.chunkStop k))) _ _) (.refl _)
  rw [show h.spec.chunkSize = job.chunkSize from rfl]
  simp only [reparseChunk, h.init, ChunkParser.parse, ChunkParser.scan, ← hstop]
  generalize job.parser.parseBody (sliceReader job.data
    (job.env (.reparse p (job.chunkStop k))) p (job.chunkStop k)) [] 0 = pr at hparse
  obtain ⟨recordStart, recordEnd, result⟩ := pr
  cases result with
  | error err =>
      cases recordStart with
      | none =>
          rcases hparse with ⟨_, hfalse⟩ | ⟨failure, hfails⟩
          · cases hfalse
          · exact Or.inl ⟨_, failure, hfails⟩
      | some off =>
          obtain ⟨hfound, ⟨failure, hfails⟩ | hfails⟩ := hparse
          · exact Or.inl ⟨_, failure, hfails⟩
          · cases hfound
            exact Or.inr hfails
  | ok records =>
      cases recordStart with
      | none => cases hparse.1
      | some off =>
          obtain ⟨hfound, next, hbody, hnext⟩ := hparse
          cases hfound
          exact ⟨next, hbody, hnext⟩

end Job

end Csveee.Scheduler
