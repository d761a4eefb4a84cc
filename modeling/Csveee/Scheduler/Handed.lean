import Csveee.Parser.Simd.Handed
import Csveee.Scheduler.Backends

/-!
# What a run hands out

The states a run hands to the merge function were left behind by passes, each of which began
with the initial state.  So what holds of the records of every pass holds of a run's.
-/

namespace Csveee.Scheduler

variable {σ : Type}

/-- Whatever its parse of a body comes to, the parser leaves such a state behind. -/
structure Leaves (parser : ChunkParser σ) (init : σ) (property : σ → Prop) : Prop where
  start : property init
  body : ∀ reader base, property (parser.parseFrom reader init base).1

section Passes

variable {parser : ChunkParser σ} {init : σ} {property : σ → Prop}
  (h : Leaves parser init property)

include h

theorem Leaves.started {reader : ChunkReader} {start : ℕ} {state : σ}
    (hresult : (parser.parseBody reader init start).result = .ok state) : property state := by
  rw [ChunkParser.parseBody] at hresult
  split at hresult
  · cases hresult
    exact h.start
  · next later skipped _ =>
      have hbody := h.body later (start + skipped)
      generalize parser.parseFrom later init (start + skipped) = parsed at hbody hresult
      obtain ⟨left, outcome⟩ := parsed
      cases outcome with
      | error err => cases hresult
      | ok next =>
          cases hresult
          exact hbody
  · cases hresult

theorem Leaves.pass {reader : ChunkReader} {assumption : Assumption} {find : FindRecordStart}
    {state : σ} (hresult : (parser.parse reader init assumption find).result = .ok state) :
    property state := by
  rw [ChunkParser.parse] at hresult
  split at hresult
  · exact h.started hresult
  · cases hresult
    exact h.start
  · cases hresult

end Passes

/-- The merge collects states of passes, and of chunks that were parsed again. -/
theorem mergeLoop_leaves {property : σ → Prop} {chunkSize : ℕ} {reparse : Reparse σ}
    (hreparse : ∀ start chunkEnd state next, reparse start chunkEnd = .ok (state, next) →
      property state)
    (outputs : List (ChunkOutput σ))
    (houtputs : ∀ output ∈ outputs, ∀ pass ∈ output.passes, ∀ state, pass.result = .ok state →
      property state)
    (chunkEnd : ℕ) (nextRecord : Option ℕ) {states merged : List σ}
    (hstates : ∀ state ∈ states, property state)
    (hmerged : mergeLoop chunkSize reparse outputs chunkEnd nextRecord states = .ok merged) :
    ∀ state ∈ merged, property state := by
  have hsnoc : ∀ {states : List σ} {last : σ}, (∀ state ∈ states, property state) →
      property last → ∀ state ∈ states ++ [last], property state := by
    intro states last hall hlast state hmem
    rcases List.mem_append.mp hmem with hold | hnew
    · exact hall state hold
    · rw [List.mem_singleton.mp hnew]
      exact hlast
  induction outputs generalizing chunkEnd nextRecord states with
  | nil =>
      cases hmerged
      exact hstates
  | cons output outputs ih =>
      have hrest := ih fun other hother => houtputs other (List.mem_cons_of_mem _ hother)
      rw [mergeLoop.eq_def] at hmerged
      simp only at hmerged
      split_ifs at hmerged
      · exact hrest _ _ hstates hmerged
      · exact hrest _ _ hstates hmerged
      · split at hmerged
        · next pass hfind =>
            have hpass := houtputs output List.mem_cons_self pass (List.mem_of_find?_eq_some hfind)
            split at hmerged
            · cases hmerged
            · next state hresult =>
                exact hrest _ _ (hsnoc hstates (hpass state hresult)) hmerged
        · split at hmerged
          · cases hmerged
            exact hstates
          · split at hmerged
            · cases hmerged
            · next state next hagain =>
                exact hrest _ _ (hsnoc hstates (hreparse _ _ _ _ hagain)) hmerged

namespace Job

variable {job : Job σ} {property : σ → Prop} (h : Leaves job.parser job.init property)

include h

theorem tryLoop_leaves (idx start stop : ℕ) (find : FindRecordStart)
    (assumptions : List Assumption) {passes : List (ResolvedPass σ)} {sawClean : Bool}
    (hpasses : ∀ pass ∈ passes, ∀ state, pass.result = .ok state → property state)
    {resolved : List (ResolvedPass σ)} {recordEnd : Option ℕ}
    (htry : job.tryLoop idx start stop find assumptions passes sawClean =
      .resolved resolved recordEnd) :
    ∀ pass ∈ resolved, ∀ state, pass.result = .ok state → property state := by
  have hsnoc : ∀ {passes : List (ResolvedPass σ)} {last : ResolvedPass σ},
      (∀ pass ∈ passes, ∀ state, pass.result = .ok state → property state) →
      (∀ state, last.result = .ok state → property state) →
      ∀ pass ∈ passes ++ [last], ∀ state, pass.result = .ok state → property state := by
    intro passes last hall hlast pass hmem
    rcases List.mem_append.mp hmem with hold | hnew
    · exact hall pass hold
    · rw [List.mem_singleton.mp hnew]
      exact hlast
  induction assumptions generalizing passes sawClean with
  | nil =>
      rw [tryLoop] at htry
      split_ifs at htry
      cases htry
      exact hpasses
  | cons assumption assumptions ih =>
      rw [tryLoop] at htry
      split at htry
      · next state _ hresult =>
          cases htry
          refine hsnoc hpasses fun state hstate => ?_
          cases hstate
          exact h.pass hresult
      · refine ih (hsnoc hpasses fun state hstate => ?_) htry
        cases hstate
      · exact ih hpasses htry
      · exact ih hpasses htry

theorem processChunk_leaves (idx : ℕ) : ∀ pass ∈ (job.processChunk idx).passes, ∀ state,
    pass.result = .ok state → property state := by
  have htry : ∀ start stop find resolved recordEnd,
      job.tryAssumptions idx start stop find = .resolved resolved recordEnd →
        ∀ pass ∈ resolved, ∀ state, pass.result = .ok state → property state := by
    intro start stop find resolved recordEnd hresolved
    exact tryLoop_leaves h idx start stop find _ (fun _ hmem => absurd hmem List.not_mem_nil)
      hresolved
  have hnone : ∀ pass ∈ ([] : List (ResolvedPass σ)), ∀ state, pass.result = .ok state →
      property state := fun _ hmem => absurd hmem List.not_mem_nil
  rw [processChunk]
  split
  · next hresolved => exact htry _ _ _ _ _ hresolved
  · exact hnone
  · split_ifs
    · split
      · next hresolved => exact htry _ _ _ _ _ hresolved
      · exact hnone
      · exact hnone
    · exact hnone

theorem runWith_leaves {states : List σ} (hrun : job.runWith = .ok states) :
    ∀ state ∈ states, property state := by
  refine mergeLoop_leaves ?_ job.outputs ?_ 0 none (fun _ hmem => absurd hmem List.not_mem_nil)
    hrun
  · intro start chunkEnd state next hreparse
    rw [reparseChunk] at hreparse
    split at hreparse
    · next hresult =>
        cases hreparse
        exact h.pass hresult
    · cases hreparse
  · intro output hmem
    obtain ⟨idx, -, rfl⟩ := List.mem_map.mp hmem
    exact processChunk_leaves h idx

end Job

/-- The parser of a backend leaves behind what promised records do. -/
theorem leaves_parserOf (platform : Platform) {backend : Backend} {config : Config}
    (h : config.Distinct) (hbackend : resolveParserBackend config = .ok backend) {output : Output}
    (hascii : output = .str → config.validateAsciiControlBytes = .ok ()) (acc : Accumulator σ)
    (init : σ) :
    Leaves (parserOf platform backend config output acc) init
      (HandedOut acc (Promised config output) init) where
  start := .start
  body := by
    intro reader base
    cases backend with
    | dfa => exact Dfa.handedOut_parseFrom h platform.endian hascii reader base
    | simd =>
        have hs := Simd.supported_of_supports h (supports_of_resolve hbackend)
        rw [parserOf]
        simp only [Simd.SimdChunkParser.chunkParser, Simd.SimdChunkParser.runSteppers]
        split_ifs with hquote
        · exact Simd.handedOut_cursor hs h acc hascii platform.isa reader base init
            (Option.isNone_iff_eq_none.mp hquote)
        · exact Simd.handedOut_index hs h acc hascii platform.isa reader base init

section Runs

variable {platform : Platform} {config : ValidConfig} {output : Output} {acc : Accumulator σ}
  {init : σ} {property : σ → Prop}
  (h : ∀ backend, resolveParserBackend config.config = .ok backend →
    Leaves (parserOf platform backend config.config output acc) init property)
  {data : Input} {env : Environment} {states : List σ}

include h

theorem runSlice_leaves (hrun : runSlice platform config output acc init data env = .ok states) :
    ∀ state ∈ states, property state := by
  rw [runSlice] at hrun
  split at hrun
  · cases hrun
  · next backend hbackend =>
      split_ifs at hrun
      · cases hrun
        exact fun _ hmem => absurd hmem List.not_mem_nil
      · exact @Job.runWith_leaves _
          (jobOf platform backend config.config output acc init data.bytes env) _
          (h backend hbackend) _ hrun

theorem runStream_leaves (hrun : runStream platform config output acc init data env = .ok states) :
    ∀ state ∈ states, property state := by
  rw [runStream] at hrun
  split at hrun
  · cases hrun
  · next backend hbackend =>
      simp only at hrun
      generalize hpass : (parserOf platform backend config.config output acc).parse
        (streamReader data.bytes (env .stream)) init .outOfQuotes
        (if config.config.hasHeaders then .skipHeaders else .no) = pass at hrun
      cases hresult : pass.result with
      | error err =>
          rw [hresult] at hrun
          cases hrun
      | ok state =>
          rw [hresult] at hrun
          cases hrun
          intro state' hmem
          rw [List.mem_singleton.mp hmem]
          rw [← hpass] at hresult
          exact (h backend hbackend).pass hresult

end Runs

end Csveee.Scheduler
