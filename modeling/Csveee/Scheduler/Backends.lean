import Csveee.Parser.Simd.Pass
import Csveee.Scheduler.Headers
import Csveee.Scheduler.MessyInput
import Csveee.Scheduler.WellFormed

/-!
# Runs of either backend

Both chunk parsers keep the contract, so what is known of the merge is known of the runs
of either backend: how a slice parsed in chunks compares to the stream.
-/

namespace Csveee.Scheduler

open Dfa

/-- The boundary a backend's scan finds in a chunk. -/
def backendBoundary (platform : Platform) (backend : Backend) (config : Config) :
    Assumption → Bool → Bytes → Boundary :=
  match backend with
  | .dfa => Dfa.boundaryOf platform.endian config
  | .simd => Simd.boundaryOf config

/-- Only the vectorized backend looks ahead of a chunk's end. -/
def Backend.looksAhead : Backend → Bool
  | .dfa => false
  | .simd => true

theorem supports_of_resolve {config : Config}
    (hbackend : resolveParserBackend config = .ok .simd) : Simd.supports config = .ok () := by
  rw [resolveParserBackend] at hbackend
  cases hsupports : Simd.supports config with
  | ok => rfl
  | error reason =>
      rw [hsupports] at hbackend
      cases hchoice : config.parserBackend <;> rw [hchoice] at hbackend <;> cases hbackend

theorem contract_of_resolve (platform : Platform) (config : ValidConfig) {backend : Backend}
    (hbackend : resolveParserBackend config.config = .ok backend) (acc : RecordWise) :
    (parserOf platform backend config.config .bytes acc.accumulator).Contract platform.endian
      config.config acc (backendBoundary platform backend config.config) backend.looksAhead := by
  cases backend with
  | dfa => exact Dfa.contract platform.endian config.config acc
  | simd =>
      have hs := Simd.supported_of_supports config.distinct (supports_of_resolve hbackend)
      exact Simd.contract hs config.distinct platform.endian platform.isa acc

theorem resolveChunkSize_pos (config : Config) (backend : Backend) :
    0 < resolveChunkSize config backend := by
  by_cases hsize : config.chunkSize ≠ 0
  · rw [resolveChunkSize.eq_def, if_pos hsize]
    exact Nat.pos_of_ne_zero hsize
  · rw [resolveChunkSize.eq_def, if_neg hsize]
    cases backend <;> decide

section Run

variable (platform : Platform) (config : ValidConfig) (acc : RecordWise) (data : Input)
  (env : Environment)

/-- The job of a run. -/
abbrev recordJob (backend : Backend) : Job (List Record) :=
  jobOf platform backend config.config .bytes acc.accumulator [] data.bytes env

variable {platform config acc data env} {backend : Backend}

theorem sound_recordJob (hbackend : resolveParserBackend config.config = .ok backend)
    (hcomment : config.config.comment = none) :
    (recordJob platform config acc data env backend).Sound platform.endian acc
      (backendBoundary platform backend config.config) backend.looksAhead where
  contract := contract_of_resolve platform config hbackend acc
  distinct := config.distinct
  comment := hcomment
  init := rfl
  chunkSize := resolveChunkSize_pos config.config backend

theorem Input.length_le_usizeMax (data : Input) : data.bytes.length ≤ usizeMax := by
  have hfits := data.fits
  rw [usizeMax]
  omega

theorem runSlice_job {σ : Type} {output : Output} {acc : Accumulator σ} {init : σ}
    (hbackend : resolveParserBackend config.config = .ok backend) :
    runSlice platform config output acc init data env =
      (jobOf platform backend config.config output acc init data.bytes env).runWith := by
  rw [runSlice, hbackend]
  simp only
  split_ifs with hempty
  · rw [Job.runWith, Job.outputs]
    simp only [jobOf, hempty, List.range_zero, List.map_nil]
    rfl
  · rfl

theorem runSlice_eq (hbackend : resolveParserBackend config.config = .ok backend) :
    runSlice platform config .bytes acc.accumulator [] data env =
      (recordJob platform config acc data env backend).runWith :=
  runSlice_job hbackend

theorem runStream_eq (hbackend : resolveParserBackend config.config = .ok backend) :
    runStream platform config .bytes acc.accumulator [] data env =
      ((recordJob platform config acc data env backend).stream
        (if config.config.hasHeaders then .skipHeaders else .no)).result.map
          fun state => [state] := by
  rw [runStream, hbackend]
  rfl

end Run

namespace Job

variable {job : Job (List Record)} {endian : Endian} {acc : RecordWise}
  {boundary : Assumption → Bool → Bytes → Boundary} {looksAhead : Bool}

theorem Sound.completes_empty (h : job.Sound endian acc boundary looksAhead)
    (hempty : job.data.length = 0) :
    h.Completes 0 job.runWith := by
  have hcount : job.chunkCount = 0 := by
    have hpos := h.chunkSize
    rw [chunkCount, divCeil, hempty, Nat.div_eq_of_lt (by omega)]
  have hrest := @bodyRecords_boundary (reference endian job.config) acc job.data 0
    fun hlt => by omega
  rw [if_neg (by omega)] at hrest
  rw [runWith_none fun idx hidx => by omega, Completes, hempty]
  exact ⟨none, hrest⟩

/-- What the stream yields is what the sequential parse comes to. -/
theorem Sound.body_of_stream (h : job.Sound endian acc boundary looksAhead)
    (hfits : job.data.length ≤ usizeMax) {records : List Record}
    (hstream : (job.stream .no).result = .ok records) :
    ∃ next, h.seq.body 0 job.data.length = .ok (records, next) := by
  have hreports := h.stream_spec hfits .no
  generalize job.stream .no = pr at hstream hreports
  obtain ⟨recordStart, recordEnd, result⟩ := pr
  subst hstream
  cases recordStart with
  | none => cases hreports.1
  | some off =>
      obtain ⟨hoff, next, hbody, -⟩ := hreports
      cases hoff
      exact ⟨next, hbody⟩

end Job

/-- Input the strict dialect accepts parses in chunks to what it parses to as a stream. -/
theorem runSlice_wellFormed (platform : Platform) (config : ValidConfig)
    (hheaders : config.config.hasHeaders = false) (hcomment : config.config.comment = none)
    (acc : RecordWise) (data : Input)
    (haccepts : (dialect platform.endian config.config .strict).Accepts data.bytes)
    (env : Environment) (hreliable : env.Reliable) :
    Job.SameRecords (runSlice platform config .bytes acc.accumulator [] data env)
      (runStream platform config .bytes acc.accumulator [] data env) := by
  cases hbackend : resolveParserBackend config.config with
  | error reason =>
      rw [runSlice, runStream, hbackend]
      exact trivial
  | ok backend =>
      have h := @sound_recordJob platform config acc data env _ hbackend hcomment
      rw [runSlice_eq hbackend, runStream_eq hbackend, hheaders, if_neg Bool.false_ne_true]
      refine h.sameRecords hreliable data.length_le_usizeMax rfl ?_
      rcases Nat.eq_zero_or_pos data.bytes.length with hempty | hdata
      · exact h.completes_empty hempty
      · exact h.runWith_wellFormed hreliable hheaders hdata haccepts.1

/-- The default dialect without headers, in chunks of 4 bytes. -/
def quoted4 : ValidConfig where
  config := { Config.default with hasHeaders := false, parserBackend := .dfa, chunkSize := 4 }
  valid := by decide

/-- A chunk ends between the two quotes of a doubled one. -/
theorem runSlice_wellFormed_doubled :
    Job.SameRecords
      (runSlice scalarPlatform quoted4 .bytes RecordWise.acceptAll.accumulator []
        ⟨[34, 97, 10, 34, 34, 98, 34, 10, 99, 10], by decide⟩ exactReaders)
      (runStream scalarPlatform quoted4 .bytes RecordWise.acceptAll.accumulator []
        ⟨[34, 97, 10, 34, 34, 98, 34, 10, 99, 10], by decide⟩ exactReaders) :=
  runSlice_wellFormed scalarPlatform quoted4 rfl rfl RecordWise.acceptAll
    ⟨[34, 97, 10, 34, 34, 98, 34, 10, 99, 10], by decide⟩ (by
      refine ⟨fun n => ?_, by decide⟩
      rcases Nat.lt_or_ge n 10 with hlt | hge
      · revert n
        decide
      · rw [List.take_of_length_le hge]
        decide) exactReaders reliable_exactReaders

/-- Input with misplaced quotes that the stream accepts parses in chunks to the same records
exactly if nothing follows, but terminators, where the last chunk a boundary is found in hands
over. -/
theorem runSlice_messy_iff (platform : Platform) (config : ValidConfig) {backend : Backend}
    (hbackend : resolveParserBackend config.config = .ok backend)
    (hheaders : config.config.hasHeaders = false) (hcomment : config.config.comment = none)
    (acc : RecordWise) (data : Input) (env : Environment) (hreliable : env.Reliable)
    (hmessy : ¬ (dialect platform.endian config.config .strict).Accepts data.bytes)
    {streamed : List (List Record)}
    (hstream : runStream platform config .bytes acc.accumulator [] data env = .ok streamed) :
    (∃ states, runSlice platform config .bytes acc.accumulator [] data env = .ok states ∧
        states.flatten = streamed.flatten) ↔
      (recordJob platform config acc data env backend).Recovers platform.endian
        (backendBoundary platform backend config.config) := by
  have h := @sound_recordJob platform config acc data env _ hbackend hcomment
  have hdata : 0 < data.bytes.length := by
    rcases Nat.eq_zero_or_pos data.bytes.length with hempty | hdata
    · exfalso
      rw [List.length_eq_zero_iff] at hempty
      rw [hempty] at hmessy
      refine hmessy ⟨fun n => ?_, rfl⟩
      rw [List.take_nil]
      exact State.noConfusion
    · exact hdata
  rw [runStream_eq hbackend, hheaders, if_neg Bool.false_ne_true] at hstream
  rw [runSlice_eq hbackend]
  cases hresult : (Job.stream (recordJob platform config acc data env backend) .no).result with
  | error err =>
      rw [hresult] at hstream
      cases hstream
  | ok records =>
      rw [hresult] at hstream
      cases hstream
      obtain ⟨next, hbody⟩ := h.body_of_stream data.length_le_usizeMax hresult
      rw [List.flatten_singleton]
      exact h.runWith_whole_iff hreliable hheaders hdata hbody

/-- The default dialect without headers, in chunks of 12 bytes. -/
def quoted12 : ValidConfig where
  config := { Config.default with hasHeaders := false, parserBackend := .dfa, chunkSize := 12 }
  valid := by decide

/-- Quotes inside a field on either side of a chunk's end, and three records behind them. -/
def strayQuotes : Input :=
  ⟨[97, 97, 97, 97, 97, 97, 97, 97, 97, 44, 120, 34, 44, 34, 121, 10, 122, 122, 122, 122, 122, 10,
    119, 10, 118, 10], by decide⟩

/-- The second chunk has no pass; the third one is reparsed from where the first one ends. -/
theorem runSlice_messy_recovered :
    ∃ states, runSlice scalarPlatform quoted12 .bytes RecordWise.acceptAll.accumulator []
        strayQuotes exactReaders = .ok states ∧
      states.flatten = [[[97, 97, 97, 97, 97, 97, 97, 97, 97], [120, 44, 121]],
        [[122, 122, 122, 122, 122]], [[119]], [[118]]] := by
  have hstream : runStream scalarPlatform quoted12 .bytes RecordWise.acceptAll.accumulator []
      strayQuotes exactReaders = .ok [[[[97, 97, 97, 97, 97, 97, 97, 97, 97], [120, 44, 121]],
        [[122, 122, 122, 122, 122]], [[119]], [[118]]]] := by
    decide +kernel
  refine (runSlice_messy_iff scalarPlatform quoted12 rfl rfl rfl RecordWise.acceptAll _
    exactReaders reliable_exactReaders (fun haccepts => ?_) hstream).mpr
    ⟨2, by decide, Or.inr (Or.inl ⟨.outOfQuotes, by decide, 1, by decide +kernel⟩), ?_⟩
  · exact haccepts.1 12 (by decide)
  · rintro q hq ⟨⟨b, hb, -⟩, -⟩
    have hlt : q < 26 := (List.getElem?_eq_some_iff.mp hb).1
    have hge : 36 ≤ q := hq
    omega

/-- Misplaced quotes at a chunk's end: the record behind them is lost. -/
theorem runSlice_loses_record :
    runSlice scalarPlatform quoted12 .bytes RecordWise.acceptAll.accumulator []
        ⟨[97, 97, 97, 97, 97, 97, 97, 97, 97, 97, 10, 98, 120, 34, 44, 34, 121, 10, 122, 10],
          by decide⟩ exactReaders =
        .ok [[[[97, 97, 97, 97, 97, 97, 97, 97, 97, 97]], [[98, 120, 44, 121]]]] ∧
      runStream scalarPlatform quoted12 .bytes RecordWise.acceptAll.accumulator []
        ⟨[97, 97, 97, 97, 97, 97, 97, 97, 97, 97, 10, 98, 120, 34, 44, 34, 121, 10, 122, 10],
          by decide⟩ exactReaders =
        .ok [[[[97, 97, 97, 97, 97, 97, 97, 97, 97, 97]], [[98, 120, 44, 121]], [[122]]]] ∧
      ¬ (dialect .little quoted12.config .strict).Accepts
        [97, 97, 97, 97, 97, 97, 97, 97, 97, 97, 10, 98, 120, 34, 44, 34, 121, 10, 122, 10] := by
  refine ⟨by decide +kernel, by decide +kernel, fun haccepts => ?_⟩
  exact haccepts.1 14 (by decide)

/-- Without quotes, the parallel run agrees with the stream, and starts where the header row
ends, exactly if the leading blank lines end by the end of the first chunk, or nothing follows
them. -/
theorem runSlice_headers_iff (platform : Platform) (config : ValidConfig) {backend : Backend}
    (hbackend : resolveParserBackend config.config = .ok backend)
    (hheaders : config.config.hasHeaders = true) (hquote : config.config.quote = none)
    (hcomment : config.config.comment = none) (acc : RecordWise) (data : Input)
    (env : Environment) (hreliable : env.Reliable) :
    Job.SameRecords (runSlice platform config .bytes acc.accumulator [] data env)
          (runStream platform config .bytes acc.accumulator [] data env) ∧
        (blankRun config.config data.bytes < data.bytes.length →
          (recordJob platform config acc data env backend).firstSelected =
            headerEnd config.config data.bytes) ↔
      blankRun config.config data.bytes ≤ resolveChunkSize config.config backend ∨
        data.bytes.length ≤ blankRun config.config data.bytes := by
  have h := @sound_recordJob platform config acc data env _ hbackend hcomment
  rw [runSlice_eq hbackend, runStream_eq hbackend, hheaders, if_pos rfl]
  exact h.headers_iff hreliable hquote hheaders data.length_le_usizeMax

/-- Unquoted fields below a header row, in chunks of a byte. -/
def unquoted1 : ValidConfig where
  config := { Config.default with
    quote := none
    escape := none
    parserBackend := .dfa
    chunkSize := 1 }
  valid := by decide

/-- One blank line, then the header row. -/
theorem runSlice_headers_blank :
    Job.SameRecords
      (runSlice scalarPlatform unquoted1 .bytes RecordWise.acceptAll.accumulator []
        ⟨[10, 104, 10, 97, 10], by decide⟩ exactReaders)
      (runStream scalarPlatform unquoted1 .bytes RecordWise.acceptAll.accumulator []
        ⟨[10, 104, 10, 97, 10], by decide⟩ exactReaders) :=
  ((runSlice_headers_iff scalarPlatform unquoted1 rfl rfl rfl rfl RecordWise.acceptAll
    ⟨[10, 104, 10, 97, 10], by decide⟩ exactReaders reliable_exactReaders).mpr
      (Or.inl (by decide))).1

/-- Two blank lines outlast the first chunk: the header row is taken for a record. -/
theorem runSlice_yields_header :
    runSlice scalarPlatform unquoted1 .bytes RecordWise.acceptAll.accumulator []
        ⟨[10, 10, 104, 10, 97, 10], by decide⟩ exactReaders =
        .ok [[[[104]]], [[[97]]], []] ∧
      runStream scalarPlatform unquoted1 .bytes RecordWise.acceptAll.accumulator []
        ⟨[10, 10, 104, 10, 97, 10], by decide⟩ exactReaders = .ok [[[[97]]]] := by
  decide +kernel

end Csveee.Scheduler
