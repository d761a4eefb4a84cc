import Csveee.Parser.Dfa.Pass
import Csveee.Scheduler.RunSpec

/-!
# A run of one chunk

A parallel run whose first chunk is the whole input, against the stream.  Past the
header row both parse the same body.  A header row the automaton rejects is an error of
the stream, while the parallel run takes the chunk for one without records.
-/

namespace Csveee.Scheduler

/-- Both runs succeed, with the same records in the same order, or both fail, with the
same error. -/
def SameOutcome : Except Error (List (List Record)) → Except Error (List (List Record)) → Prop
  | .ok states, .ok states' => states.flatten = states'.flatten
  | .error err, .error err' => err = err'
  | _, _ => False

/-- What the merge makes of the pass of an only chunk. -/
def mergedPass {σ : Type} (pr : PassResult σ) : Except Error (List σ) :=
  match pr.recordStart, pr.result with
  | none, _ => .ok []
  | some _, .ok state => .ok [state]
  | some _, .error err => .error err

theorem Job.runWith_single {σ : Type} {job : Job σ} {pr : PassResult σ}
    (hcount : divCeil job.data.length job.chunkSize = 1)
    (hmode : findMode job.config 0 ≠ .strict)
    (hattempt : ∀ assumption, job.attempt 0 (job.chunkStart 0) (job.chunkStop 0)
      (findMode job.config 0) assumption = pr) :
    job.runWith = mergedPass pr := by
  obtain ⟨hfrom, hpasses⟩ := job.processChunk_spec 0
  have hstart : job.chunkStart 0 = 0 := Nat.zero_mul _
  have hhas : job.HasPass 0 ↔ pr.recordStart.isSome = true := by
    simp only [HasPass, Starts, hattempt, hmode, false_and, or_false]
    constructor
    · rintro ⟨_, -, hsome⟩
      exact hsome
    · intro hsome
      exact ⟨.outOfQuotes, outOfQuotes_mem_assumptions _ _, hsome⟩
  rw [runWith, outputs, hcount, List.range_one, List.map_singleton, collectAndMerge, mergeLoop]
  simp only [Option.any_none, Bool.false_eq_true, if_false, Option.all_none]
  cases hchunk : (job.processChunk 0).passes with
  | nil =>
      have hnone : ¬ pr.recordStart.isSome = true := fun hsome =>
        hpasses.mpr (hhas.mpr hsome) hchunk
      rw [Option.not_isSome_iff_eq_none] at hnone
      rw [List.isEmpty_nil, if_pos rfl, mergedPass, hnone]
      rfl
  | cons pass rest =>
      obtain ⟨find, assumption, -, hfind, off, hoff, -, hresult⟩ :=
        hfrom pass (by rw [hchunk]; exact List.mem_cons_self)
      have hsame : find = findMode job.config 0 := by
        rcases hfind with rfl | ⟨hstrict, -⟩
        · rfl
        · exact absurd hstrict hmode
      rw [hsame, hattempt] at hoff hresult
      rw [List.isEmpty_cons, List.find?_cons_of_pos rfl, mergedPass, hoff]
      simp only [Bool.false_eq_true, if_false]
      cases hbody : pr.result with
      | ok state =>
          rw [hbody] at hresult
          rw [hresult.1]
          rfl
      | error err =>
          rw [hbody] at hresult
          rw [hresult, hstart, Error.withBase_zero]

/-- The automaton rejects the header row. -/
def RejectsHeader (endian : Endian) (config : Config) (data : Bytes) : Prop :=
  ∃ off, Dfa.headerEndOf endian config data = .rejected off

section

variable {platform : Platform} {config : Config} {acc : RecordWise} {data : Bytes}
  {env : Environment}

/-- The pass over the whole input, opened by the header row. -/
def headerPass (endian : Endian) (config : Config) (acc : RecordWise) (data : Bytes) :
    PassResult (List Record) :=
  match Dfa.headerEndOf endian config data with
  | .absent => .noRecord []
  | .found off => .ofBody off (Dfa.refParse (Dfa.reference endian config) acc.accumulator
      data.length off (data.drop off) [])
  | .rejected off => .failed (.invalidQuote off)

theorem parse_headerPass (h : config.Distinct) {reader : ChunkReader}
    (hreliable : reader.schedule.Reliable) (hpending : reader.pending = data)
    (hwhole : data.length ≤ reader.chunkRemaining) (assumption : Assumption) :
    (parserOf platform .dfa config .bytes acc.accumulator).parse reader [] assumption
      .skipHeaders = headerPass platform.endian config acc data := by
  have htake : data.take reader.chunkRemaining = data := List.take_of_length_le hwhole
  rw [parserOf, Dfa.parse_headers platform.endian config acc.accumulator hreliable, hpending,
    htake, headerPass]
  cases hend : Dfa.headerEndOf platform.endian config data with
  | absent => rfl
  | rejected off => rfl
  | found off =>
      have hlt := Dfa.lt_of_boundary_found hend
      exact Dfa.passFrom_whole platform.endian config acc.accumulator h hwhole hlt.le []

end

/-- A parallel run of one chunk reports what the stream reports exactly if the automaton
does not reject the header row. -/
theorem runSlice_sameOutcome_iff (platform : Platform) (config : ValidConfig)
    (hbackend : resolveParserBackend config.config = .ok .dfa)
    (hheaders : config.config.hasHeaders = true) (acc : RecordWise) (data : Input)
    (hchunk : data.bytes.length ≤ resolveChunkSize config.config .dfa)
    (env : Environment) (hreliable : env.Reliable) :
    SameOutcome (runSlice platform config .bytes acc.accumulator [] data env)
        (runStream platform config .bytes acc.accumulator [] data env) ↔
      ¬ RejectsHeader platform.endian config.config data.bytes := by
  have hmode : findMode config.config 0 = .skipHeaders := by
    rw [findMode, if_pos rfl, if_pos hheaders]
  have hfits : data.bytes.length ≤ usizeMax := by
    have hlt := data.fits
    rw [usizeMax]
    omega
  have hstream : runStream platform config .bytes acc.accumulator [] data env =
      (headerPass platform.endian config.config acc data.bytes).result.map
        fun state => [state] := by
    rw [runStream, hbackend]
    simp only [hheaders, if_true]
    rw [parse_headerPass config.distinct (hreliable .stream) rfl hfits]
    rfl
  have hslice : runSlice platform config .bytes acc.accumulator [] data env =
      mergedPass (headerPass platform.endian config.config acc data.bytes) := by
    rw [runSlice, hbackend]
    simp only
    set size := resolveChunkSize config.config .dfa with hsize
    have hpos : 0 < size := by
      rw [hsize, resolveChunkSize]
      split_ifs <;> omega
    rcases Nat.eq_zero_or_pos data.bytes.length with hempty | hdata
    · have hnil : data.bytes = [] := List.length_eq_zero_iff.mp hempty
      have hzero : divCeil data.bytes.length size = 0 := by
        rw [divCeil, hempty, Nat.div_eq_of_lt (by omega)]
      rw [if_pos hzero, hnil]
      rfl
    · have hone : divCeil data.bytes.length size = 1 := by
        exact Nat.div_eq_of_lt_le (by omega) (by omega)
      rw [if_neg (by omega)]
      apply Job.runWith_single hone (by rw [jobOf, hmode]; simp)
      intro assumption
      have hstart : (jobOf platform .dfa config.config .bytes acc.accumulator [] data.bytes
          env).chunkStart 0 = 0 := Nat.zero_mul _
      have hstop : (jobOf platform .dfa config.config .bytes acc.accumulator [] data.bytes
          env).chunkStop 0 = data.bytes.length := by
        rw [Job.chunkStop, Nat.zero_mul, Nat.zero_add]
        exact min_eq_right hchunk
      rw [Job.attempt, hstart, hstop]
      simp only [jobOf, hmode]
      exact parse_headerPass config.distinct (hreliable _) rfl (Nat.le_refl _) assumption
  rw [hslice, hstream, headerPass, RejectsHeader]
  cases hend : Dfa.headerEndOf platform.endian config.config data.bytes with
  | absent =>
      simp only [reduceCtorEq, exists_false, not_false_eq_true, iff_true]
      rfl
  | rejected off =>
      simp only [Boundary.rejected.injEq, exists_eq', not_true_eq_false, iff_false]
      exact id
  | found off =>
      simp only [reduceCtorEq, exists_false, not_false_eq_true, iff_true]
      rw [PassResult.ofBody]
      cases (Dfa.refParse (Dfa.reference platform.endian config.config) acc.accumulator
        data.bytes.length off (data.bytes.drop off) []).2 with
      | ok recordEnd => exact rfl
      | error err => exact rfl

/-- A strict dialect with a header row, and chunks of 16 bytes. -/
def strictHeaders : ValidConfig where
  config := { Config.default with quoteHandling := .strict, parserBackend := .dfa, chunkSize := 16 }
  valid := by decide

theorem runSlice_sameOutcome_unclosed :
    SameOutcome
      (runSlice scalarPlatform strictHeaders .bytes RecordWise.acceptAll.accumulator []
        ⟨[104, 10, 34, 49, 10], by decide⟩ exactReaders)
      (runStream scalarPlatform strictHeaders .bytes RecordWise.acceptAll.accumulator []
        ⟨[104, 10, 34, 49, 10], by decide⟩ exactReaders) :=
  (runSlice_sameOutcome_iff scalarPlatform strictHeaders (by decide) (by decide)
    RecordWise.acceptAll ⟨[104, 10, 34, 49, 10], by decide⟩ (by decide) exactReaders
    reliable_exactReaders).mpr (by
      rintro ⟨off, hoff⟩
      have hend : Dfa.headerEndOf .little strictHeaders.config [104, 10, 34, 49, 10] =
        .found 1 := by decide
      rw [show scalarPlatform.endian = .little from rfl, hend] at hoff
      cases hoff)

/-- A stray quote in the header row: the stream fails, the parallel run yields nothing. -/
theorem runSlice_swallows_header_error :
    runSlice scalarPlatform strictHeaders .bytes RecordWise.acceptAll.accumulator []
        ⟨[97, 34, 98, 10, 49, 10], by decide⟩ exactReaders = .ok [] ∧
      runStream scalarPlatform strictHeaders .bytes RecordWise.acceptAll.accumulator []
        ⟨[97, 34, 98, 10, 49, 10], by decide⟩ exactReaders = .error (.invalidQuote 1) := by
  decide +kernel

end Csveee.Scheduler
