import Csveee.Parser.Dfa.Pass
import Csveee.Scheduler.Backends

/-!
# Runs are reproducible

What a run of the byte automaton comes to is up to the dialect and the input: not to how the
readers refill their buffers, to the byte order of the machine, or to its instruction set.
-/

namespace Csveee

namespace Dfa

variable {σ : Type} (endian endian' : Endian) (config : Config) (acc : Accumulator σ)

/-- The table does not depend on the byte order of the machine. -/
theorem run_endian (chunkEnd x : ℕ) (bytes : Bytes) (s : RefState σ) :
    s.run (reference endian config) acc chunkEnd x bytes =
      s.run (reference endian' config) acc chunkEnd x bytes := by
  induction bytes generalizing x s with
  | nil => rfl
  | cons b rest ih =>
      have hstep : s.step (reference endian config) acc chunkEnd x b =
        s.step (reference endian' config) acc chunkEnd x b := rfl
      rw [RefState.run, RefState.run, hstep]
      cases s.step (reference endian' config) acc chunkEnd x b with
      | inl next => exact ih (x + 1) next
      | inr outcome => rfl

theorem refParse_endian :
    @refParse σ (reference endian config) = refParse (reference endian' config) := by
  funext acc chunkEnd base body state
  exact run_endian endian endian' config acc chunkEnd base body (.new base state)

theorem scanBytes_endian (strict : Bool) (state : State) (x : ℕ) (bytes : Bytes) :
    scanBytes (Dfa.new endian config) strict state x bytes =
      scanBytes (Dfa.new endian' config) strict state x bytes := by
  induction bytes generalizing state x with
  | nil => rfl
  | cons b rest ih =>
      have htrans : (Dfa.new endian config).transition = (Dfa.new endian' config).transition := rfl
      rw [scanBytes, scanBytes, htrans]
      cases ((Dfa.new endian' config).transition state b).next <;> simp only [ih]

/-- What a parse makes of the bytes from the start of a chunk on, of which `chunkRemaining` are in
the chunk. -/
def chunkPass (bytes : Bytes) (chunkRemaining : ℕ) (state : σ) (assumption : Assumption)
    (find : FindRecordStart) : PassResult σ :=
  passAt endian config acc bytes chunkRemaining state
    (Scheduler.Job.boundaryFor endian config (boundaryOf endian config) assumption find
      (bytes.take chunkRemaining))

/-- The parse of a chunk is a function of its bytes. -/
theorem parse_eq_chunkPass {reader : ChunkReader} (hreliable : reader.schedule.Reliable)
    (state : σ) (assumption : Assumption) (find : FindRecordStart) :
    ((DfaChunkParser.new endian config).chunkParser .bytes acc).parse reader state assumption
        find =
      chunkPass endian config acc reader.pending reader.chunkRemaining state assumption find := by
  have hsound := probeSound_new endian config
  apply parse_of_matches endian config acc hreliable
  cases find with
  | no => exact ⟨rfl, .refl reader⟩
  | skipHeaders =>
      exact findRecordStartFrom_spec (searchSound_new endian config)
        (fun hfalse => absurd hfalse Bool.false_ne_true) reader _
  | strict => exact findRecordStartFrom_spec hsound.toSearchSound (fun _ => hsound) reader _
  | lenient => exact findRecordStartFrom_spec hsound.toSearchSound (fun _ => hsound) reader _

theorem chunkPass_endian :
    chunkPass endian config acc = chunkPass endian' config acc := by
  have hpass : passFrom endian config acc = passFrom endian' config acc := by
    funext bytes chunkRemaining state off
    rw [passFrom, passFrom, refParse_endian endian endian']
  have hboundary : boundaryOf endian config = boundaryOf endian' config := by
    funext assumption strict bytes
    exact congrArg BufferScan.boundary (scanBytes_endian endian endian' _ strict _ 0 bytes)
  have hheader : headerEndOf endian config = headerEndOf endian' config := by
    funext bytes
    exact congrArg BufferScan.boundary (scanBytes_endian endian endian' config false _ 0 bytes)
  have hat : passAt endian config acc = passAt endian' config acc := by
    funext bytes chunkRemaining state boundary
    cases boundary <;> simp only [passAt, hpass]
  funext bytes chunkRemaining state assumption find
  rw [chunkPass, chunkPass, hat, hboundary]
  cases find <;> simp only [Scheduler.Job.boundaryFor, hheader]

end Dfa

namespace Scheduler

namespace Job

variable {σ : Type} {job job' : Job σ}

/-- Two jobs that cut the same input into the same chunks, and make the same of each. -/
structure Alike (job job' : Job σ) : Prop where
  config : job.config = job'.config
  chunkSize : job.chunkSize = job'.chunkSize
  data : job.data = job'.data
  attempt : job.attempt = job'.attempt
  reparseChunk : job.reparseChunk = job'.reparseChunk

theorem Alike.tryLoop (h : job.Alike job') (idx start stop : ℕ) (find : FindRecordStart)
    (assumptions : List Assumption) (passes : List (ResolvedPass σ)) (sawClean : Bool) :
    job.tryLoop idx start stop find assumptions passes sawClean =
      job'.tryLoop idx start stop find assumptions passes sawClean := by
  induction assumptions generalizing passes sawClean with
  | nil => rfl
  | cons assumption assumptions ih =>
      rw [Job.tryLoop, Job.tryLoop, h.attempt]
      simp only [ih]

theorem Alike.processChunk (h : job.Alike job') : job.processChunk = job'.processChunk := by
  funext idx
  have htry : job.tryAssumptions = job'.tryAssumptions := by
    funext idx start stop find
    rw [tryAssumptions, tryAssumptions, h.config, h.tryLoop]
  rw [Job.processChunk, Job.processChunk, htry, h.config, h.chunkSize, h.data]

theorem Alike.runWith (h : job.Alike job') : job.runWith = job'.runWith := by
  rw [Job.runWith, Job.runWith, outputs, outputs, h.processChunk, h.reparseChunk, h.chunkSize,
    h.data]

end Job

section Dfa

variable {σ : Type} (platform platform' : Platform) (config : Config) (acc : Accumulator σ)
  (init : σ)

/-- The parse of a chunk of two machines, by two readers. -/
theorem parse_alike_dfa {reader reader' : ChunkReader} (hreliable : reader.schedule.Reliable)
    (hreliable' : reader'.schedule.Reliable) (hpending : reader.pending = reader'.pending)
    (hchunk : reader.chunkRemaining = reader'.chunkRemaining) (assumption : Assumption)
    (find : FindRecordStart) :
    (parserOf platform .dfa config .bytes acc).parse reader init assumption find =
      (parserOf platform' .dfa config .bytes acc).parse reader' init assumption find := by
  calc
    _ = Dfa.chunkPass platform.endian config acc reader.pending reader.chunkRemaining init
        assumption find := Dfa.parse_eq_chunkPass _ _ _ hreliable _ _ _
    _ = Dfa.chunkPass platform'.endian config acc reader'.pending reader'.chunkRemaining init
        assumption find := by
      rw [Dfa.chunkPass_endian platform.endian platform'.endian, hpending, hchunk]
    _ = _ := (Dfa.parse_eq_chunkPass _ _ _ hreliable' _ _ _).symm

theorem alike_dfa (data : Bytes) {env env' : Environment} (hreliable : env.Reliable)
    (hreliable' : env'.Reliable) :
    (jobOf platform .dfa config .bytes acc init data env).Alike
      (jobOf platform' .dfa config .bytes acc init data env') where
  config := rfl
  chunkSize := rfl
  data := rfl
  attempt := by
    funext idx start stop find assumption
    exact @parse_alike_dfa σ platform platform' config acc init
      (sliceReader data (env (.chunk idx find assumption)) start stop)
      (sliceReader data (env' (.chunk idx find assumption)) start stop) (hreliable _) (hreliable' _)
      rfl rfl assumption find
  reparseChunk := by
    funext recordStart chunkEnd
    simp only [Job.reparseChunk]
    have hparse := @parse_alike_dfa σ platform platform' config acc init
      (sliceReader data (env (.reparse recordStart (min chunkEnd data.length))) recordStart
        (min chunkEnd data.length))
      (sliceReader data (env' (.reparse recordStart (min chunkEnd data.length))) recordStart
        (min chunkEnd data.length)) (hreliable _) (hreliable' _) rfl rfl .outOfQuotes .no
    simp only [jobOf] at hparse ⊢
    rw [hparse]

end Dfa

/-- The byte automaton's runs, in chunks and as a stream, come to the same on any machine and by
any readers: the same states, or the same error. -/
theorem runSlice_reproducible {σ : Type} (platform platform' : Platform) (config : ValidConfig)
    (hbackend : resolveParserBackend config.config = .ok .dfa) (acc : Accumulator σ) (init : σ)
    (data : Input) {env env' : Environment} (hreliable : env.Reliable)
    (hreliable' : env'.Reliable) :
    runSlice platform config .bytes acc init data env =
        runSlice platform' config .bytes acc init data env' ∧
      runStream platform config .bytes acc init data env =
        runStream platform' config .bytes acc init data env' := by
  constructor
  · rw [runSlice, runSlice, hbackend]
    simp only
    rw [(alike_dfa platform platform' config.config acc init data.bytes hreliable
      hreliable').runWith]
  · rw [runStream, runStream, hbackend]
    simp only
    rw [@parse_alike_dfa σ platform platform' config.config acc init
      (streamReader data.bytes (env .stream)) (streamReader data.bytes (env' .stream))
      (hreliable _) (hreliable' _) rfl rfl]

/-- Readers that show a byte more than is asked for, in a buffer that moves. -/
def generousReaders : Environment := fun _ call => .exposes 1 (Fin.ofNat 64 call)

theorem reliable_generousReaders : generousReaders.Reliable := by
  intro id call err h
  cases h

def headers4 : ValidConfig := ⟨{ Config.default with chunkSize := 4 }, rfl⟩

/-- Three chunks, on machines of either byte order. -/
theorem runSlice_reproducible_bigEndian :
    runSlice scalarPlatform headers4 .bytes RecordWise.acceptAll.accumulator []
        ⟨[97, 10, 34, 98, 10, 34, 10, 99, 10], by decide⟩ exactReaders =
      runSlice ⟨.big, ⟨true⟩⟩ headers4 .bytes RecordWise.acceptAll.accumulator []
        ⟨[97, 10, 34, 98, 10, 34, 10, 99, 10], by decide⟩ generousReaders :=
  (runSlice_reproducible scalarPlatform ⟨.big, ⟨true⟩⟩ headers4 rfl
    RecordWise.acceptAll.accumulator [] ⟨[97, 10, 34, 98, 10, 34, 10, 99, 10], by decide⟩
    reliable_exactReaders reliable_generousReaders).1

end Scheduler

end Csveee
