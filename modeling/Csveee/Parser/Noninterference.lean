import Csveee.Parser.Dfa.Overwrite
import Csveee.Parser.Simd.CursorOverwriteFinish
import Csveee.Parser.Simd.IndexOverwriteFinish
import Csveee.Parser.Simd.Differential

/-!
# What is left in the fields does not matter

The fields handed to an accumulator are slices of the buffer that is still being parsed.  Two
accumulators that give the same verdicts see the same records and make the same pass, whatever
each writes to its slices.
-/

namespace Csveee

open Dfa Simd

variable {σ : Type}

/-- A pass depends on what its steppers make of a body, and on no more of them. -/
theorem ChunkParser.parse_congr {parser parser' : ChunkParser σ} {state : σ}
    (hconfig : parser'.config = parser.config)
    (hscan : parser'.scanRecordStart = parser.scanRecordStart)
    (hheader : parser'.scanHeaderEnd = parser.scanHeaderEnd)
    (hfrom : ∀ reader base, parser'.parseFrom reader state base =
      parser.parseFrom reader state base)
    (reader : ChunkReader) (assumption : Assumption) (find : FindRecordStart) :
    parser'.parse reader state assumption find = parser.parse reader state assumption find := by
  have hbody : ∀ reader start,
      parser'.parseBody reader state start = parser.parseBody reader state start := by
    intro reader start
    rw [ChunkParser.parseBody, ChunkParser.parseBody, hconfig]
    simp only [hfrom]
  have hfound : parser'.scan reader assumption find = parser.scan reader assumption find := by
    cases find <;> simp only [ChunkParser.scan, hscan, hheader]
  rw [ChunkParser.parse, ChunkParser.parse, hfound]
  simp only [hbody]

section Runs

variable {acc acc' : Accumulator σ} (hverdicts : acc.SameVerdicts acc') {config : Config}
  (hs : Supported config) (h : config.Distinct) (output : Output) (level : Isa)
  (reader : ChunkReader) (base : ℕ) (state : σ)

include hverdicts hs h

theorem index_overwritten :
    ChunkDriver.run (SimdIndexStepper.stepper acc') output (.new reader base) (.new level config)
        state =
      ChunkDriver.run (SimdIndexStepper.stepper acc) output (.new reader base) (.new level config)
        state := by
  obtain ⟨n, cells, hcount, hchain⟩ := exists_cells hs h reader.pending
  have hle := Nat.le_add_right base reader.chunkRemaining
  exact @Body.index_run_alike _ (Body.plain hs h acc output hcount reader.pending hle state hchain)
    _ hverdicts level reader rfl (Nat.add_sub_cancel_left _ _).symm

theorem cursor_overwritten (hquote : config.quote = none) :
    ChunkDriver.run (SimdCursorStepper.stepper acc') output (.new reader base)
        (.new level config) state =
      ChunkDriver.run (SimdCursorStepper.stepper acc) output (.new reader base)
        (.new level config) state := by
  obtain ⟨n, cells, hcount, hchain⟩ := exists_cells hs h reader.pending
  have hle := Nat.le_add_right base reader.chunkRemaining
  exact @Body.cursor_run_alike _ (Body.plain hs h acc output hcount reader.pending hle state hchain)
    _ hquote hverdicts level reader rfl (Nat.add_sub_cancel_left _ _).symm

theorem runSteppers_overwritten :
    (SimdChunkParser.mk config level).runSteppers output acc' reader state base =
      (SimdChunkParser.mk config level).runSteppers output acc reader state base := by
  rw [SimdChunkParser.runSteppers, SimdChunkParser.runSteppers]
  split_ifs with hquote
  · exact cursor_overwritten hverdicts hs h output level reader base state
      (Option.isNone_iff_eq_none.mp hquote)
  · exact index_overwritten hverdicts hs h output level reader base state

end Runs

/-- Nothing that is left behind in a field finds its way into the parse: each of the three
steppers hands out the same records to both accumulators and comes to the same end, and so
does each pass over a chunk. -/
theorem parse_overwritten (config : ValidConfig) (output : Output) {acc acc' : Accumulator σ}
    (hverdicts : acc.SameVerdicts acc') (reader : ChunkReader) (base : ℕ) (state : σ)
    (assumption : Assumption) (find : FindRecordStart) :
    (∀ endian,
      ChunkDriver.run (Dfa.stepper (Dfa.reference endian config.config) acc'.logged) output
          (.new reader base) (.new base) (state, []) =
        ChunkDriver.run (Dfa.stepper (Dfa.reference endian config.config) acc.logged) output
          (.new reader base) (.new base) (state, []) ∧
      ((DfaChunkParser.new endian config.config).chunkParser output acc'.logged).parse reader
          (state, []) assumption find =
        ((DfaChunkParser.new endian config.config).chunkParser output acc.logged).parse reader
          (state, []) assumption find) ∧
    (supports config.config = .ok () → ∀ level,
      ChunkDriver.run (SimdIndexStepper.stepper acc'.logged) output (.new reader base)
          (.new level config.config) (state, []) =
        ChunkDriver.run (SimdIndexStepper.stepper acc.logged) output (.new reader base)
          (.new level config.config) (state, []) ∧
      (config.config.quote = none →
        ChunkDriver.run (SimdCursorStepper.stepper acc'.logged) output (.new reader base)
            (.new level config.config) (state, []) =
          ChunkDriver.run (SimdCursorStepper.stepper acc.logged) output (.new reader base)
            (.new level config.config) (state, [])) ∧
      ((SimdChunkParser.mk config.config level).chunkParser output acc'.logged).parse reader
          (state, []) assumption find =
        ((SimdChunkParser.mk config.config level).chunkParser output acc.logged).parse reader
          (state, []) assumption find) := by
  have h := config.distinct
  refine ⟨fun endian => ?_, fun hsupports level => ?_⟩
  · have hrun := fun reader base => Dfa.run_alike hverdicts.logged
      (show SearchSound (Dfa.reference endian config.config).dfa from
        searchSound_new endian config.config) output reader base (state, [])
    refine ⟨hrun reader base, ChunkParser.parse_congr ?_ ?_ ?_ hrun reader assumption find⟩ <;> rfl
  · have hs := supported_of_supports h hsupports
    have hrun := fun reader base => runSteppers_overwritten hverdicts.logged hs h output level
      reader base (state, [])
    refine ⟨index_overwritten hverdicts.logged hs h output level reader base _,
      fun hquote => cursor_overwritten hverdicts.logged hs h output level reader base _ hquote,
      ChunkParser.parse_congr ?_ ?_ ?_ hrun reader assumption find⟩ <;> rfl

/-- Accept every record, and fill its fields with quotes. -/
def fillQuotes : RecordWise :=
  ⟨fun _ record => record.map fun field => List.replicate field.length 34, fun _ => .ok ()⟩

/-- Twenty records that are written over while the last one is still to be read. -/
theorem parse_overwritten_quotes :
    ((SimdChunkParser.mk pairs.config ⟨false⟩).chunkParser .bytes
      fillQuotes.accumulator.logged).parse (.whole
        ((List.replicate 20 [34, 97, 34, 44, 98, 10]).flatten ++ [34, 99, 34, 34, 10, 34, 44, 100]))
      ([], []) .outOfQuotes .no =
        ⟨some 0, some 128, .ok
          (List.replicate 20 [[97], [98]] ++ [[[99, 34, 10], [100]]],
            List.replicate 20 [[97], [98]] ++ [[[99, 34, 10], [100]]])⟩ :=
  ((parse_overwritten pairs .bytes (fun _ _ => ⟨rfl, rfl⟩ :
    RecordWise.acceptAll.accumulator.SameVerdicts fillQuotes.accumulator) _ 0 [] .outOfQuotes
      .no).2 rfl ⟨false⟩).2.2.trans (by decide +kernel)

end Csveee
