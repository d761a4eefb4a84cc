import Csveee.Parser.Dfa.RoundTrip
import Csveee.Scheduler.Backends

/-!
# Runs invert quoting

Records written as CSV come back from both runs, whatever the chunk size and the backend: no
chunk that begins inside a quoted field, an escape or a run of terminators spoils them.
-/

namespace Csveee

variable {config : Config} {q : Byte}

/-- The record, written the same way, under another quote handling. -/
def WrittenRecord.withHandling (record : WrittenRecord config q) (mode : QuoteHandling) :
    WrittenRecord (config.withHandling mode) q where
  first := ⟨record.first.content, record.first.quoted, record.first.plain⟩
  rest := record.rest.map fun field => ⟨field.content, field.quoted, field.plain⟩
  ending := record.ending
  ending_blank := record.ending_blank
  opens := record.opens
  not_blank := fun hquoted hrest => record.not_blank hquoted (List.map_eq_nil_iff.mp hrest)

theorem WrittenRecord.values_withHandling (record : WrittenRecord config q)
    (mode : QuoteHandling) : (record.withHandling mode).values = record.values := by
  rw [values, values, withHandling, List.map_map]
  rfl

theorem WrittenRecord.text_withHandling (record : WrittenRecord config q) (mode : QuoteHandling)
    (e : Byte) : (record.withHandling mode).text e = record.text e := by
  rw [text, text, withHandling, List.flatMap_map]
  rfl

namespace Dfa

variable {σ : Type}

/-- A reading that gets through the bytes meets no state of error, and ends out of quotes. -/
theorem Reading.accepts_of_run {config : StepperConfig} {acc : Accumulator σ}
    (hshape : Shape config.dfa) {bytes : Bytes} {state left : σ}
    (hrun : (Reading.new state).run config acc bytes = .ok left) : config.dfa.Accepts bytes := by
  have hsteps : ∀ n, ∃ next, (Reading.new state).steps config acc (bytes.take n) = .ok next := by
    intro n
    rw [← List.take_append_drop n bytes, Reading.run_append] at hrun
    cases hfront : (Reading.new state).steps config acc (bytes.take n) with
    | error lost =>
        rw [hfront] at hrun
        cases hrun
    | ok next => exact ⟨next, rfl⟩
  constructor
  · intro n herror
    obtain ⟨next, hnext⟩ := hsteps n
    obtain ⟨hsettled, hstate⟩ := Reading.steps_settled hshape (Reading.settled_new state) hnext
    have hlive := hsettled.1
    rw [hstate, show (Reading.new state).dfaState = .recordStart from rfl, herror] at hlive
    cases hlive
  · obtain ⟨next, hnext⟩ := hsteps bytes.length
    rw [List.take_length] at hnext
    obtain ⟨-, hstate⟩ := Reading.steps_settled hshape (Reading.settled_new state) hnext
    rw [Reading.run, hnext] at hrun
    change next.finish config acc = .ok left at hrun
    rw [← show next.dfaState = config.dfa.stateAfter .recordStart bytes from hstate]
    rw [Reading.finish] at hrun
    cases hlast : next.dfaState <;> rw [hlast] at hrun <;> first | rfl | cases hrun

end Dfa

namespace Scheduler

open Dfa

section Written

variable (platform : Platform) (config : ValidConfig) {q e : Byte}
  (hquote : config.config.quote = some q) (hescape : config.config.escape = some e)
  (htrim : config.config.trim = false) (records : List (WrittenRecord config.config q))
  (harity : ∀ record ∈ records, ∀ n, config.config.fieldCount = some n →
    record.values.length = n)
  (hends : ∀ record ∈ records.dropLast, record.ending ≠ []) {acc : RecordWise}
  (haccepts : ∀ record, acc.verdict record = .ok ())

include hquote hescape htrim harity hends haccepts

theorem bodyRecords_written (endian : Endian) {data : Bytes}
    (hdata : data = records.flatMap (·.text e)) :
    ∃ next, bodyRecords (reference endian config.config) acc data 0 data.length =
      .ok (records.map (·.values), next) := by
  have hreading := Reading.run_written config.distinct endian hquote hescape htrim haccepts records
    [] harity hends
  rw [List.nil_append, ← hdata,
    ← refParse_reading (shape_reference config.distinct endian)] at hreading
  cases hparse : refParse (reference endian config.config) acc.accumulator data.length 0 data []
      with
  | mk left result =>
      rw [hparse] at hreading
      cases result with
      | error err => cases hreading
      | ok next =>
          cases hreading
          exact ⟨_, bodyRecords_ok.mpr ⟨next, hparse, rfl⟩⟩

theorem accepts_written (endian : Endian) :
    (dialect endian config.config .strict).Accepts (records.flatMap (·.text e)) := by
  have hreading := @Reading.run_written _ (config.distinct.withHandling .strict) endian _ _ hquote
    hescape htrim acc haccepts (records.map (·.withHandling .strict)) [] ?_ ?_
  · have htext : (records.map (·.withHandling .strict)).flatMap (·.text e) =
        records.flatMap (·.text e) := by
      rw [List.flatMap_map]
      apply List.flatMap_congr
      intro record _
      exact record.text_withHandling .strict e
    rw [htext] at hreading
    exact Reading.accepts_of_run
      (shape_reference (config.distinct.withHandling .strict) endian) hreading
  · intro record hmem n hcount
    obtain ⟨written, hwritten, rfl⟩ := List.mem_map.mp hmem
    rw [written.values_withHandling]
    exact harity written hwritten n hcount
  · intro record hmem
    rw [← List.map_dropLast] at hmem
    obtain ⟨written, hwritten, rfl⟩ := List.mem_map.mp hmem
    exact hends written hwritten

/-- Records written as CSV come back from the parse in chunks and from the stream. -/
theorem runSlice_written {backend : Backend}
    (hbackend : resolveParserBackend config.config = .ok backend)
    (hheaders : config.config.hasHeaders = false) (hcomment : config.config.comment = none)
    (data : Input) (hdata : data.bytes = records.flatMap (·.text e)) (env : Environment)
    (hreliable : env.Reliable) :
    (∃ states, runSlice platform config .bytes acc.accumulator [] data env = .ok states ∧
        states.flatten = records.map (·.values)) ∧
      runStream platform config .bytes acc.accumulator [] data env =
        .ok [records.map (·.values)] := by
  have h := @sound_recordJob platform config acc data env _ hbackend hcomment
  obtain ⟨next, hbody⟩ := bodyRecords_written config hquote hescape htrim records harity hends
    haccepts platform.endian hdata
  have hclean := accepts_written config hquote hescape htrim records harity hends haccepts
    platform.endian
  rw [← hdata] at hclean
  have hcompletes : h.Completes 0 (recordJob platform config acc data env backend).runWith := by
    rcases Nat.eq_zero_or_pos data.bytes.length with hempty | hpos
    · exact h.completes_empty hempty
    · exact h.runWith_wellFormed hreliable hheaders hpos hclean.1
  have hsame := @Job.Sound.sameRecords _ _ _ _ _ h hreliable data.length_le_usizeMax .no 0 rfl _
    hcompletes
  rw [runSlice_eq hbackend, runStream_eq hbackend, hheaders, if_neg Bool.false_ne_true]
  have hseq : h.seq.body 0 (recordJob platform config acc data env backend).data.length =
      .ok (records.map (·.values), next) := hbody
  cases hslice : (recordJob platform config acc data env backend).runWith with
  | error err =>
      rw [hslice, Job.Sound.Completes, hseq] at hcompletes
      cases hcompletes
  | ok states =>
      rw [hslice] at hcompletes hsame
      obtain ⟨next', hstates⟩ := hcompletes
      have hvalues := (Prod.mk.inj (Except.ok.inj (hseq.symm.trans hstates))).1
      refine ⟨⟨states, rfl, hvalues.symm⟩, ?_⟩
      cases hstream : (Job.stream (recordJob platform config acc data env backend) .no).result with
      | error err =>
          rw [hstream] at hsame
          exact hsame.elim
      | ok streamed =>
          rw [hstream] at hsame
          change states.flatten = [streamed].flatten at hsame
          rw [List.flatten_singleton] at hsame
          rw [hvalues, hsame]
          rfl

end Written

/-- The record of one field, in quotes: a quote, and a line feed behind it. -/
def quotedLine : WrittenRecord quoted4.config 34 where
  first := ⟨[34, 10, 97], true, fun hplain => absurd hplain (by decide)⟩
  rest := []
  ending := [10]
  ending_blank := List.forall_mem_singleton.mpr rfl
  opens := fun hplain => absurd hplain (by decide)
  not_blank := fun hplain => absurd hplain (by decide)

/-- A chunk ends within the field. -/
theorem runSlice_written_line :
    (∃ states, runSlice scalarPlatform quoted4 .bytes RecordWise.acceptAll.accumulator []
        ⟨[34, 34, 34, 10, 97, 34, 10], by decide⟩ exactReaders = .ok states ∧
        states.flatten = [[[34, 10, 97]]]) ∧
      runStream scalarPlatform quoted4 .bytes RecordWise.acceptAll.accumulator []
        ⟨[34, 34, 34, 10, 97, 34, 10], by decide⟩ exactReaders = .ok [[[[34, 10, 97]]]] :=
  runSlice_written scalarPlatform quoted4 rfl rfl rfl [quotedLine] (by decide) (by decide)
    (fun _ => rfl) rfl rfl rfl ⟨[34, 34, 34, 10, 97, 34, 10], by decide⟩ rfl exactReaders
    reliable_exactReaders

end Scheduler

end Csveee
