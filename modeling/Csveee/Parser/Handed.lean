import Csveee.Parser.Validation

/-!
# What is handed out

The records that a run hands to its accumulator.  Each has the fields the configuration asks
for, and each field is text if the output is: the accumulator is given slices that were never
checked again after they were cut.
-/

namespace Csveee

variable {σ : Type}

/-- The state that records with the property leave behind, handed out one after another. -/
inductive HandedOut (acc : Accumulator σ) (property : Record → Prop) (initial : σ) : σ → Prop
  | start : HandedOut acc property initial initial
  | record {state : σ} {record : Record} (h : HandedOut acc property initial state)
      (hrecord : property record) : HandedOut acc property initial (acc state record).state

/-- The accumulator, with a list of the records it was handed. -/
def Accumulator.logged (acc : Accumulator σ) : Accumulator (σ × List Record) :=
  fun state record =>
    let verdict := acc state.1 record
    ⟨(verdict.state, state.2 ++ [record]), verdict.fields, verdict.result⟩

theorem HandedOut.logged {acc : Accumulator σ} {property : Record → Prop} {initial : σ}
    {state : σ × List Record} (h : HandedOut acc.logged property (initial, []) state) :
    ∀ record ∈ state.2, property record := by
  induction h with
  | start =>
      intro record hmem
      exact absurd hmem List.not_mem_nil
  | record _ hrecord ih =>
      intro other hmem
      rcases List.mem_append.mp hmem with hold | hnew
      · exact ih other hold
      · rw [List.mem_singleton.mp hnew]
        exact hrecord

theorem HandedOut.records {acc : RecordWise} {property : Record → Prop} {records : List Record}
    (h : HandedOut acc.accumulator property [] records) : ∀ record ∈ records, property record := by
  induction h with
  | start =>
      intro record hmem
      exact absurd hmem List.not_mem_nil
  | record _ hrecord ih =>
      intro other hmem
      rcases List.mem_append.mp hmem with hold | hnew
      · exact ih other hold
      · rw [List.mem_singleton.mp hnew]
        exact hrecord

/-- What a record handed out is promised to be. -/
structure Promised (config : Config) (output : Output) (record : Record) : Prop where
  fields : config.fieldCount.all (record.length == ·) = true
  text : output = .str → ∀ field ∈ record, Utf8.Valid field

/-- In text mode, the bytes that mean something are ASCII. -/
theorem ascii_of_control {config : Config} (h : config.validateAsciiControlBytes = .ok ())
    {kind : Config.ControlByte} {b : Byte} (hmem : (kind, some b) ∈ config.controlBytes) :
    b < 0x80 := by
  rw [Config.validateAsciiControlBytes] at h
  split at h
  · cases h
  · next hnone =>
      by_contra hlarge
      rw [UInt8.not_lt] at hlarge
      apply hnone
      rw [List.any_eq_true]
      exact ⟨_, hmem, decide_eq_true hlarge⟩

end Csveee
