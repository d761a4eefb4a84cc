import Mathlib.Data.List.TakeWhile
import Csveee.Parser.Dfa.Reference

/-!
# The stepper simulates the reference

The spans of the stepper read as the fields of the reference, the write cursor
trails the read position, and the bytes from the read position on are still the
input's.  Each move of the stepper keeps this, whether it takes one byte or a
run of them.
-/

namespace Csveee.Dfa

open Slice

/-! ## What the search relies on -/

/-- Bytes the needle scans pass over are content, and the bytes that loop in
`recordStart` are the ones the blank-line scan skips. -/
structure SearchSound (dfa : Dfa) : Prop where
  inField : dfa.inFieldNeedles.WellFormed dfa.endian
  inField_content : ∀ b, b ∉ dfa.inFieldNeedles.chars →
    (dfa.transition .inField b).next = .inField ∧
      (dfa.transition .inField b).hasOutput = true
  inQuoted : dfa.inQuotedNeedles.WellFormed dfa.endian
  inQuoted_content : ∀ b, b ∉ dfa.inQuotedNeedles.chars →
    (dfa.transition .inQuotedField b).next = .inQuotedField ∧
      (dfa.transition .inQuotedField b).hasOutput = true
  blank : ∀ b, dfa.recordStartStructural b = false ↔
    (dfa.transition .recordStart b).next = .recordStart

section New

variable (endian : Endian) (config : Config)

theorem inFieldRow_content (b : Byte) (h : (inFieldRow config b).2 = false) :
    (inFieldRow config b).1.next = .inField ∧
      (inFieldRow config b).1.hasOutput = true := by
  simp only [inFieldRow] at h ⊢
  split_ifs at h ⊢
  · cases hquoting : config.quoteHandling <;> simp_all [Transition.withStrictError]
  · exact ⟨rfl, rfl⟩

theorem inFieldRow_structural (b : Byte) (h : (inFieldRow config b).2 = true) :
    b ∈ [config.delimiter, config.terminator.bytes.1,
      config.terminator.bytes.2.getD 0, config.quote.getD 0] := by
  simp only [inFieldRow] at h
  split_ifs at h with hdelim hterm hquote
  · simp [hdelim]
  · simp only [Config.isTerminator, Bool.or_eq_true, beq_iff_eq] at hterm
    rcases hterm with hterm | hterm <;> simp [hterm]
  · simp [hquote]

theorem inQuotedFieldRow_content (b : Byte) (h : (inQuotedFieldRow config b).2 = false) :
    (inQuotedFieldRow config b).1.next = .inQuotedField ∧
      (inQuotedFieldRow config b).1.hasOutput = true := by
  simp only [inQuotedFieldRow] at h ⊢
  split_ifs at h ⊢
  exact ⟨rfl, rfl⟩

theorem inQuotedFieldRow_structural (b : Byte)
    (h : (inQuotedFieldRow config b).2 = true) :
    b ∈ [config.escape.getD 0, config.quote.getD 0] := by
  simp only [inQuotedFieldRow] at h
  split_ifs at h with hescape hquote
  · simp [hescape.1]
  · simp [hquote]

theorem recordStartRow_blank (b : Byte) :
    config.isTerminator b = true ↔ (recordStartRow config b).next = .recordStart := by
  simp only [recordStartRow, fieldStartRow]
  split_ifs <;> simp_all

theorem searchSound_new : SearchSound (Dfa.new endian config) where
  inField := StructuralNeedles.fromMask_wellFormed
  inField_content := by
    intro b hb
    apply inFieldRow_content
    have hfour := StructuralNeedles.length_bytesOf_le
      (fun b => (inFieldRow config b).2) _ (inFieldRow_structural config)
    have hchars := @StructuralNeedles.mem_chars_fromMask endian _ hfour b
    exact Bool.not_eq_true _ ▸ fun h => hb (hchars.mpr h)
  inQuoted := StructuralNeedles.fromMask_wellFormed
  inQuoted_content := by
    intro b hb
    apply inQuotedFieldRow_content
    have hfour := StructuralNeedles.length_bytesOf_le
      (fun b => (inQuotedFieldRow config b).2) _ (inQuotedFieldRow_structural config)
    have hchars := @StructuralNeedles.mem_chars_fromMask endian _
      (le_trans hfour (by simp)) b
    exact Bool.not_eq_true _ ▸ fun h => hb (hchars.mpr h)
  blank := by
    intro b
    rw [show (Dfa.new endian config).recordStartStructural b =
      !config.isTerminator b from rfl, Bool.not_eq_false']
    exact recordStartRow_blank config b

end New

/-! ## Runs of bytes under the reference -/

namespace RefState

variable {σ : Type} (config : StepperConfig) (acc : Accumulator σ) (chunkEnd : ℕ)

/-- A run of content joins the field in flight. -/
theorem after_content (x : ℕ) (content : Bytes) (s : RefState σ)
    (hstate : s.dfaState ≠ .recordStart) (haction : s.dfaState.isAction = false)
    (hcontent : ∀ b ∈ content, (config.dfa.transition s.dfaState b).next = s.dfaState ∧
      (config.dfa.transition s.dfaState b).hasOutput = true) :
    s.after config acc chunkEnd x content = .inl { s with field := s.field ++ content } := by
  induction content generalizing x s with
  | nil => simp [after]
  | cons b content ih =>
      obtain ⟨hnext, hout⟩ := hcontent b List.mem_cons_self
      have hstep : s.step config acc chunkEnd x b =
          .inl { s with field := s.field ++ [b] } := by
        have hblank : s.isBlank config b = false := by
          simp [isBlank, hstate]
        simp only [step, hblank, begin, if_neg hstate, push, hout, hnext]
        cases hs : s.dfaState <;> simp_all [State.isAction]
      rw [after, hstep]
      simp only
      rw [ih (x + 1) { s with field := s.field ++ [b] } hstate haction
        (fun c hc => hcontent c (List.mem_cons_of_mem _ hc))]
      simp only [List.append_assoc, List.singleton_append]

/-- A run of blank bytes is skipped up to the chunk's end. -/
theorem after_blank (x : ℕ) (blank : Bytes) (s : RefState σ)
    (hblank : ∀ b ∈ blank, s.isBlank config b = true) :
    s.after config acc chunkEnd x blank =
      if max chunkEnd x < x + blank.length then .inr (s.state, .ok (some (max chunkEnd x)))
      else .inl s := by
  induction blank generalizing x with
  | nil =>
      rw [if_neg (by simp only [List.length_nil]; omega)]
      rfl
  | cons b blank ih =>
      rw [after, step, if_pos (hblank b List.mem_cons_self)]
      by_cases hend : chunkEnd ≤ x
      · rw [if_pos hend, if_pos (by simp only [List.length_cons]; omega), max_eq_right hend]
      · rw [if_neg hend]
        simp only
        rw [ih (x + 1) (fun c hc => hblank c (List.mem_cons_of_mem _ hc)),
          List.length_cons, max_eq_left (by omega : x + 1 ≤ chunkEnd),
          max_eq_left (by omega : x ≤ chunkEnd),
          show x + 1 + blank.length = x + (blank.length + 1) by omega]

end RefState

/-! ## The relation -/

section Relation

variable {σ : Type}

/-- The stepper at the read position `pos` of `buf` holds what the reference
holds. -/
structure Sim (buf : Bytes) (pos : ℕ) (st : DfaStepper) (s : RefState σ) : Prop where
  dfaState : st.dfaState = s.dfaState
  fields : st.refs.map (fun span => slice buf span.1 span.2) = s.fields
  pendingSpans : st.pendingSpans = []
  field : slice buf st.fieldStart (st.writePos - st.fieldStart) = s.field
  fieldStart_le : st.fieldStart ≤ st.writePos
  writePos_le : st.writePos ≤ pos
  within : SpansWithin st.fieldStart st.refs
  behind : ∀ span ∈ st.refs, st.recordBufStart ≤ span.1
  recordBufStart_le : st.recordBufStart ≤ st.fieldStart
  lastRecordEnd : st.lastRecordEnd = s.lastRecordEnd

/-- Both know where the record and the field in flight began. -/
structure Begun (st : DfaStepper) (s : RefState σ) : Prop where
  recordInStart : st.recordInStart = s.recordInStart
  fieldInStart : st.fieldInStart = s.fieldInStart

theorem slice_eq_of_take_eq {buf buf' : Bytes} {pos off len : ℕ}
    (htake : buf'.take pos = buf.take pos) (h : off + len ≤ pos) :
    slice buf' off len = slice buf off len := by
  rw [← slice_take buf' off len pos h, htake, slice_take buf off len pos h]

theorem map_slice_eq {buf buf' : Bytes} {limit : ℕ} {spans : List (ℕ × ℕ)}
    (hspans : SpansWithin limit spans) (htake : buf'.take limit = buf.take limit) :
    spans.map (fun span => slice buf' span.1 span.2) =
      spans.map fun span => slice buf span.1 span.2 := by
  apply List.map_congr_left
  intro span hspan
  exact slice_eq_of_take_eq htake (hspans span hspan)

namespace Sim

variable {buf : Bytes} {pos : ℕ} {st : DfaStepper} {s : RefState σ}

theorem initial (buf : Bytes) (base : ℕ) (state : σ) :
    Sim buf 0 (.new base) (RefState.new base state) where
  dfaState := rfl
  fields := rfl
  pendingSpans := rfl
  field := slice_zero buf 0
  fieldStart_le := le_rfl
  writePos_le := le_rfl
  within := fun span hspan => by cases hspan
  behind := fun span hspan => by cases hspan
  recordBufStart_le := le_rfl
  lastRecordEnd := rfl

/-- Only the bytes before the read position are looked at. -/
theorem congr {buf' : Bytes} (h : Sim buf pos st s) (htake : buf'.take pos = buf.take pos) :
    Sim buf' pos st s :=
  have hfield := h.fieldStart_le
  have hwrite := h.writePos_le
  { h with
    fields := by
      rw [← h.fields]
      refine map_slice_eq (h.within.mono (by omega : st.fieldStart ≤ pos)) htake
    field := by
      rw [← h.field]
      exact slice_eq_of_take_eq htake (by omega) }

theorem advance {pos' : ℕ} (h : Sim buf pos st s) (hle : pos ≤ pos') :
    Sim buf pos' st s :=
  { h with writePos_le := le_trans h.writePos_le hle }

/-- The bytes behind the read position move down by what is consumed. -/
theorem consume {n : ℕ} (h : Sim buf pos st s) (hpos : n ≤ pos)
    (hn : n ≤ st.recordBufStart ∨ st.refs = [] ∧ st.fieldStart = st.writePos) :
    Sim (buf.drop n) (pos - n)
      { st with
        fieldStart := st.fieldStart - n
        writePos := st.writePos - n
        recordBufStart := st.recordBufStart - n
        refs := st.refs.map fun span => (span.1 - n, span.2) } s := by
  have hfield := h.fieldStart_le
  have hwrite := h.writePos_le
  have hrecord := h.recordBufStart_le
  refine { h with
    fields := ?_, field := ?_, fieldStart_le := ?_, writePos_le := ?_, within := ?_,
    behind := ?_, recordBufStart_le := ?_ }
  · rw [← h.fields, List.map_map]
    apply List.map_congr_left
    intro span hspan
    rcases hn with hn | ⟨hrefs, -⟩
    · exact slice_drop buf span.1 span.2 n (le_trans hn (h.behind span hspan))
    · rw [hrefs] at hspan
      cases hspan
  · rw [← h.field]
    simp only
    rcases hn with hn | ⟨-, hempty⟩
    · rw [show st.writePos - n - (st.fieldStart - n) = st.writePos - st.fieldStart by omega]
      exact slice_drop buf _ _ n (by omega)
    · rw [hempty, Nat.sub_self, Nat.sub_self, slice_zero, slice_zero]
  · simp only
    omega
  · simp only
    omega
  · intro span hspan
    obtain ⟨old, hold, rfl⟩ := List.mem_map.mp hspan
    rcases hn with hn | ⟨hrefs, -⟩
    · have hwithin := h.within old hold
      have hbehind := h.behind old hold
      simp only
      omega
    · rw [hrefs] at hold
      cases hold
  · intro span hspan
    obtain ⟨old, hold, rfl⟩ := List.mem_map.mp hspan
    have hbehind := h.behind old hold
    simp only
    omega
  · simp only
    omega

end Sim

end Relation

/-! ## Closing a field, handing out a record -/

section Closing

theorem drop_length_takeWhile (p : Byte → Bool) (bytes : Bytes) :
    bytes.drop (bytes.takeWhile p).length = bytes.dropWhile p := by
  have h := List.takeWhile_append_dropWhile (p := p) (l := bytes)
  calc bytes.drop (bytes.takeWhile p).length
      = (bytes.takeWhile p ++ bytes.dropWhile p).drop (bytes.takeWhile p).length := by rw [h]
    _ = bytes.dropWhile p := List.drop_left

theorem trimSpan_spec (buf : Bytes) (off len : ℕ) :
    slice buf (trimSpan buf off len).1 (trimSpan buf off len).2 =
      trimAscii (slice buf off len) ∧
    off ≤ (trimSpan buf off len).1 ∧
    (trimSpan buf off len).1 + (trimSpan buf off len).2 ≤ off + len := by
  have hlen := length_slice buf off len
  have hlead := (List.takeWhile_sublist (l := slice buf off len) isAsciiWhitespace).length_le
  have hrest := drop_length_takeWhile isAsciiWhitespace (slice buf off len)
  have hdrop := congrArg List.length hrest
  rw [List.length_drop] at hdrop
  simp only [trimSpan, leadingWhitespace, trimAscii, hrest]
  refine ⟨?_, by omega, by omega⟩
  have hcut : (buf.drop off).drop ((slice buf off len).takeWhile isAsciiWhitespace).length =
      (slice buf off len).dropWhile isAsciiWhitespace ++ buf.drop (off + len) := by
    rw [drop_eq_slice_append buf off len, List.drop_append_of_le_length hlead, hrest]
  have htail := drop_length_takeWhile isAsciiWhitespace
    ((slice buf off len).dropWhile isAsciiWhitespace).reverse
  rw [slice, ← List.drop_drop, hcut, List.take_append_of_le_length (by omega),
    ← htail, List.drop_reverse, List.reverse_reverse]

variable {σ : Type} (config : StepperConfig)

theorem Sim.closeField {buf : Bytes} {pos : ℕ} {st : DfaStepper} {s : RefState σ}
    (h : Sim buf pos st s) (dfaState : State) (totalConsumed fieldInStart : ℕ) :
    Sim buf pos
      { (st.pushField config buf).startFieldAt totalConsumed pos with dfaState := dfaState }
      { s.closeField config with dfaState := dfaState, fieldInStart := fieldInStart } := by
  have hfield := h.fieldStart_le
  have hwrite := h.writePos_le
  have hrecord := h.recordBufStart_le
  have htrim := trimSpan_spec buf st.fieldStart (st.writePos - st.fieldStart)
  exact {
    dfaState := rfl
    fields := by
      simp only [DfaStepper.pushField, DfaStepper.startFieldAt, RefState.closeField,
        List.map_append, h.fields, List.map_cons, List.map_nil]
      split_ifs
      · rw [htrim.1, h.field]
      · rw [h.field]
    pendingSpans := h.pendingSpans
    field := by
      simp only [DfaStepper.startFieldAt, RefState.closeField, Nat.sub_self, slice_zero]
    fieldStart_le := le_rfl
    writePos_le := le_rfl
    within := by
      refine (h.within.mono (show st.fieldStart ≤ pos by omega)).append ?_
      intro span hspan
      rw [List.mem_singleton] at hspan
      split_ifs at hspan
      · rw [hspan]
        exact le_trans htrim.2.2 (by omega)
      · rw [hspan]
        simp only
        omega
    behind := by
      intro span hspan
      rcases List.mem_append.mp hspan with hspan | hspan
      · exact h.behind span hspan
      · rw [List.mem_singleton] at hspan
        split_ifs at hspan <;> rw [hspan]
        · exact le_trans hrecord htrim.2.1
        · exact hrecord
    recordBufStart_le := le_trans hrecord (by simp only [DfaStepper.startFieldAt]; omega)
    lastRecordEnd := h.lastRecordEnd }

variable (acc : Accumulator σ)

/-- What `emitInFlight` leaves alone. -/
structure Emitted (limit : ℕ) (cur cur' : Cursor σ) : Prop where
  pos : cur'.pos = cur.pos
  length : cur'.buf.length = cur.buf.length
  drop : cur'.buf.drop limit = cur.buf.drop limit
  st : cur'.st = { cur.st with refs := [] }

theorem emitInFlight_spec {limit : ℕ} {cur : Cursor σ} {s : RefState σ}
    (hfields : cur.st.refs.map (fun span => slice cur.buf span.1 span.2) = s.fields)
    (hrecord : cur.st.recordInStart = s.recordInStart) (hstate : cur.state = s.state)
    (hwithin : SpansWithin limit cur.st.refs) (hlimit : limit ≤ cur.buf.length) :
    s.emit config acc = ((emitInFlight config acc cur).1.state,
        (emitInFlight config acc cur).2) ∧
      ((emitInFlight config acc cur).2 = .ok () →
        Emitted limit cur (emitInFlight config acc cur).1) := by
  have hlength : cur.st.refs.length = s.fields.length := by
    rw [← hfields, List.length_map]
  have hwrite := writeBack_spec cur.st.refs
    (acc cur.state (cur.st.refs.map fun span => slice cur.buf span.1 span.2)).fields
    cur.buf hwithin hlimit
  rw [emitInFlight, DfaStepper.checkArity, RefState.emit]
  cases hexpected : config.expectedFields with
  | none =>
      simp only [emitRecord, hfields, hstate, Option.all_none, if_true]
      rw [hfields, hstate] at hwrite
      exact ⟨trivial, fun _ => ⟨rfl, hwrite.1, hwrite.2, rfl⟩⟩
  | some expected =>
      simp only [Option.all_some, Option.getD_some, hlength, hrecord, beq_iff_eq]
      by_cases harity : s.fields.length = expected
      · simp only [if_pos harity, emitRecord, hfields, hstate]
        rw [hfields, hstate] at hwrite
        exact ⟨trivial, fun _ => ⟨rfl, hwrite.1, hwrite.2, by rw [← hrecord]⟩⟩
      · simp only [if_neg harity, hstate]
        exact ⟨trivial, fun h => by cases h⟩

end Closing

/-! ## The moves of one step -/

/-- What stays fixed during one step: the chunk's absolute end, the absolute offset of the
buffer, the bytes to step over, the buffer and the reference as the step finds them. -/
structure Window (σ : Type) where
  chunkEnd : ℕ
  totalConsumed : ℕ
  scanStart : ℕ
  scanEnd : ℕ
  buf : Bytes
  origin : RefState σ

section Step

variable {σ : Type} (config : StepperConfig) (acc : Accumulator σ) (w : Window σ)

/-- What the reference makes of the window's bytes up to `pos`. -/
def Window.after (pos : ℕ) : RefState σ ⊕ BodyOutcome σ :=
  w.origin.after config acc w.chunkEnd (w.totalConsumed + w.scanStart)
    (slice w.buf w.scanStart (pos - w.scanStart))

/-- Within a step: the reference has read the same bytes, and those ahead are as the step
found them. -/
structure InStep (cur : Cursor σ) (s : RefState σ) : Prop where
  sim : Sim cur.buf cur.pos cur.st s
  begun : s.dfaState ≠ .recordStart → Begun cur.st s
  state : cur.state = s.state
  length : cur.buf.length = w.buf.length
  start_le : w.scanStart ≤ cur.pos
  ahead : cur.buf.drop cur.pos = w.buf.drop cur.pos
  after : w.after config acc cur.pos = .inl s

/-- What a move comes to: it goes on, or it has the reference's outcome. -/
def Agrees : Cursor σ × Option StepResult → Prop
  | (cur, none) => ∃ s, InStep config acc w cur s
  | (cur, some (.done recordEnd)) =>
      w.after config acc w.scanEnd = .inr (cur.state, .ok (some recordEnd))
  | (cur, some (.error err)) => w.after config acc w.scanEnd = .inr (cur.state, .error err)
  | (_, some (.suspended _ _ _)) => False

variable {config acc w}

theorem InStep.after_add {cur : Cursor σ} {s : RefState σ} (h : InStep config acc w cur s)
    (k : ℕ) (hk : cur.pos + k ≤ w.buf.length) :
    w.after config acc (cur.pos + k) =
      s.after config acc w.chunkEnd (w.totalConsumed + cur.pos) (slice cur.buf cur.pos k) := by
  have hstart := h.start_le
  have hafter := h.after
  have hread : slice w.buf cur.pos k = slice cur.buf cur.pos k := by
    rw [slice, slice, h.ahead]
  rw [Window.after] at hafter ⊢
  rw [show cur.pos + k - w.scanStart = cur.pos - w.scanStart + k by omega, slice_add,
    RefState.after_append, hafter, length_slice_of_le _ _ _ (by omega),
    Nat.add_sub_cancel' hstart, hread, Nat.add_assoc, Nat.add_sub_cancel' hstart]

/-- An outcome on the way is what the whole window comes to. -/
theorem Window.after_of_le {outcome : BodyOutcome σ} {pos pos' : ℕ}
    (h : w.after config acc pos = .inr outcome) (hle : pos ≤ pos') :
    w.after config acc pos' = .inr outcome := by
  rw [Window.after] at h ⊢
  rw [show pos' - w.scanStart = pos - w.scanStart + (pos' - w.scanStart - (pos - w.scanStart)) by
    omega, slice_add, RefState.after_append, h]

/-- The scan moves on by what the search finds, or to the end of the window. -/
theorem scanRun_eq (endian : Endian) (needles : StructuralNeedles) (scanEnd : ℕ)
    (st : DfaStepper) (buf : Bytes) (pos : ℕ) (hpos : pos ≤ scanEnd)
    (hend : scanEnd ≤ buf.length) :
    let hay := slice buf pos (scanEnd - pos)
    let k := (needles.find endian hay).getD hay.length
    st.scanRun endian needles scanEnd buf pos =
      ({ st with writePos := st.writePos + k },
        if k ≠ 0 ∧ st.writePos ≠ pos then overlay buf st.writePos (slice buf pos k) else buf,
        pos + k) := by
  have hhay : (slice buf pos (scanEnd - pos)).length = scanEnd - pos :=
    length_slice_of_le _ _ _ (by omega)
  simp only [DfaStepper.scanRun]
  cases needles.find endian (slice buf pos (scanEnd - pos)) with
  | none => simp only [Option.getD_none, hhay, Nat.add_sub_cancel' hpos]
  | some off => simp only [Option.getD_some, Nat.add_sub_cancel_left]

theorem InStep.scanRun {cur : Cursor σ} {s : RefState σ} {needles : StructuralNeedles}
    {endian : Endian} {scanEnd : ℕ} (h : InStep config acc w cur s)
    (hwf : needles.WellFormed endian) (hstate : s.dfaState ≠ .recordStart)
    (haction : s.dfaState.isAction = false)
    (hcontent : ∀ b, b ∉ needles.chars →
      (config.dfa.transition s.dfaState b).next = s.dfaState ∧
        (config.dfa.transition s.dfaState b).hasOutput = true)
    (hpos : cur.pos ≤ scanEnd) (hend : scanEnd ≤ w.buf.length) :
    let out := cur.st.scanRun endian needles scanEnd cur.buf cur.pos
    ∃ s', InStep config acc w { cur with st := out.1, buf := out.2.1, pos := out.2.2 } s' ∧
      s'.dfaState = s.dfaState ∧ cur.pos ≤ out.2.2 ∧ out.2.2 ≤ scanEnd := by
  have hlen := h.length
  have hfield := h.sim.fieldStart_le
  have hwrite := h.sim.writePos_le
  have hhay : (slice cur.buf cur.pos (scanEnd - cur.pos)).length = scanEnd - cur.pos :=
    length_slice_of_le _ _ _ (by omega)
  obtain ⟨hk, hclean⟩ :=
    StructuralNeedles.find_spec hwf (slice cur.buf cur.pos (scanEnd - cur.pos))
  simp only [scanRun_eq endian needles scanEnd cur.st cur.buf cur.pos hpos (by omega)]
  generalize (needles.find endian (slice cur.buf cur.pos (scanEnd - cur.pos))).getD
    (slice cur.buf cur.pos (scanEnd - cur.pos)).length = k at hk hclean
  rw [hhay] at hk
  have hcut : (slice cur.buf cur.pos (scanEnd - cur.pos)).take k = slice cur.buf cur.pos k := by
    rw [slice, slice, List.take_take, min_eq_left hk]
  rw [hcut] at hclean
  have hlenk : (slice cur.buf cur.pos k).length = k := length_slice_of_le _ _ _ (by omega)
  -- the run is written right behind the field so far, at or before where it was read
  have hbuf : ∃ buf', (if k ≠ 0 ∧ cur.st.writePos ≠ cur.pos then
        overlay cur.buf cur.st.writePos (slice cur.buf cur.pos k) else cur.buf) = buf' ∧
      buf'.length = cur.buf.length ∧
      buf'.take cur.st.writePos = cur.buf.take cur.st.writePos ∧
      buf'.drop (cur.pos + k) = cur.buf.drop (cur.pos + k) ∧
      slice buf' cur.st.fieldStart (cur.st.writePos + k - cur.st.fieldStart) =
        s.field ++ slice cur.buf cur.pos k := by
    rw [← h.sim.field, show cur.st.writePos + k - cur.st.fieldStart =
      cur.st.writePos - cur.st.fieldStart + k by omega]
    by_cases hcopy : k ≠ 0 ∧ cur.st.writePos ≠ cur.pos
    · rw [if_pos hcopy]
      have happend := @slice_overlay_append _ cur.buf _ (slice cur.buf cur.pos k) _ hfield
        (by omega)
      rw [hlenk] at happend
      exact ⟨_, rfl, length_overlay (by omega), take_overlay le_rfl (by omega),
        drop_overlay (by omega) (by omega), happend⟩
    · rw [if_neg hcopy]
      refine ⟨_, rfl, rfl, rfl, rfl, ?_⟩
      rw [slice_add, Nat.add_sub_cancel' hfield]
      by_cases hzero : k = 0
      · rw [hzero, slice_zero, slice_zero]
      · rw [show cur.st.writePos = cur.pos by tauto]
  obtain ⟨buf', hbuf', hlength, htake, hdrop, hslice⟩ := hbuf
  rw [hbuf']
  refine ⟨{ s with field := s.field ++ slice cur.buf cur.pos k }, ?_, rfl, by omega,
    by omega⟩
  have htakeField : buf'.take cur.st.fieldStart = cur.buf.take cur.st.fieldStart := by
    rw [← min_eq_left hfield, ← List.take_take, htake, List.take_take]
  exact {
    sim := { h.sim with
      fields := by
        rw [← h.sim.fields]
        exact map_slice_eq h.sim.within htakeField
      field := hslice
      fieldStart_le := by
        simp only
        omega
      writePos_le := by
        simp only
        omega }
    begun := fun hne => ⟨(h.begun hne).recordInStart, (h.begun hne).fieldInStart⟩
    state := h.state
    length := hlength.trans hlen
    start_le := le_trans h.start_le (Nat.le_add_right _ k)
    ahead := by
      rw [hdrop, ← List.drop_drop, h.ahead, List.drop_drop]
    after := by
      rw [h.after_add k (by omega)]
      exact RefState.after_content config acc w.chunkEnd _ _ s hstate haction
        fun b hb => hcontent b (hclean b hb) }

/-- The entry into a state is done: a record in flight is known to begin here,
and the byte to be taken is not a blank one. -/
structure Entered (config : StepperConfig) (totalConsumed scanEnd : ℕ) (cur : Cursor σ)
    (s : RefState σ) : Prop where
  begins : s.dfaState = .recordStart →
    cur.st.recordInStart = totalConsumed + cur.pos ∧
      cur.st.fieldInStart = totalConsumed + cur.pos
  structural : ∀ b, cur.pos < scanEnd → cur.buf[cur.pos]? = some b →
    s.isBlank config b = false

/-- How the context of a step matches its window. -/
structure InWindow (ctx : StepCtx) (w : Window σ) : Prop where
  totalConsumed : ctx.totalConsumed = w.totalConsumed
  remainingInChunk : ctx.remainingInChunk = w.chunkEnd - w.totalConsumed
  scanEnd : ctx.scanEnd = w.scanEnd
  scanEnd_le : ctx.scanEnd ≤ w.buf.length

theorem enterState_recordStart {ctx : StepCtx} {cur : Cursor σ} {s : RefState σ}
    (hsound : SearchSound config.dfa) (hctx : InWindow ctx w)
    (h : InStep config acc w cur s) (hpos : cur.pos ≤ ctx.scanEnd)
    (hstate : s.dfaState = .recordStart) :
    match enterState config ctx cur with
    | (cur', none) => ∃ s', InStep config acc w cur' s' ∧
        Entered config w.totalConsumed ctx.scanEnd cur' s' ∧
        cur.pos ≤ cur'.pos ∧ cur'.pos ≤ ctx.scanEnd
    | (cur', some result) => Agrees config acc w (cur', some result) := by
  have hlen := h.length
  have hscan := hctx.scanEnd_le
  have hblank : ∀ b, (!config.dfa.recordStartStructural b) = true ↔
      s.isBlank config b = true := by
    intro b
    rw [Bool.not_eq_true', hsound.blank b, RefState.isBlank, hstate]
    simp
  obtain ⟨hle, hall, hdrop, hnext⟩ := takeWhile_slice_spec cur.buf
    (fun b => !config.dfa.recordStartStructural b) cur.pos ctx.scanEnd hpos (by omega)
  rw [enterState, h.sim.dfaState, hstate]
  simp only [hctx.remainingInChunk, hctx.totalConsumed]
  generalize (slice cur.buf cur.pos (ctx.scanEnd - cur.pos)).takeWhile
    (fun b => !config.dfa.recordStartStructural b) = blank at hle hall hdrop hnext ⊢
  have hread : slice cur.buf cur.pos blank.length = blank := by
    rw [slice, hdrop, List.take_left]
  have hafter := h.after_add blank.length (by omega)
  rw [hread, RefState.after_blank config acc w.chunkEnd _ blank s
    (fun b hb => (hblank b).mp (hall b hb))] at hafter
  by_cases hdone : max (w.chunkEnd - w.totalConsumed) cur.pos < cur.pos + blank.length
  · rw [if_pos hdone]
    rw [if_pos (by omega)] at hafter
    have hend := Window.after_of_le hafter (hctx.scanEnd ▸ hle)
    simp only [Agrees]
    rw [hend, h.state]
    congr 4
    omega
  · rw [if_neg hdone]
    rw [if_neg (by omega)] at hafter
    refine ⟨s, ?_, ?_, Nat.le_add_right _ _, hle⟩
    · exact {
        sim := { h.sim.advance (Nat.le_add_right _ blank.length) with }
        begun := fun hne => absurd hstate hne
        state := h.state
        length := h.length
        start_le := le_trans h.start_le (Nat.le_add_right _ _)
        ahead := by
          simp only
          rw [← List.drop_drop, h.ahead, List.drop_drop]
        after := hafter }
    · exact {
        begins := fun _ => ⟨rfl, rfl⟩
        structural := by
          intro b hlt hb
          rw [← Bool.not_eq_true, ← hblank b, hnext b hlt hb]
          exact Bool.false_ne_true }

theorem enterState_spec {ctx : StepCtx} {cur : Cursor σ} {s : RefState σ}
    (hsound : SearchSound config.dfa) (hctx : InWindow ctx w)
    (h : InStep config acc w cur s) (hpos : cur.pos ≤ ctx.scanEnd) :
    match enterState config ctx cur with
    | (cur', none) => ∃ s', InStep config acc w cur' s' ∧
        Entered config w.totalConsumed ctx.scanEnd cur' s' ∧
        cur.pos ≤ cur'.pos ∧ cur'.pos ≤ ctx.scanEnd
    | (cur', some result) => Agrees config acc w (cur', some result) := by
  have entered : ∀ (cur : Cursor σ) (s : RefState σ), s.dfaState ≠ .recordStart →
      Entered config w.totalConsumed ctx.scanEnd cur s := fun cur s hne =>
    { begins := fun heq => absurd heq hne
      structural := fun b _ _ => by simp [RefState.isBlank, hne] }
  cases hstate : s.dfaState with
  | recordStart => exact enterState_recordStart hsound hctx h hpos hstate
  | inField =>
      have hrun := h.scanRun hsound.inField (by simp [hstate]) (by simp [hstate, State.isAction])
        (hstate ▸ hsound.inField_content) hpos hctx.scanEnd_le
      rw [enterState, h.sim.dfaState, hstate]
      obtain ⟨s', hin, hsame, hge, hle⟩ := hrun
      exact ⟨s', hin, entered _ _ (by simp [hsame, hstate]), hge, hle⟩
  | inQuotedField =>
      have hrun := h.scanRun hsound.inQuoted (by simp [hstate])
        (by simp [hstate, State.isAction]) (hstate ▸ hsound.inQuoted_content) hpos
        hctx.scanEnd_le
      rw [enterState, h.sim.dfaState, hstate]
      obtain ⟨s', hin, hsame, hge, hle⟩ := hrun
      exact ⟨s', hin, entered _ _ (by simp [hsame, hstate]), hge, hle⟩
  | _ =>
      rw [enterState, h.sim.dfaState, hstate]
      exact ⟨s, h, entered _ _ (by simp [hstate]), le_rfl, hpos⟩

/-- The cursor once the byte's content is written and the read position is past
it. -/
def takeByte (trans : Transition) (byte : Byte) (cur : Cursor σ) : Cursor σ :=
  let cur := if trans.hasOutput then
      { cur with
        buf := cur.buf.set cur.st.writePos byte
        st := { cur.st with writePos := cur.st.writePos + 1 } }
    else cur
  { cur with pos := cur.pos + 1 }

theorem stepByte_eq (ctx : StepCtx) (byte : Byte) (cur : Cursor σ) :
    stepByte config acc ctx byte cur =
      let trans := config.dfa.transition cur.st.dfaState byte
      let cur := takeByte trans byte cur
      if trans.next.isAction then
        applyAction config acc ctx.remainingInChunk ctx.totalConsumed trans.next cur
      else ({ cur with st := { cur.st with dfaState := trans.next } }, none) := rfl

/-- What `takeByte` leaves for the action. -/
structure Taken (w : Window σ) (cur cur' : Cursor σ) (s : RefState σ) : Prop where
  sim : Sim cur'.buf cur'.pos cur'.st s
  begun : Begun cur'.st s
  state : cur'.state = s.state
  length : cur'.buf.length = w.buf.length
  pos : cur'.pos = cur.pos + 1
  drop : cur'.buf.drop cur'.pos = cur.buf.drop (cur.pos + 1)

theorem taken_takeByte {cur : Cursor σ} {s : RefState σ} {scanEnd : ℕ} {byte : Byte}
    (trans : Transition) (h : InStep config acc w cur s)
    (hentered : Entered config w.totalConsumed scanEnd cur s)
    (hpos : cur.pos < w.buf.length) :
    Taken w cur (takeByte trans byte cur)
      ((s.begin (w.totalConsumed + cur.pos)).push trans byte) := by
  have hlen := h.length
  have hfield := h.sim.fieldStart_le
  have hwrite := h.sim.writePos_le
  have hsim : Sim cur.buf cur.pos cur.st (s.begin (w.totalConsumed + cur.pos)) := by
    rw [RefState.begin]
    split_ifs
    · exact { h.sim with }
    · exact h.sim
  have hbegun : Begun cur.st (s.begin (w.totalConsumed + cur.pos)) := by
    rw [RefState.begin]
    split_ifs with hstart
    · exact ⟨(hentered.begins hstart).1, (hentered.begins hstart).2⟩
    · exact h.begun hstart
  have hstate : cur.state = (s.begin (w.totalConsumed + cur.pos)).state := by
    rw [RefState.begin]
    split_ifs <;> exact h.state
  generalize s.begin (w.totalConsumed + cur.pos) = s at hsim hbegun hstate
  rw [takeByte, RefState.push]
  cases trans.hasOutput with
  | false =>
      exact {
        sim := hsim.advance (Nat.le_succ cur.pos)
        begun := hbegun
        state := hstate
        length := hlen
        pos := rfl
        drop := rfl }
  | true =>
      have hset := set_eq_overlay (by omega : cur.st.writePos < cur.buf.length) byte
      have htake : (cur.buf.set cur.st.writePos byte).take cur.st.fieldStart =
          cur.buf.take cur.st.fieldStart := by
        rw [hset]
        exact take_overlay hfield (by omega)
      exact {
        sim := { hsim with
          fields := by
            rw [← hsim.fields]
            exact map_slice_eq hsim.within htake
          field := by
            have happend := @slice_overlay_append _ cur.buf _ [byte] _ hfield
              (by simp only [List.length_singleton]; omega)
            rw [hsim.field, List.length_singleton] at happend
            simp only [if_true, hset]
            rw [← happend, Nat.sub_add_comm hfield]
          fieldStart_le := Nat.le_succ_of_le hfield
          writePos_le := Nat.succ_le_succ hwrite }
        begun := ⟨hbegun.recordInStart, hbegun.fieldInStart⟩
        state := hstate
        length := by
          simp only [if_true, List.length_set]
          exact hlen
        pos := rfl
        drop := by
          simp only [if_true, hset]
          exact drop_overlay (by simp only [List.length_singleton]; omega)
            (by simp only [List.length_singleton]; omega) }

theorem applyAction_recordEnd {ctx : StepCtx} {cur cur' : Cursor σ} {s : RefState σ}
    (hctx : InWindow ctx w) (h : Taken w cur cur' s) (hpos : cur.pos < w.buf.length)
    (hscan : cur.pos + 1 ≤ w.scanEnd) (hstart : w.scanStart ≤ cur.pos)
    (hahead : cur.buf.drop (cur.pos + 1) = w.buf.drop (cur.pos + 1))
    (hafter : w.after config acc (cur.pos + 1) =
      s.endRecord config acc w.chunkEnd (w.totalConsumed + cur.pos)) :
    Agrees config acc w
        (applyAction config acc ctx.remainingInChunk ctx.totalConsumed .recordEnd cur') ∧
      ((applyAction config acc ctx.remainingInChunk ctx.totalConsumed .recordEnd cur').2 =
          none →
        (applyAction config acc ctx.remainingInChunk ctx.totalConsumed .recordEnd
          cur').1.pos = cur.pos + 1) := by
  have hclosed := h.sim.closeField config cur'.st.dfaState ctx.totalConsumed s.fieldInStart
  have hpos' := h.pos
  have hlen := h.length
  obtain ⟨hemit, hemitted⟩ := @emitInFlight_spec _ config acc _
    { cur' with st := (cur'.st.pushField config cur'.buf).startFieldAt ctx.totalConsumed cur'.pos }
    (s.closeField config) hclosed.fields h.begun.recordInStart h.state
    hclosed.within (by simp only [DfaStepper.startFieldAt]; omega)
  rw [RefState.endRecord] at hafter
  simp only [hemit] at hafter
  simp only [applyAction, reduceCtorEq, if_false, ne_eq, not_true_eq_false]
  cases hresult : emitInFlight config acc
      { cur' with st :=
        (cur'.st.pushField config cur'.buf).startFieldAt ctx.totalConsumed cur'.pos } with
  | mk out result =>
      rw [hresult] at hafter hemitted
      cases result with
      | error err =>
          refine ⟨?_, fun hnone => by cases hnone⟩
          simp only [Agrees]
          exact Window.after_of_le hafter hscan
      | ok =>
          have hout := hemitted rfl
          have houtpos : out.pos = cur.pos + 1 := hout.pos.trans hpos'
          have hrefs : out.st.refs = [] := congrArg DfaStepper.refs hout.st
          have hspans : out.st.pendingSpans = [] :=
            (congrArg DfaStepper.pendingSpans hout.st).trans hclosed.pendingSpans
          have hdrop : out.buf.drop (cur.pos + 1) = cur.buf.drop (cur.pos + 1) := by
            rw [← h.drop, ← hpos']
            exact hout.drop
          simp only [houtpos, Nat.add_sub_cancel, hctx.remainingInChunk,
            hctx.totalConsumed]
          by_cases hdone : w.chunkEnd ≤ w.totalConsumed + cur.pos
          · rw [if_pos (by omega)]
            simp only [if_pos hdone] at hafter
            refine ⟨?_, fun hnone => by cases hnone⟩
            simp only [Agrees]
            exact Window.after_of_le hafter hscan
          · rw [if_neg (by omega)]
            simp only [if_neg hdone] at hafter
            refine ⟨⟨{ s.closeField config with
              dfaState := .recordStart
              fields := []
              fieldInStart := w.totalConsumed + cur.pos + 1
              lastRecordEnd := some (w.totalConsumed + cur.pos)
              state := out.state }, ?_⟩, fun _ => rfl⟩
            exact {
              sim := {
                dfaState := rfl
                fields := by
                  simp only [DfaStepper.startFieldAt, hrefs, List.map_nil]
                pendingSpans := hspans
                field := by
                  simp only [DfaStepper.startFieldAt, RefState.closeField, Nat.sub_self,
                    slice_zero]
                fieldStart_le := le_rfl
                writePos_le := le_rfl
                within := by
                  intro span hspan
                  simp only [DfaStepper.startFieldAt, hrefs, List.not_mem_nil] at hspan
                behind := by
                  intro span hspan
                  simp only [DfaStepper.startFieldAt, hrefs, List.not_mem_nil] at hspan
                recordBufStart_le := le_rfl
                lastRecordEnd := rfl }
              begun := fun hne => absurd rfl hne
              state := rfl
              length := hout.length.trans hlen
              start_le := by
                simp only
                omega
              ahead := hdrop.trans hahead
              after := hafter }

theorem stepByte_spec {ctx : StepCtx} {cur : Cursor σ} {s : RefState σ} {byte : Byte}
    (hctx : InWindow ctx w) (h : InStep config acc w cur s)
    (hentered : Entered config w.totalConsumed ctx.scanEnd cur s)
    (hpos : cur.pos < ctx.scanEnd) (hbyte : cur.buf[cur.pos]? = some byte) :
    Agrees config acc w (stepByte config acc ctx byte cur) ∧
      ((stepByte config acc ctx byte cur).2 = none →
        (stepByte config acc ctx byte cur).1.pos = cur.pos + 1) := by
  have hlt : cur.pos < w.buf.length := lt_of_lt_of_le hpos hctx.scanEnd_le
  have hscan : cur.pos + 1 ≤ w.scanEnd := hctx.scanEnd ▸ hpos
  have htaken := @taken_takeByte _ _ _ _ _ _ _ byte (config.dfa.transition s.dfaState byte) h
    hentered hlt
  have hahead : cur.buf.drop (cur.pos + 1) = w.buf.drop (cur.pos + 1) := by
    rw [← List.drop_drop, h.ahead, List.drop_drop]
  have hread : slice cur.buf cur.pos 1 = [byte] := by
    have hcons : cur.buf.drop cur.pos = byte :: cur.buf.drop (cur.pos + 1) := by
      rw [List.drop_eq_getElem?_toList_append, hbyte]
      rfl
    rw [slice, hcons]
    rfl
  have hafter := h.after_add 1 (by omega)
  rw [hread, RefState.after_one, RefState.step, hentered.structural byte hpos hbyte,
    if_neg Bool.false_ne_true] at hafter
  rw [stepByte_eq, h.sim.dfaState]
  simp only at hafter ⊢
  have hpos' := htaken.pos
  have hstart := h.start_le
  generalize takeByte (config.dfa.transition s.dfaState byte) byte cur = cur' at htaken hpos' ⊢
  generalize (s.begin (w.totalConsumed + cur.pos)).push
    (config.dfa.transition s.dfaState byte) byte = s' at htaken hafter ⊢
  have hdrop : cur'.buf.drop cur'.pos = w.buf.drop cur'.pos := by
    rw [htaken.drop, hahead, hpos']
  -- every state that is no action is entered as it is
  have hstay : ∀ next : State,
      w.after config acc (cur.pos + 1) = .inl { s' with dfaState := next } →
      Agrees config acc w ({ cur' with st := { cur'.st with dfaState := next } }, none) :=
    fun next hnext => ⟨{ s' with dfaState := next }, {
      sim := { htaken.sim with dfaState := rfl }
      begun := fun _ => ⟨htaken.begun.recordInStart, htaken.begun.fieldInStart⟩
      state := htaken.state
      length := htaken.length
      start_le := by
        simp only
        omega
      ahead := hdrop
      after := hpos' ▸ hnext }⟩
  cases hnext : (config.dfa.transition s.dfaState byte).next with
  | error =>
      simp only [hnext] at hafter
      simp only [State.isAction, if_true, applyAction]
      refine ⟨?_, fun hnone => by cases hnone⟩
      simp only [Agrees, hpos', Nat.add_sub_cancel, hctx.totalConsumed, ← Nat.add_assoc]
      rw [Window.after_of_le hafter hscan, htaken.state]
  | fieldEnd =>
      simp only [hnext] at hafter
      simp only [State.isAction, if_true, applyAction, reduceCtorEq, if_false, ne_eq,
        not_false_eq_true]
      refine ⟨⟨{ s'.closeField config with
        dfaState := .fieldStart
        fieldInStart := w.totalConsumed + cur.pos + 1 }, ?_⟩, fun _ => hpos'⟩
      exact {
        sim := htaken.sim.closeField config .fieldStart ctx.totalConsumed
          (w.totalConsumed + cur.pos + 1)
        begun := fun _ => ⟨htaken.begun.recordInStart, by
          simp only [DfaStepper.startFieldAt, hpos', hctx.totalConsumed, Nat.add_assoc]⟩
        state := htaken.state
        length := htaken.length
        start_le := by
          simp only
          omega
        ahead := hdrop
        after := hpos' ▸ hafter }
  | recordEnd =>
      simp only [hnext] at hafter
      simp only [State.isAction, if_true]
      exact applyAction_recordEnd hctx htaken hlt hscan hstart hahead hafter
  | _ =>
      simp only [hnext] at hafter
      simp only [State.isAction, Bool.false_eq_true, if_false]
      exact ⟨hstay _ hafter, fun _ => hpos'⟩

/-- The loop of one step takes the window's bytes as the reference does. -/
theorem stepLoop_spec {ctx : StepCtx} (hsound : SearchSound config.dfa)
    (hctx : InWindow ctx w) (fuel : ℕ) (cur : Cursor σ) (s : RefState σ)
    (h : InStep config acc w cur s) (hpos : cur.pos ≤ ctx.scanEnd)
    (hfuel : ctx.scanEnd ≤ cur.pos + fuel) :
    Agrees config acc w (stepLoop config acc ctx fuel cur) ∧
      ((stepLoop config acc ctx fuel cur).2 = none →
        (stepLoop config acc ctx fuel cur).1.pos = ctx.scanEnd) := by
  induction fuel generalizing cur s with
  | zero =>
      rw [stepLoop]
      exact ⟨⟨s, h⟩, fun _ => by simp only; omega⟩
  | succ fuel ih =>
      rw [stepLoop]
      by_cases hmore : cur.pos < ctx.scanEnd
      · rw [if_pos hmore]
        have henter := enterState_spec hsound hctx h hpos
        cases hout : enterState config ctx cur with
        | mk cur' result =>
            rw [hout] at henter
            cases result with
            | some result => exact ⟨henter, fun hnone => by cases hnone⟩
            | none =>
                obtain ⟨s', hin, hentered, hge, hle⟩ := henter
                simp only
                by_cases hend : ctx.scanEnd ≤ cur'.pos
                · rw [if_pos hend]
                  exact ⟨⟨s', hin⟩, fun _ => by simp only; omega⟩
                · rw [if_neg hend]
                  have hlen := hin.length
                  have hscan := hctx.scanEnd_le
                  have hbyte : cur'.buf[cur'.pos]? = some cur'.buf[cur'.pos] :=
                    List.getElem?_eq_getElem (by omega)
                  obtain ⟨hagrees, hnext⟩ :=
                    stepByte_spec hctx hin hentered (by omega) hbyte
                  simp only [hbyte]
                  cases hstep : stepByte config acc ctx cur'.buf[cur'.pos] cur' with
                  | mk cur'' result =>
                      rw [hstep] at hagrees hnext
                      cases result with
                      | some result => exact ⟨hagrees, fun hnone => by cases hnone⟩
                      | none =>
                          obtain ⟨s'', hin''⟩ := hagrees
                          have hpos'' : cur''.pos = cur'.pos + 1 := hnext rfl
                          exact ih cur'' s'' hin'' (by omega) (by omega)
      · rw [if_neg hmore]
        exact ⟨⟨s, h⟩, fun _ => by simp only; omega⟩

end Step

end Csveee.Dfa
