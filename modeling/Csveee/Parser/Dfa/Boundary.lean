import Csveee.Parser.Dfa.Buffering

/-!
# The boundary scan, byte by byte

What the boundary scan finds depends on the bytes of the chunk only: it is the
fold of the transition over them, up to the first record end or rejection.  The
blank-line skip likewise.
-/

namespace Csveee.Dfa

open Slice

/-- Fold the transition over the bytes from offset `x` on, up to the first record
end or rejection. -/
def scanBytes (dfa : Dfa) (strictProbe : Bool) : State → ℕ → Bytes → BufferScan
  | state, _, [] => .exhausted state
  | state, x, b :: rest =>
      let trans := dfa.transition state b
      if strictProbe && trans.strictError then .rejected x
      else match trans.next with
        | .error => .rejected x
        | .recordEnd => .recordEnd x
        | .fieldEnd => scanBytes dfa strictProbe .fieldStart (x + 1) rest
        | next => scanBytes dfa strictProbe next (x + 1) rest

def BufferScan.shift (n : ℕ) : BufferScan → BufferScan
  | .exhausted state => .exhausted state
  | .recordEnd pos => .recordEnd (n + pos)
  | .rejected pos => .rejected (n + pos)

/-- The position a scan reports lies within bounds. -/
def BufferScan.Within (lo hi : ℕ) : BufferScan → Prop
  | .exhausted _ => True
  | .recordEnd pos => lo ≤ pos ∧ pos < hi
  | .rejected pos => lo ≤ pos ∧ pos < hi

section Scan

variable (dfa : Dfa) (strictProbe : Bool)

theorem scanBytes_shift (state : State) (n x : ℕ) (bytes : Bytes) :
    scanBytes dfa strictProbe state (n + x) bytes =
      (scanBytes dfa strictProbe state x bytes).shift n := by
  induction bytes generalizing state x with
  | nil => rfl
  | cons b rest ih =>
      simp only [scanBytes]
      split_ifs
      · rfl
      · split
        · rfl
        · rfl
        · exact ih .fieldStart (x + 1)
        · exact ih _ (x + 1)

theorem scanBytes_append (state : State) (x : ℕ) (left right : Bytes) :
    scanBytes dfa strictProbe state x (left ++ right) =
      match scanBytes dfa strictProbe state x left with
      | .exhausted state => scanBytes dfa strictProbe state (x + left.length) right
      | .recordEnd pos => .recordEnd pos
      | .rejected pos => .rejected pos := by
  induction left generalizing state x with
  | nil => rfl
  | cons b rest ih =>
      simp only [List.cons_append, scanBytes, List.length_cons,
        show x + (rest.length + 1) = x + 1 + rest.length by omega]
      split_ifs
      · rfl
      · split
        · rfl
        · rfl
        · exact ih .fieldStart (x + 1)
        · exact ih _ (x + 1)

theorem scanBytes_within (state : State) (x : ℕ) (bytes : Bytes) :
    (scanBytes dfa strictProbe state x bytes).Within x (x + bytes.length) := by
  induction bytes generalizing state x with
  | nil => trivial
  | cons b rest ih =>
      have hstep : ∀ next, (scanBytes dfa strictProbe next (x + 1) rest).Within x
          (x + (rest.length + 1)) := by
        intro next
        have hrest := ih next (x + 1)
        cases hscan : scanBytes dfa strictProbe next (x + 1) rest with
        | exhausted => trivial
        | recordEnd pos | rejected pos =>
            rw [hscan] at hrest
            simp only [BufferScan.Within] at hrest ⊢
            omega
      have hhere : x ≤ x ∧ x < x + (rest.length + 1) := ⟨le_rfl, by omega⟩
      simp only [scanBytes, List.length_cons]
      split_ifs
      · exact hhere
      · cases (dfa.transition state b).next with
        | error => exact hhere
        | recordEnd => exact hhere
        | fieldEnd => exact hstep .fieldStart
        | _ => exact hstep _

/-- A run of bytes that keep the state is passed over. -/
theorem scanBytes_stay (state : State) (x : ℕ) (run rest : Bytes)
    (haction : state.isAction = false)
    (hstay : ∀ b ∈ run, (dfa.transition state b).next = state ∧
      (strictProbe && (dfa.transition state b).strictError) = false) :
    scanBytes dfa strictProbe state x (run ++ rest) =
      scanBytes dfa strictProbe state (x + run.length) rest := by
  induction run generalizing x with
  | nil => rfl
  | cons b run ih =>
      obtain ⟨hnext, hprobe⟩ := hstay b List.mem_cons_self
      have hrest := ih (x + 1) fun c hc => hstay c (List.mem_cons_of_mem _ hc)
      rw [List.cons_append, List.length_cons,
        show x + (run.length + 1) = x + 1 + run.length by omega, ← hrest]
      simp only [scanBytes, hprobe, hnext, Bool.false_eq_true, if_false]
      cases state <;> first | rfl | cases haction

/-- Under the probe, the scans of the fast path pass over no flagged cell. -/
structure ProbeSound (dfa : Dfa) : Prop extends SearchSound dfa where
  inField_probe : ∀ b, b ∉ dfa.inFieldNeedles.chars →
    (dfa.transition .inField b).strictError = false
  inQuoted_probe : ∀ b, b ∉ dfa.inQuotedNeedles.chars →
    (dfa.transition .inQuotedField b).strictError = false
  blank_probe : ∀ b, dfa.recordStartStructural b = false →
    (dfa.transition .recordStart b).strictError = false

theorem probeSound_new (endian : Endian) (config : Config) :
    ProbeSound (Dfa.new endian (findConfig config)) where
  toSearchSound := searchSound_new endian (findConfig config)
  inField_probe := by
    intro b hb
    have hfour := StructuralNeedles.length_bytesOf_le
      (fun b => (inFieldRow (findConfig config) b).2) _
      (inFieldRow_structural (findConfig config))
    have hchars := @StructuralNeedles.mem_chars_fromMask endian _ hfour b
    have hmask : (inFieldRow (findConfig config) b).2 = false :=
      Bool.not_eq_true _ ▸ fun h => hb (hchars.mpr h)
    change (inFieldRow (findConfig config) b).1.strictError = false
    simp only [inFieldRow] at hmask ⊢
    split_ifs at hmask ⊢
    · cases hmask
    · rfl
  inQuoted_probe := by
    intro b _
    change (inQuotedFieldRow (findConfig config) b).1.strictError = false
    simp only [inQuotedFieldRow]
    split_ifs <;> rfl
  blank_probe := by
    intro b hb
    have hterm : (findConfig config).isTerminator b = true := by
      simpa [Dfa.new] using hb
    change (recordStartRow (findConfig config) b).strictError = false
    rw [recordStartRow, if_pos hterm]

variable {dfa strictProbe}

/-- How far the fast path moves on: over bytes that keep the state. -/
theorem scanSkip_spec (hsound : SearchSound dfa)
    (hprobe : strictProbe = true → ProbeSound dfa) (state : State) (tail : Bytes) :
    scanSkip dfa state tail ≤ tail.length ∧
      ∀ x, scanBytes dfa strictProbe state x tail =
        scanBytes dfa strictProbe state (x + scanSkip dfa state tail)
          (tail.drop (scanSkip dfa state tail)) := by
  have hstay : ∀ k ≤ tail.length, state.isAction = false →
      (∀ b ∈ tail.take k, (dfa.transition state b).next = state ∧
        (strictProbe && (dfa.transition state b).strictError) = false) →
      ∀ x, scanBytes dfa strictProbe state x tail =
        scanBytes dfa strictProbe state (x + k) (tail.drop k) := by
    intro k hk haction hall x
    have hrun := scanBytes_stay dfa strictProbe state x (tail.take k) (tail.drop k) haction hall
    rw [List.take_append_drop, List.length_take, min_eq_left hk] at hrun
    exact hrun
  have hflag : ∀ {flag : Bool}, (strictProbe = true → flag = false) →
      (strictProbe && flag) = false := by
    intro flag h
    cases strictProbe
    · rfl
    · exact h rfl
  cases state with
  | inField =>
      obtain ⟨hle, hclean⟩ := StructuralNeedles.find_spec hsound.inField tail
      refine ⟨hle, hstay _ hle rfl fun b hb => ?_⟩
      exact ⟨(hsound.inField_content b (hclean b hb)).1,
        hflag fun hp => (hprobe hp).inField_probe b (hclean b hb)⟩
  | inQuotedField =>
      obtain ⟨hle, hclean⟩ := StructuralNeedles.find_spec hsound.inQuoted tail
      refine ⟨hle, hstay _ hle rfl fun b hb => ?_⟩
      exact ⟨(hsound.inQuoted_content b (hclean b hb)).1,
        hflag fun hp => (hprobe hp).inQuoted_probe b (hclean b hb)⟩
  | recordStart =>
      have hblank : (tail.findIdx? dfa.recordStartStructural).getD tail.length ≤ tail.length ∧
          ∀ b ∈ tail.take ((tail.findIdx? dfa.recordStartStructural).getD tail.length),
            dfa.recordStartStructural b = false := by
        cases hidx : tail.findIdx? dfa.recordStartStructural with
        | none =>
            exact ⟨le_rfl, fun b hb =>
              List.findIdx?_eq_none_iff.mp hidx b (List.mem_of_mem_take hb)⟩
        | some i =>
            obtain ⟨hi, -, hbefore⟩ := List.findIdx?_eq_some_iff_getElem.mp hidx
            refine ⟨hi.le, fun b hb => ?_⟩
            obtain ⟨k, hk, rfl⟩ := List.getElem_of_mem hb
            rw [Option.getD_some, List.length_take] at hk
            rw [List.getElem_take]
            simpa using hbefore k (by omega)
      refine ⟨hblank.1, hstay _ hblank.1 rfl fun b hb => ?_⟩
      exact ⟨(hsound.blank b).mp (hblank.2 b hb),
        hflag fun hp => (hprobe hp).blank_probe b (hblank.2 b hb)⟩
  | _ => exact ⟨Nat.zero_le _, fun x => rfl⟩

/-- The inner loop scans the bytes in view. -/
theorem scanBuffer_spec (hsound : SearchSound dfa)
    (hprobe : strictProbe = true → ProbeSound dfa) (buf : Bytes) (fuel : ℕ)
    (state : State) (pos : ℕ) (hfuel : buf.length ≤ pos + fuel) :
    scanBuffer dfa strictProbe buf fuel state pos =
      scanBytes dfa strictProbe state pos (buf.drop pos) := by
  induction fuel generalizing state pos with
  | zero =>
      rw [List.drop_eq_nil_of_le (by omega)]
      rfl
  | succ fuel ih =>
      rw [scanBuffer]
      by_cases hmore : pos < buf.length
      · rw [if_pos hmore]
        obtain ⟨hle, hskip⟩ := scanSkip_spec hsound hprobe state (buf.drop pos)
        rw [hskip pos, List.drop_drop]
        generalize scanSkip dfa state (buf.drop pos) = k at hle
        simp only
        by_cases hbyte : pos + k < buf.length
        · rw [List.getElem?_eq_getElem hbyte, List.drop_eq_getElem_cons hbyte]
          simp only [scanBytes]
          cases hflag : strictProbe && (dfa.transition state buf[pos + k]).strictError with
          | true =>
              cases (dfa.transition state buf[pos + k]).next <;> simp [State.isAction]
          | false =>
              cases hnext : (dfa.transition state buf[pos + k]).next <;>
                simp [State.isAction] <;> exact ih _ (pos + k + 1) (by omega)
        · rw [List.getElem?_eq_none (by omega), List.drop_eq_nil_of_le (by omega)]
          rfl
      · rw [if_neg hmore, List.drop_eq_nil_of_le (by omega)]
        rfl

/-- The boundary a scan of the whole chunk reports. -/
def BufferScan.boundary : BufferScan → Boundary
  | .exhausted _ => .absent
  | .recordEnd pos => .found pos
  | .rejected pos => .rejected pos

/-- The boundary at an offset that may be missing. -/
def boundaryAt (base : ℕ) : Option ℕ → Boundary
  | none => .absent
  | some off => .found (base + off)

theorem findLoop_spec (hsound : SearchSound dfa)
    (hprobe : strictProbe = true → ProbeSound dfa) (origin : ChunkReader)
    (target : BufferScan) (fuel : ℕ) (reader : ChunkReader) (state : State) (x : ℕ)
    (hreader : origin.Advanced x reader)
    (hscan : scanBytes dfa strictProbe state x (reader.pending.take reader.chunkRemaining) =
      target)
    (hfuel : reader.pending.length < fuel) :
    ScanOutcome.Matches origin target.boundary
      (findLoop dfa strictProbe fuel reader state x) := by
  induction fuel generalizing reader state x with
  | zero => omega
  | succ fuel ih =>
      rw [findLoop]
      cases hfill : reader.fill 1 with
      | error err =>
          exact Or.inr ⟨err, hreader.schedule.failsWith (ChunkReader.fill_error hfill), rfl⟩
      | ok filled =>
          have hfilled := hreader.fill hfill
          obtain ⟨hpending, hremaining, -, havail, hshown⟩ := ChunkReader.fill_spec hfill
          rw [← hpending, ← hremaining] at hscan
          have hbuf : filled.buffer.take filled.remainingInChunk =
              filled.pending.take (min filled.chunkRemaining filled.available) := by
            rw [ChunkReader.buffer, ChunkReader.remainingInChunk, List.take_take]
          have hlen : (filled.pending.take (min filled.chunkRemaining
              filled.available)).length = min filled.chunkRemaining filled.available := by
            rw [List.length_take, hpending]
            omega
          simp only [hbuf]
          by_cases hempty : (filled.pending.take (min filled.chunkRemaining
              filled.available)).length = 0
          · rw [if_pos hempty]
            have hnone : filled.pending.take filled.chunkRemaining = [] := by
              apply List.eq_nil_of_length_eq_zero
              rw [List.length_take, hpending]
              omega
            rw [hnone] at hscan
            rw [← hscan]
            exact rfl
          · rw [if_neg hempty]
            -- the chunk splits into the bytes in view and the rest
            have hsplit : filled.pending.take filled.chunkRemaining =
                filled.pending.take (min filled.chunkRemaining filled.available) ++
                  (filled.consume (filled.pending.take (min filled.chunkRemaining
                    filled.available)).length).pending.take
                    (filled.consume (filled.pending.take (min filled.chunkRemaining
                      filled.available)).length).chunkRemaining := by
              simp only [ChunkReader.consume, hlen]
              rw [← List.drop_take, ← min_eq_left (Nat.min_le_left filled.chunkRemaining
                filled.available), ← List.take_take, min_eq_left (Nat.min_le_left _ _),
                List.take_append_drop]
            rw [scanBuffer_spec hsound hprobe _ _ state 0 (by omega), List.drop_zero]
            rw [hsplit, scanBytes_append] at hscan
            generalize filled.pending.take (min filled.chunkRemaining filled.available) = buf
              at hscan hempty hlen ⊢
            have hshift := scanBytes_shift dfa strictProbe state x 0 buf
            have hwithin := scanBytes_within dfa strictProbe state 0 buf
            rw [Nat.add_zero] at hshift
            rw [hshift] at hscan
            cases hhere : scanBytes dfa strictProbe state 0 buf with
            | exhausted next =>
                rw [hhere] at hscan
                refine ih _ next _ (hfilled.consume buf.length) hscan ?_
                simp only [ChunkReader.consume, List.length_drop, hpending]
                omega
            | recordEnd pos =>
                rw [hhere] at hscan hwithin
                rw [← hscan]
                exact ⟨rfl, hfilled.consume pos⟩
            | rejected pos =>
                rw [hhere] at hscan
                rw [← hscan]
                exact Or.inl ⟨x + pos, rfl, rfl⟩

/-- The boundary scan depends on the bytes of the chunk only. -/
theorem findRecordStartFrom_spec (hsound : SearchSound dfa)
    (hprobe : strictProbe = true → ProbeSound dfa) (reader : ChunkReader) (state : State) :
    ScanOutcome.Matches reader
      (scanBytes dfa strictProbe state 0
        (reader.pending.take reader.chunkRemaining)).boundary
      (findRecordStartFrom dfa strictProbe reader state) :=
  findLoop_spec hsound hprobe reader _ _ reader state 0 (.refl reader) rfl
    (Nat.lt_succ_self _)

end Scan

end Csveee.Dfa
