import Csveee.Lib.Agreement
import Csveee.Parser.Simd.Offsets

/-!
# What record assembly reads and writes

Assembly compacts fields where they lie and hands them out as slices of the buffer.  It
reads and writes inside the fields of the records it hands out, and nowhere else.
-/

namespace Csveee.Simd

open Positions Slice

/-- A byte of one of the fields. -/
def InFields (fields : List (ℕ × ℕ)) (i : ℕ) : Prop :=
  ∃ field ∈ fields, field.1 ≤ i ∧ i < field.2

theorem InFields.mono {fields fields' : List (ℕ × ℕ)} {i : ℕ} (h : InFields fields i)
    (hle : ∀ field ∈ fields, field ∈ fields') : InFields fields' i := by
  obtain ⟨field, hfield, hwithin⟩ := h
  exact ⟨field, hle field hfield, hwithin⟩

/-- Each span starts in a field and ends in it. -/
def SpansInside (fields spans : List (ℕ × ℕ)) : Prop :=
  ∀ span ∈ spans, ∃ field ∈ fields, field.1 ≤ span.1 ∧ span.1 + span.2 ≤ field.2

theorem SpansInside.inFields {fields spans : List (ℕ × ℕ)} (h : SpansInside fields spans)
    {i : ℕ} (hi : InSpans spans i) : InFields fields i := by
  obtain ⟨span, hspan, hlo, hhi⟩ := hi
  obtain ⟨field, hfield, hfirst, hlast⟩ := h span hspan
  exact ⟨field, hfield, by omega, by omega⟩

theorem compactLoop_sameOn {P : ℕ → Prop} {e : ℕ} (removals : List ℕ) {buf buf' : Bytes}
    (write prevEnd : ℕ) (hsorted : removals.Pairwise (· < ·))
    (hwithin : ∀ r ∈ removals, prevEnd ≤ r ∧ r < e) (hwrite : write ≤ prevEnd)
    (hprev : prevEnd ≤ e) (he : e ≤ buf.length) (hP : ∀ i, prevEnd ≤ i → i < e → P i)
    (h : SameOn P buf buf') :
    SameOn P (compactLoop e removals buf write prevEnd)
      (compactLoop e removals buf' write prevEnd) := by
  induction removals generalizing buf buf' write prevEnd with
  | nil =>
      rw [compactLoop, compactLoop]
      split_ifs
      · exact h.move (by omega) (by omega) fun i hlo hhi => hP i hlo (by omega)
      · exact h
  | cons r removals ih =>
      obtain ⟨hlater, hrest⟩ := List.pairwise_cons.mp hsorted
      rw [List.forall_mem_cons] at hwithin
      obtain ⟨⟨hpr, hre⟩, hwithin⟩ := hwithin
      have hmoved : SameOn P
          (if r - prevEnd ≠ 0 ∧ write ≠ prevEnd then
            overlay buf write (slice buf prevEnd (r - prevEnd)) else buf)
          (if r - prevEnd ≠ 0 ∧ write ≠ prevEnd then
            overlay buf' write (slice buf' prevEnd (r - prevEnd)) else buf') := by
        split_ifs
        · exact h.move (by omega) (by omega) fun i hlo hhi => hP i hlo (by omega)
        · exact h
      have hlength : (if r - prevEnd ≠ 0 ∧ write ≠ prevEnd then
          overlay buf write (slice buf prevEnd (r - prevEnd)) else buf).length = buf.length := by
        split_ifs
        · apply length_overlay
          rw [length_slice_of_le _ _ _ (by omega)]
          omega
        · rfl
      rw [compactLoop, compactLoop]
      apply ih _ _ hrest (fun s hs => ⟨hlater s hs, (hwithin s hs).2⟩) (by omega) hre _ _ hmoved
      · rw [hlength]
        exact he
      · intro i hlo hhi
        exact hP i (by omega) hhi

/-- Where a field is cut is read off the offsets alone. -/
theorem cutField_snd (buf buf' : Bytes) (b e : ℕ) (rOffs : List ℕ) :
    (cutField buf' b e rOffs).2 = (cutField buf b e rOffs).2 := rfl

theorem cutField_sameOn {P : ℕ → Prop} {b e : ℕ} {rOffs : List ℕ} {buf buf' : Bytes}
    (hsorted : rOffs.Pairwise (· < ·)) (hbe : b ≤ e) (he : e ≤ buf.length)
    (hP : ∀ i, b ≤ i → i < e → P i) (h : SameOn P buf buf') :
    SameOn P (cutField buf b e rOffs).1 (cutField buf' b e rOffs).1 := by
  have hpast := dropWhile_lt_eq_filter hsorted b
  have hsorted' : (rOffs.filter fun r => decide (b ≤ r)).Pairwise (· < ·) := hsorted.filter _
  have hcut := filter_lt_eq_takeWhile hsorted' e
  simp only [cutField, hpast, ← hcut]
  split_ifs
  · exact h
  · apply compactLoop_sameOn _ _ _ (hsorted'.filter _) _ le_rfl hbe he hP h
    intro r hr
    rw [List.mem_filter, List.mem_filter, decide_eq_true_eq, decide_eq_true_eq] at hr
    exact ⟨hr.1.2, hr.2⟩

theorem cutFields_snd (fields : List (ℕ × ℕ)) (buf buf' : Bytes) (rOffs : List ℕ) :
    (cutFields buf' fields rOffs).2 = (cutFields buf fields rOffs).2 := by
  induction fields generalizing buf buf' rOffs with
  | nil => rfl
  | cons field fields ih =>
      have hrest := ih (cutField buf field.1 field.2 rOffs).1
        (cutField buf' field.1 field.2 rOffs).1 (cutField buf field.1 field.2 rOffs).2.2
      simp only [cutFields, cutField_snd buf buf', hrest]

theorem cutFields_inside {hi : ℕ} (fields : List (ℕ × ℕ)) (buf : Bytes) (lo : ℕ) (rOffs : List ℕ)
    (hsorted : rOffs.Pairwise (· < ·)) (hordered : Ordered hi lo fields)
    (hhi : hi ≤ buf.length) :
    SameOn (fun i => ¬InFields fields i) buf (cutFields buf fields rOffs).1 ∧
      SpansInside fields (cutFields buf fields rOffs).2.1 := by
  induction fields generalizing buf lo rOffs with
  | nil => exact ⟨.refl _ _, fun _ hspan => absurd hspan List.not_mem_nil⟩
  | cons field fields ih =>
      obtain ⟨b, e⟩ := field
      obtain ⟨hlo, hbe, hrest⟩ := hordered
      have hle := hrest.le
      obtain ⟨buf₁, len, hcut, hedited, hlen, -⟩ := cutField_spec hsorted hbe (le_trans hle hhi)
      obtain ⟨hsame, hinside⟩ := ih buf₁ e _ (hsorted.filter _) hrest
        (by rw [hedited.length]; exact hhi)
      simp only [cutFields, hcut]
      constructor
      · apply (SameOn.of_edited hedited _).trans
        · exact hsame.mono fun i hout hin => hout (hin.mono fun _ => List.mem_cons_of_mem _)
        · intro i hout hwithin
          exact hout ⟨(b, e), List.mem_cons_self, hwithin⟩
      · rw [SpansInside, List.forall_mem_cons]
        refine ⟨⟨(b, e), List.mem_cons_self, le_rfl, hlen⟩, fun span hspan => ?_⟩
        obtain ⟨field, hfield, hwithin⟩ := hinside span hspan
        exact ⟨field, List.mem_cons_of_mem _ hfield, hwithin⟩

theorem cutFields_sameOn {P : ℕ → Prop} {hi : ℕ} (fields : List (ℕ × ℕ)) {buf buf' : Bytes}
    (lo : ℕ) (rOffs : List ℕ) (hsorted : rOffs.Pairwise (· < ·))
    (hordered : Ordered hi lo fields) (hhi : hi ≤ buf.length)
    (hP : ∀ i, InFields fields i → P i) (h : SameOn P buf buf') :
    SameOn P (cutFields buf fields rOffs).1 (cutFields buf' fields rOffs).1 := by
  induction fields generalizing buf buf' lo rOffs with
  | nil => exact h
  | cons field fields ih =>
      obtain ⟨b, e⟩ := field
      obtain ⟨hlo, hbe, hrest⟩ := hordered
      have hle := hrest.le
      have hcut := cutField_sameOn hsorted hbe (le_trans hle hhi)
        (fun i hfirst hlast => hP i ⟨(b, e), List.mem_cons_self, hfirst, hlast⟩) h
      have hsnd := cutField_snd buf buf' b e rOffs
      obtain ⟨buf₁, len, hspec, hedited, -, -⟩ := cutField_spec hsorted hbe (le_trans hle hhi)
      simp only [cutFields, hsnd]
      rw [hspec] at hcut ⊢
      apply ih e _ (hsorted.filter _) hrest (by rw [hedited.length]; exact hhi) _ hcut
      exact fun i hin => hP i (hin.mono fun _ => List.mem_cons_of_mem _)

theorem cutRecord_snd (fields : List (ℕ × ℕ)) (buf buf' : Bytes) (rOffs : List ℕ) :
    (cutRecord buf' fields rOffs).2 = (cutRecord buf fields rOffs).2 := by
  simp only [cutRecord]
  split_ifs
  · rfl
  · exact cutFields_snd fields buf buf' _

section Record

variable {hi : ℕ} {fields : List (ℕ × ℕ)} {buf buf' : Bytes} {lo : ℕ} {rOffs : List ℕ}

theorem cutRecord_inside (hsorted : rOffs.Pairwise (· < ·)) (hordered : Ordered hi lo fields)
    (hhi : hi ≤ buf.length) :
    SameOn (fun i => ¬InFields fields i) buf (cutRecord buf fields rOffs).1 ∧
      SpansInside fields (cutRecord buf fields rOffs).2.1 := by
  have hfilter := dropWhile_lt_eq_filter hsorted ((fields.map Prod.fst).headD 0)
  simp only [cutRecord, hfilter]
  split_ifs
  · refine ⟨.refl _ _, fun span hspan => ?_⟩
    obtain ⟨field, hfield, rfl⟩ := List.mem_map.mp hspan
    obtain ⟨-, hbe, -⟩ := hordered.mem hfield
    exact ⟨field, hfield, le_rfl, by simp only; omega⟩
  · exact cutFields_inside fields buf lo _ (hsorted.filter _) hordered hhi

theorem cutRecord_sameOn {P : ℕ → Prop} (hsorted : rOffs.Pairwise (· < ·))
    (hordered : Ordered hi lo fields) (hhi : hi ≤ buf.length)
    (hP : ∀ i, InFields fields i → P i) (h : SameOn P buf buf') :
    SameOn P (cutRecord buf fields rOffs).1 (cutRecord buf' fields rOffs).1 := by
  have hfilter := dropWhile_lt_eq_filter hsorted ((fields.map Prod.fst).headD 0)
  simp only [cutRecord, hfilter]
  split_ifs
  · exact h
  · exact cutFields_sameOn fields lo _ (hsorted.filter _) hordered hhi hP h

end Record

/-- The fields of `numRecords` records of `n` fields each. -/
def recordsAt (n : ℕ) : ℕ → List (ℕ × ℕ) → List (List (ℕ × ℕ))
  | 0, _ => []
  | numRecords + 1, fields => fields.take n :: recordsAt n numRecords (fields.drop n)

theorem length_recordsAt (n numRecords : ℕ) (fields : List (ℕ × ℕ)) :
    (recordsAt n numRecords fields).length = numRecords := by
  induction numRecords generalizing fields with
  | zero => rfl
  | succ numRecords ih => rw [recordsAt, List.length_cons, ih]

theorem flatten_recordsAt (n numRecords : ℕ) (fields : List (ℕ × ℕ)) :
    (recordsAt n numRecords fields).flatten = fields.take (numRecords * n) := by
  induction numRecords generalizing fields with
  | zero => rw [Nat.zero_mul]; rfl
  | succ numRecords ih =>
      rw [recordsAt, List.flatten_cons, ih, Nat.succ_mul, Nat.add_comm, List.take_add]

theorem length_of_mem_recordsAt {n numRecords : ℕ} {fields : List (ℕ × ℕ)}
    (htotal : numRecords * n ≤ fields.length) :
    ∀ record ∈ recordsAt n numRecords fields, record.length = n := by
  induction numRecords generalizing fields with
  | zero => exact fun record hrecord => absurd hrecord List.not_mem_nil
  | succ numRecords ih =>
      rw [Nat.succ_mul] at htotal
      rw [recordsAt, List.forall_mem_cons, List.length_take]
      exact ⟨by omega, ih (by rw [List.length_drop]; omega)⟩

/-- Fields in order do not overlap. -/
theorem Ordered.apart {hi lo i : ℕ} {front back : List (ℕ × ℕ)}
    (h : Ordered hi lo (front ++ back)) (hback : InFields back i) : ¬InFields front i := by
  obtain ⟨mid, hfront, hrest⟩ := h.append
  obtain ⟨field, hfield, hfirst, -⟩ := hback
  have hafter := (hrest.mem hfield).1
  rintro ⟨other, hother, -, hlast⟩
  have hbefore := (hfront.mem hother).2.2
  omega

section Emission

variable {σ : Type} (acc : Accumulator σ)

/-- Hand out records in turn until one is rejected. -/
def handAll : List Record → σ → σ × Except BoxedError Unit
  | [], state => (state, .ok ())
  | record :: records, state =>
      match (acc state record).result with
      | .error err => ((acc state record).state, .error err)
      | .ok () => handAll records (acc state record).state

/-- The number of records handed out until one is rejected. -/
def handedOut : List Record → σ → ℕ
  | [], _ => 0
  | record :: records, state =>
      match (acc state record).result with
      | .error _ => 1
      | .ok () => handedOut records (acc state record).state + 1

theorem handAll_rejected (rows : List Record) (state : σ) (m : ℕ) (hm : m < rows.length)
    {before : σ} {err : BoxedError} (haccepted : handAll acc (rows.take m) state = (before, .ok ()))
    (hrejected : (acc before rows[m]).result = .error err) :
    handedOut acc rows state = m + 1 ∧
      handAll acc rows state = ((acc before rows[m]).state, .error err) := by
  induction rows generalizing state m with
  | nil => cases hm
  | cons row rows ih =>
      cases m with
      | zero =>
          obtain ⟨rfl, -⟩ := Prod.mk.inj haccepted
          rw [List.getElem_cons_zero] at hrejected ⊢
          rw [handedOut, handAll, hrejected]
          exact ⟨rfl, rfl⟩
      | succ m =>
          rw [List.take_succ_cons, handAll] at haccepted
          rw [List.getElem_cons_succ] at hrejected ⊢
          rw [handedOut, handAll]
          cases hrow : (acc state row).result with
          | error err =>
              rw [hrow] at haccepted
              cases (Prod.mk.inj haccepted).2
          | ok =>
              rw [hrow] at haccepted
              obtain ⟨hcount, hresult⟩ := ih (acc state row).state m _ haccepted hrejected
              exact ⟨congrArg (· + 1) hcount, hresult⟩

/-- The buffer a record leaves behind. -/
def handRecord (buf : Bytes) (fields : List (ℕ × ℕ)) (rOffs : List ℕ) (state : σ) : Bytes :=
  (emitRecord acc (cutRecord buf fields rOffs).1 (cutRecord buf fields rOffs).2.1 state).1

/-- The fields of a record as they are cut. -/
def cutRow (buf : Bytes) (rOffs : List ℕ) (fields : List (ℕ × ℕ)) : Record :=
  fields.map fun field => cutBytes buf rOffs field.1 field.2

section Step

variable {hi lo : ℕ} {fields : List (ℕ × ℕ)} {buf : Bytes} {rOffs : List ℕ}
variable (hsorted : rOffs.Pairwise (· < ·)) (hordered : Ordered hi lo fields)
variable (hhi : hi ≤ buf.length)

include hsorted hordered hhi

theorem assembleRecordsFixed_succ {n : ℕ} (hn : 1 ≤ n) (hlength : fields.length = n)
    (numRecords : ℕ) (more : List (ℕ × ℕ)) (state : σ) :
    assembleRecordsFixed acc n (numRecords + 1) buf (fields ++ more) rOffs state =
      match (acc state (cutRow buf rOffs fields)).result with
      | .error err => (handRecord acc buf fields rOffs state,
          (acc state (cutRow buf rOffs fields)).state, .error err)
      | .ok () => assembleRecordsFixed acc n numRecords (handRecord acc buf fields rOffs state)
          more (cutRecord buf fields rOffs).2.2 (acc state (cutRow buf rOffs fields)).state := by
  have hne : fields ≠ [] := by
    rintro rfl
    rw [List.length_nil] at hlength
    omega
  obtain ⟨buf', spans, rest, hcut, -, -, -, hslices⟩ :=
    cutRecord_spec hne buf lo rOffs hsorted hordered hhi
  have htake : (fields ++ more).take n = fields := by rw [← hlength, List.take_left]
  have hdrop : (fields ++ more).drop n = more := by rw [← hlength, List.drop_left]
  rw [assembleRecordsFixed, htake, hdrop, handRecord, hcut]
  simp only [emitRecord, hslices, cutRow]
  cases (acc state (fields.map fun field => cutBytes buf rOffs field.1 field.2)).result <;> rfl

theorem handRecord_outside (state : σ) :
    SameOn (fun i => ¬InFields fields i) buf (handRecord acc buf fields rOffs state) := by
  obtain ⟨hsame, hinside⟩ := cutRecord_inside hsorted hordered hhi
  apply hsame.trans
  apply SameOn.writeBack_outside
  · intro span hspan
    obtain ⟨field, hfield, -, hlast⟩ := hinside span hspan
    have hfit := (hordered.mem hfield).2.2
    rw [hsame.length]
    omega
  · exact fun i hout hin => hout (hinside.inFields hin)

theorem handRecord_sameOn {P : ℕ → Prop} {buf' : Bytes} (state : σ)
    (hP : ∀ i, InFields fields i → P i) (h : SameOn P buf buf') :
    SameOn P (handRecord acc buf fields rOffs state) (handRecord acc buf' fields rOffs state) := by
  obtain ⟨hsame, hinside⟩ := cutRecord_inside hsorted hordered hhi
  have hcut := cutRecord_sameOn hsorted hordered hhi hP h
  have hspans : ∀ i, InSpans (cutRecord buf fields rOffs).2.1 i → P i :=
    fun i hi => hP i (hinside.inFields hi)
  have hread : (cutRecord buf fields rOffs).2.1.map
        (fun span => slice (cutRecord buf' fields rOffs).1 span.1 span.2) =
      (cutRecord buf fields rOffs).2.1.map
        fun span => slice (cutRecord buf fields rOffs).1 span.1 span.2 := by
    apply List.map_congr_left
    intro span hspan
    exact hcut.slice fun i hlo hhi => hspans i ⟨span, hspan, hlo, hhi⟩
  rw [handRecord, handRecord, cutRecord_snd fields buf buf', emitRecord, emitRecord, hread]
  apply hcut.writeBack _ _ _ hspans
  intro span hspan
  obtain ⟨field, hfield, -, hlast⟩ := hinside span hspan
  have hfit := (hordered.mem hfield).2.2
  rw [hsame.length]
  omega

end Step

/-- The records behind one are cut as they were, once it is handed out. -/
theorem cutRecords_behind {n hi lo : ℕ} (hn : 1 ≤ n) {fields : List (ℕ × ℕ)} {buf : Bytes}
    {rOffs : List ℕ} (hlength : fields.length = n) (hsorted : rOffs.Pairwise (· < ·))
    (records : List (List (ℕ × ℕ))) (hordered : Ordered hi lo (fields ++ records.flatten))
    (hhi : hi ≤ buf.length) (state : σ) :
    (cutRecord buf fields rOffs).2.2.Pairwise (· < ·) ∧
      cutRecords (handRecord acc buf fields rOffs state) (cutRecord buf fields rOffs).2.2 records =
        cutRecords buf rOffs records := by
  have hne : fields ≠ [] := by
    rintro rfl
    rw [List.length_nil] at hlength
    omega
  obtain ⟨mid, hfront, hback⟩ := hordered.append
  have hmid := hback.le
  have hsame := handRecord_outside acc hsorted hfront (le_trans hmid hhi) state
  obtain ⟨buf', spans, rest, hcut, -, -, hleaves, -⟩ :=
    cutRecord_spec hne buf lo rOffs hsorted hfront (le_trans hmid hhi)
  rw [hcut]
  refine ⟨hleaves.1, ?_⟩
  apply List.map_congr_left
  intro others hothers
  apply List.map_congr_left
  intro field hfield
  have hmem := List.mem_flatten_of_mem hothers hfield
  have hafter := (hback.mem hmem).1
  refine cutBytes_congr (fun i hfirst hlast => ?_) fun i hfirst _ => hleaves.2 i (by omega)
  exact hsame.values i (hordered.apart ⟨field, hmem, hfirst, hlast⟩)

section Run

variable {n hi : ℕ} (hn : 1 ≤ n) (more : List (ℕ × ℕ))

include hn

/-- The records are handed out as they are cut ahead of the loop. -/
theorem assembleRecordsFixed_snd (records : List (List (ℕ × ℕ)))
    (hrecords : ∀ fields ∈ records, fields.length = n) (buf : Bytes) (lo : ℕ) (rOffs : List ℕ)
    (hsorted : rOffs.Pairwise (· < ·)) (hordered : Ordered hi lo records.flatten)
    (hhi : hi ≤ buf.length) (state : σ) :
    (assembleRecordsFixed acc n records.length buf (records.flatten ++ more) rOffs state).2 =
      handAll acc (cutRecords buf rOffs records) state := by
  induction records generalizing buf lo rOffs state with
  | nil => rfl
  | cons fields records ih =>
      rw [List.forall_mem_cons] at hrecords
      rw [List.flatten_cons] at hordered
      obtain ⟨mid, hfront, hback⟩ := hordered.append
      have hmid := le_trans hback.le hhi
      have hsame := handRecord_outside acc hsorted hfront hmid state
      obtain ⟨hrest, hrows⟩ :=
        cutRecords_behind acc hn hrecords.1 hsorted records hordered hhi state
      rw [List.length_cons, List.flatten_cons, List.append_assoc,
        assembleRecordsFixed_succ acc hsorted hfront hmid hn hrecords.1,
        cutRecords, List.map_cons, ← cutRecords, handAll, ← cutRow]
      cases (acc state (cutRow buf rOffs fields)).result with
      | error err => rfl
      | ok =>
          have hlater := ih hrecords.2 (handRecord acc buf fields rOffs state) mid _ hrest hback
            (by rw [hsame.length]; exact hhi) (acc state (cutRow buf rOffs fields)).state
          rw [hrows] at hlater
          exact hlater

/-- Only the fields of records handed out are written to. -/
theorem assembleRecordsFixed_outside (records : List (List (ℕ × ℕ)))
    (hrecords : ∀ fields ∈ records, fields.length = n) (buf : Bytes) (lo : ℕ) (rOffs : List ℕ)
    (hsorted : rOffs.Pairwise (· < ·)) (hordered : Ordered hi lo records.flatten)
    (hhi : hi ≤ buf.length) (state : σ) :
    SameOn (fun i => ¬InFields
        (records.take (handedOut acc (cutRecords buf rOffs records) state)).flatten i) buf
      (assembleRecordsFixed acc n records.length buf (records.flatten ++ more) rOffs state).1 := by
  induction records generalizing buf lo rOffs state with
  | nil => exact .refl _ _
  | cons fields records ih =>
      rw [List.forall_mem_cons] at hrecords
      rw [List.flatten_cons] at hordered
      obtain ⟨mid, hfront, hback⟩ := hordered.append
      have hmid := le_trans hback.le hhi
      have hsame := handRecord_outside acc hsorted hfront hmid state
      obtain ⟨hrest, hrows⟩ :=
        cutRecords_behind acc hn hrecords.1 hsorted records hordered hhi state
      rw [List.length_cons, List.flatten_cons, List.append_assoc,
        assembleRecordsFixed_succ acc hsorted hfront hmid hn hrecords.1,
        cutRecords, List.map_cons, ← cutRecords, handedOut, ← cutRow]
      cases (acc state (cutRow buf rOffs fields)).result with
      | error err =>
          apply hsame.mono
          rw [List.take_succ_cons, List.take_zero, List.flatten_singleton]
          exact fun i hout => hout
      | ok =>
          have hlater := ih hrecords.2 (handRecord acc buf fields rOffs state) mid _ hrest hback
            (by rw [hsame.length]; exact hhi) (acc state (cutRow buf rOffs fields)).state
          rw [hrows] at hlater
          simp only [List.take_succ_cons, List.flatten_cons]
          apply (hsame.mono _).trans (hlater.mono _)
          · exact fun i hout hin => hout (hin.mono fun _ => List.mem_append_left _)
          · exact fun i hout hin => hout (hin.mono fun _ => List.mem_append_right _)

/-- Only the fields of the records are read. -/
theorem assembleRecordsFixed_sameOn {P : ℕ → Prop} (records : List (List (ℕ × ℕ)))
    (hrecords : ∀ fields ∈ records, fields.length = n) {buf buf' : Bytes} (lo : ℕ)
    (rOffs : List ℕ) (hsorted : rOffs.Pairwise (· < ·))
    (hordered : Ordered hi lo records.flatten) (hhi : hi ≤ buf.length)
    (hP : ∀ i, InFields records.flatten i → P i) (h : SameOn P buf buf') (state : σ) :
    SameOn P
        (assembleRecordsFixed acc n records.length buf (records.flatten ++ more) rOffs state).1
        (assembleRecordsFixed acc n records.length buf' (records.flatten ++ more) rOffs state).1 ∧
      (assembleRecordsFixed acc n records.length buf' (records.flatten ++ more) rOffs
          state).2 =
        (assembleRecordsFixed acc n records.length buf (records.flatten ++ more) rOffs
          state).2 := by
  induction records generalizing buf buf' lo rOffs state with
  | nil => exact ⟨h, rfl⟩
  | cons fields records ih =>
      rw [List.forall_mem_cons] at hrecords
      rw [List.flatten_cons] at hordered hP
      obtain ⟨mid, hfront, hback⟩ := hordered.append
      have hmid := le_trans hback.le hhi
      have hmid' : mid ≤ buf'.length := by
        rw [h.length]
        exact hmid
      have hsame := handRecord_outside acc hsorted hfront hmid state
      obtain ⟨hrest, -⟩ := cutRecords_behind acc hn hrecords.1 hsorted records hordered hhi state
      have hhere : ∀ i, InFields fields i → P i :=
        fun i hin => hP i (hin.mono fun _ => List.mem_append_left _)
      have hrow : cutRow buf' rOffs fields = cutRow buf rOffs fields := by
        apply List.map_congr_left
        intro field hfield
        exact cutBytes_congr
          (fun i hfirst hlast => h.values i (hhere i ⟨field, hfield, hfirst, hlast⟩))
          fun _ _ _ => Iff.rfl
      have hhand := handRecord_sameOn acc hsorted hfront hmid state hhere h
      rw [List.length_cons, List.flatten_cons, List.append_assoc,
        assembleRecordsFixed_succ acc hsorted hfront hmid hn hrecords.1,
        assembleRecordsFixed_succ acc hsorted hfront hmid' hn hrecords.1, hrow,
        cutRecord_snd fields buf buf']
      cases (acc state (cutRow buf rOffs fields)).result with
      | error err => exact ⟨hhand, rfl⟩
      | ok =>
          exact ih hrecords.2 mid _ hrest hback (by rw [hsame.length]; exact hhi)
            (fun i hin => hP i (hin.mono fun _ => List.mem_append_right _)) hhand _

end Run

/-- Assembly hands out the fields without their removals, in order and up to a rejection;
it writes to the fields of the records handed out only, and reads the fields only. -/
theorem assembleRecordsFixed_exact {n : ℕ} (hn : 1 ≤ n) (numRecords : ℕ) (buf : Bytes)
    (fields : List (ℕ × ℕ)) (rOffs : List ℕ) (htotal : numRecords * n ≤ fields.length)
    (hordered : Ordered buf.length 0 fields) (hsorted : rOffs.Pairwise (· < ·)) (state : σ) :
    let records := recordsAt n numRecords fields
    let rows := cutRecords buf rOffs records
    let out := assembleRecordsFixed acc n numRecords buf fields rOffs state
    out.2 = handAll acc rows state ∧
      SameOn (fun i => ¬InFields records.flatten i) buf out.1 ∧
      (∀ m before err, ∀ hm : m < rows.length,
        handAll acc (rows.take m) state = (before, .ok ()) →
        (acc before rows[m]).result = .error err →
          out.2 = ((acc before rows[m]).state, .error err) ∧
            SameOn (InFields (records.drop (m + 1)).flatten) buf out.1) ∧
      ∀ buf', SameOn (InFields records.flatten) buf buf' →
        SameOn (InFields records.flatten) out.1
            (assembleRecordsFixed acc n numRecords buf' fields rOffs state).1 ∧
          (assembleRecordsFixed acc n numRecords buf' fields rOffs state).2 = out.2 := by
  intro records rows out
  have hcount : records.length = numRecords := length_recordsAt n numRecords fields
  have hrecords : ∀ record ∈ records, record.length = n := length_of_mem_recordsAt htotal
  have hflatten : records.flatten ++ fields.drop (numRecords * n) = fields := by
    rw [flatten_recordsAt, List.take_append_drop]
  obtain ⟨mid, hfront, hback⟩ := (hflatten.symm ▸ hordered).append
  have hmid := hback.le
  have hout : out = assembleRecordsFixed acc n records.length buf
      (records.flatten ++ fields.drop (numRecords * n)) rOffs state := by
    rw [hflatten, hcount]
  have hsame := assembleRecordsFixed_outside acc hn (fields.drop (numRecords * n)) records
    hrecords buf 0 rOffs hsorted hfront hmid state
  have hrun := assembleRecordsFixed_snd acc hn (fields.drop (numRecords * n)) records
    hrecords buf 0 rOffs hsorted hfront hmid state
  rw [← hout] at hsame hrun
  refine ⟨hrun, ?_, ?_, ?_⟩
  · apply hsame.mono
    exact fun i hin hhanded => hin (hhanded.mono fun field hfield => by
      obtain ⟨record, hrecord, hmem⟩ := List.mem_flatten.mp hfield
      exact List.mem_flatten_of_mem (List.mem_of_mem_take hrecord) hmem)
  · intro m before err hm haccepted hrejected
    obtain ⟨hhanded, hend⟩ := handAll_rejected acc rows state m hm haccepted hrejected
    rw [hhanded] at hsame
    constructor
    · rw [hrun, hend]
    · apply hsame.mono
      intro i hlater
      have happart : records.flatten =
          (records.take (m + 1)).flatten ++ (records.drop (m + 1)).flatten := by
        rw [← List.flatten_append, List.take_append_drop]
      exact (happart ▸ hfront).apart hlater
  · intro buf' h
    have hsameOn := assembleRecordsFixed_sameOn acc hn (fields.drop (numRecords * n)) records
      hrecords 0 rOffs hsorted hfront hmid (fun _ => id) h state
    rw [← hout, hflatten, hcount] at hsameOn
    exact hsameOn

theorem assembleRecordsFixed_exact_doubled :
    (assembleRecordsFixed RecordWise.acceptAll.accumulator 2 1 [97, 34, 34, 98, 44, 99]
      [(0, 4), (5, 6)] [2] []).2 = ([[[97, 34, 98], [99]]], .ok ()) :=
  (assembleRecordsFixed_exact RecordWise.acceptAll.accumulator (n := 2) (by decide) 1
    [97, 34, 34, 98, 44, 99] [(0, 4), (5, 6)] [2] (by decide)
    ⟨by decide, by decide, by decide, by decide, Nat.le_refl 6⟩ (by decide) []).1.trans (by decide)

end Emission

end Csveee.Simd
