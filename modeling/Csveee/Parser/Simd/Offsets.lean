import Csveee.Parser.Simd.Rows

/-!
# Offsets and the fields cut at them

The offsets a mask is extracted to are the positions of its stream, shifted to where the
buffer starts.  A field cut between two of them is the bytes there that are not removed,
however the buffer is compacted to get at them.
-/

namespace Csveee.Simd

open Positions Bits Slice

theorem offsetsLoop_eq (base : ℤ) (count : ℕ) (m : Mask) (hcount : (ones m).length = count) :
    offsetsLoop base count m = (ones m).map fun i : ℕ => (base + (i : ℤ)).toNat := by
  induction count generalizing m with
  | zero => rw [List.eq_nil_of_length_eq_zero hcount]; rfl
  | succ count ih =>
      have hm : m ≠ 0 := by
        rintro rfl
        rw [ones_zero] at hcount
        cases hcount
      rw [ones_cons hm, List.length_cons, Nat.add_right_cancel_iff] at hcount
      rw [offsetsLoop, ih _ hcount, ones_cons hm, List.map_cons]
      rfl

theorem extendOffsets_eq (out : List ℕ) (m : Mask) (base : ℤ) :
    extendOffsets out m base = out ++ (ones m).map fun i : ℕ => (base + (i : ℤ)).toNat := by
  rw [extendOffsets, countOnes, ← length_ones, offsetsLoop_eq base _ m rfl]

theorem ones_window (f : ℕ → Bool) (j : ℕ) :
    ones (window f j) = (positions f (64 * j) (64 * (j + 1))).map fun p => p - 64 * j := by
  apply ones_eq
  · rw [List.pairwise_map]
    refine (pairwise_positions f _ _).imp_of_mem fun {p q} hp hq hlt => ?_
    rw [mem_positions] at hp hq
    omega
  · intro i
    rw [List.mem_map, getLsbD_window, Bool.and_eq_true, decide_eq_true_eq]
    constructor
    · rintro ⟨p, hp, rfl⟩
      rw [mem_positions] at hp
      rw [Nat.add_sub_cancel' hp.1.1]
      exact ⟨by omega, hp.2⟩
    · rintro ⟨hi, hflag⟩
      exact ⟨64 * j + i, mem_positions.mpr ⟨by omega, hflag⟩, by omega⟩

theorem positions_delayed (f : ℕ → Bool) (k lo hi : ℕ) :
    positions (delayed k f) lo hi = (positions f (lo - k) (hi - k)).map fun p => p + k := by
  apply positions_eq
  · rw [List.pairwise_map]
    exact (pairwise_positions f _ _).imp fun hlt => by omega
  · intro p
    rw [List.mem_map, delayed]
    constructor
    · rintro ⟨q, hq, rfl⟩
      rw [mem_positions] at hq
      rw [if_neg (by omega), Nat.add_sub_cancel]
      exact ⟨by omega, hq.2⟩
    · rintro ⟨hrange, hflag⟩
      split_ifs at hflag with hlt
      exact ⟨p - k, mem_positions.mpr ⟨by omega, hflag⟩, by omega⟩

/-- What one vector adds to the offsets of a stream: its positions in the vector, counted
from the buffer's start.  The vectors start `head` bytes ahead of the text. -/
theorem extendOffsets_window (out : List ℕ) (f : ℕ → Bool) (head origin j : ℕ) {base : ℤ}
    (hbase : base = 64 * (j : ℤ) - head - origin) :
    extendOffsets out (window (delayed head f) j) base =
      out ++ (positions f (64 * j - head) (64 * (j + 1) - head)).map fun p => p - origin := by
  rw [extendOffsets_eq, ones_window, positions_delayed, List.map_map, List.map_map]
  congr 1
  apply List.map_congr_left
  intro p hp
  rw [mem_positions] at hp
  simp only [Function.comp_apply]
  omega

theorem kinds_window (f g : ℕ → Bool) (head j : ℕ) :
    kinds (window (delayed head f) j) (window (delayed head g) j) =
      (positions f (64 * j - head) (64 * (j + 1) - head)).map g := by
  rw [kinds, ones_window, positions_delayed, List.map_map, List.map_map]
  apply List.map_congr_left
  intro p hp
  rw [mem_positions] at hp
  rw [Function.comp_apply, Function.comp_apply, getLsbD_window_of_lt _ _ (by omega),
    show 64 * j + (p + head - 64 * j) = p + head by omega, delayed, if_neg (by omega),
    Nat.add_sub_cancel]

/-- The bytes from `b` up to `e` that are not removed. -/
def cutBytes (buf : Bytes) (removed : List ℕ) (b e : ℕ) : Bytes :=
  (positions (fun i => !removed.contains i) b e).map fun i => buf.getD i 0

theorem cutBytes_congr {buf buf' : Bytes} {removed removed' : List ℕ} {b e : ℕ}
    (hbuf : ∀ i, b ≤ i → i < e → buf'[i]? = buf[i]?)
    (hremoved : ∀ i, b ≤ i → i < e → (i ∈ removed' ↔ i ∈ removed)) :
    cutBytes buf' removed' b e = cutBytes buf removed b e := by
  have hpositions : positions (fun i => !removed'.contains i) b e =
      positions (fun i => !removed.contains i) b e := by
    refine positions_congr fun i hlo hhi => ?_
    rw [Bool.eq_iff_iff, Bool.not_eq_true', Bool.not_eq_true', ← Bool.not_eq_true,
      ← Bool.not_eq_true, List.contains_iff_mem, List.contains_iff_mem, hremoved i hlo hhi]
  rw [cutBytes, cutBytes, hpositions]
  apply List.map_congr_left
  intro i hi
  rw [mem_positions] at hi
  rw [List.getD_eq_getElem?_getD, List.getD_eq_getElem?_getD, hbuf i hi.1.1 hi.1.2]

theorem cutBytes_append {buf : Bytes} {removed : List ℕ} {b mid e : ℕ} (hb : b ≤ mid)
    (he : mid ≤ e) :
    cutBytes buf removed b e = cutBytes buf removed b mid ++ cutBytes buf removed mid e := by
  rw [cutBytes, cutBytes, cutBytes, ← positions_append hb he, List.map_append]

theorem cutBytes_of_none {buf : Bytes} {removed : List ℕ} {b e : ℕ} (he : e ≤ buf.length)
    (hnone : ∀ i, b ≤ i → i < e → i ∉ removed) :
    cutBytes buf removed b e = slice buf b (e - b) := by
  have hall : positions (fun i => !removed.contains i) b e = List.range' b (e - b) := by
    rw [positions, List.filter_eq_self]
    intro i hi
    rw [List.mem_range'_1] at hi
    rw [Bool.not_eq_true', ← Bool.not_eq_true, List.contains_iff_mem]
    exact hnone i hi.1 (by omega)
  rw [cutBytes, hall]
  apply List.ext_getElem
  · rw [List.length_map, List.length_range', length_slice]
    omega
  · intro i hleft hright
    rw [List.length_map, List.length_range'] at hleft
    simp only [List.getElem_map, List.getElem_range', slice, List.getElem_take, List.getElem_drop]
    rw [Nat.one_mul, List.getD_eq_getElem _ _ (by omega)]

theorem cutBytes_cons {buf : Bytes} {r : ℕ} {removed : List ℕ} {b e : ℕ}
    (hsorted : (r :: removed).Pairwise (· < ·)) (hb : b ≤ r) (hr : r < e) (he : e ≤ buf.length) :
    cutBytes buf (r :: removed) b e =
      slice buf b (r - b) ++ cutBytes buf removed (r + 1) e := by
  have hlater := (List.pairwise_cons.mp hsorted).1
  rw [cutBytes_append hb hr.le, cutBytes_append (Nat.le_succ r) hr]
  have hself : cutBytes buf (r :: removed) r (r + 1) = [] := by
    rw [cutBytes, positions_eq_nil, List.map_nil]
    intro i hlo hhi
    rw [show i = r by omega, Bool.not_eq_false', List.contains_iff_mem]
    exact List.mem_cons_self
  have hrest : cutBytes buf (r :: removed) (r + 1) e = cutBytes buf removed (r + 1) e := by
    refine cutBytes_congr (fun _ _ _ => rfl) fun i hlo _ => ?_
    rw [List.mem_cons]
    exact ⟨fun hi => hi.resolve_left (by omega), Or.inr⟩
  rw [hself, hrest, List.nil_append, cutBytes_of_none (by omega)]
  intro i hlo hhi hmem
  rcases List.mem_cons.mp hmem with rfl | hmem
  · omega
  · have hlt := hlater i hmem
    omega

/-- Compaction moves what is kept of a field to its front. -/
theorem compactLoop_spec {e : ℕ} (removals : List ℕ) (buf : Bytes) (write prevEnd : ℕ)
    (hsorted : removals.Pairwise (· < ·)) (hwithin : ∀ r ∈ removals, prevEnd ≤ r ∧ r < e)
    (hwrite : write ≤ prevEnd) (hprev : prevEnd ≤ e) (he : e ≤ buf.length) :
    Edited buf (compactLoop e removals buf write prevEnd) write e ∧
      slice (compactLoop e removals buf write prevEnd) write (e - prevEnd - removals.length) =
        cutBytes buf removals prevEnd e := by
  induction removals generalizing buf write prevEnd with
  | nil =>
      rw [compactLoop, List.length_nil, Nat.sub_zero,
        cutBytes_of_none he fun _ _ _ => List.not_mem_nil]
      have hlen := length_slice_of_le buf prevEnd (e - prevEnd) (by omega)
      split_ifs with hmove
      · have hfits : write + (slice buf prevEnd (e - prevEnd)).length ≤ buf.length := by omega
        refine ⟨(edited_overlay hfits).mono le_rfl (by omega), ?_⟩
        have hself := slice_overlay_self hfits
        rwa [hlen] at hself
      · refine ⟨.refl _ _ _, ?_⟩
        by_cases hempty : e = prevEnd
        · rw [hempty, Nat.sub_self, slice_zero, slice_zero]
        · rw [show write = prevEnd by
            by_contra hne
            exact hmove ⟨hempty, hne⟩]
  | cons r removals ih =>
      obtain ⟨hlater, hrest⟩ := List.pairwise_cons.mp hsorted
      rw [List.forall_mem_cons] at hwithin
      obtain ⟨⟨hpr, hre⟩, hwithin⟩ := hwithin
      have hlen := length_slice_of_le buf prevEnd (r - prevEnd) (by omega)
      rw [compactLoop]
      generalize hmoved : (if r - prevEnd ≠ 0 ∧ write ≠ prevEnd then
        overlay buf write (slice buf prevEnd (r - prevEnd)) else buf) = moved
      -- the bytes up to the removal are in place
      have hmove : Edited buf moved write (write + (r - prevEnd)) ∧
          slice moved write (r - prevEnd) = slice buf prevEnd (r - prevEnd) := by
        rw [← hmoved]
        have hfits : write + (slice buf prevEnd (r - prevEnd)).length ≤ buf.length := by omega
        split_ifs with hmove
        · have hedited := edited_overlay hfits
          have hself := slice_overlay_self hfits
          rw [hlen] at hedited hself
          exact ⟨hedited, hself⟩
        · refine ⟨.refl _ _ _, ?_⟩
          by_cases hempty : r - prevEnd = 0
          · rw [hempty, slice_zero, slice_zero]
          · rw [show write = prevEnd by
              by_contra hne
              exact hmove ⟨hempty, hne⟩]
      obtain ⟨hedited, hfront⟩ := hmove
      obtain ⟨hedited', hback⟩ := ih moved (write + (r - prevEnd)) (r + 1) hrest
        (fun s hs => ⟨hlater s hs, (hwithin s hs).2⟩) (by omega) hre
        (by rw [hedited.length]; exact he)
      have hcount := length_le_of_mem hrest fun s hs => ⟨hlater s hs, (hwithin s hs).2⟩
      have hsame : cutBytes moved removals (r + 1) e = cutBytes buf removals (r + 1) e :=
        cutBytes_congr (fun i hlo _ => hedited.getElem?_after (by omega)) fun _ _ _ => Iff.rfl
      refine ⟨(hedited.mono le_rfl (by omega)).trans (hedited'.mono (by omega) le_rfl), ?_⟩
      rw [cutBytes_cons hsorted hpr hre he, ← hsame, ← hback, ← hfront, List.length_cons,
        show e - prevEnd - (removals.length + 1) =
          (r - prevEnd) + (e - (r + 1) - removals.length) by omega,
        slice_add, hedited'.slice_before le_rfl]

/-- Cut one field at its offsets, of ascending removals. -/
theorem cutField_spec {buf : Bytes} {b e : ℕ} {rOffs : List ℕ} (hsorted : rOffs.Pairwise (· < ·))
    (hbe : b ≤ e) (he : e ≤ buf.length) :
    ∃ buf' len, cutField buf b e rOffs =
        (buf', (b, len), rOffs.filter fun r => decide (e ≤ r)) ∧
      Edited buf buf' b e ∧ b + len ≤ e ∧ slice buf' b len = cutBytes buf rOffs b e := by
  have hpast := dropWhile_lt_eq_filter hsorted b
  have hsorted' : (rOffs.filter fun r => decide (b ≤ r)).Pairwise (· < ·) := hsorted.filter _
  have hcut := filter_lt_eq_takeWhile hsorted' e
  have hwithin : ∀ r ∈ (rOffs.filter fun r => decide (b ≤ r)).filter fun r => decide (r < e),
      b ≤ r ∧ r < e := by
    intro r hr
    rw [List.mem_filter, List.mem_filter, decide_eq_true_eq, decide_eq_true_eq] at hr
    exact ⟨hr.1.2, hr.2⟩
  have hsame : cutBytes buf rOffs b e = cutBytes buf
      ((rOffs.filter fun r => decide (b ≤ r)).filter fun r => decide (r < e)) b e := by
    refine cutBytes_congr (fun _ _ _ => rfl) fun i hlo hhi => ?_
    rw [List.mem_filter, List.mem_filter, decide_eq_true_eq, decide_eq_true_eq]
    exact ⟨fun hi => ⟨⟨hi, hlo⟩, hhi⟩, fun hi => hi.1.1⟩
  have hrest : (rOffs.filter fun r => decide (b ≤ r)).drop
      ((rOffs.filter fun r => decide (b ≤ r)).filter fun r => decide (r < e)).length =
        rOffs.filter fun r => decide (e ≤ r) := by
    rw [drop_filter_lt hsorted', List.filter_filter]
    apply List.filter_congr
    intro r _
    rw [Bool.eq_iff_iff, Bool.and_eq_true, decide_eq_true_eq, decide_eq_true_eq]
    exact ⟨And.left, fun hle => ⟨hle, le_trans hbe hle⟩⟩
  have hcount := length_le_of_mem (hsorted'.filter _) hwithin
  obtain ⟨hedited, hslice⟩ := compactLoop_spec _ buf b b (hsorted'.filter _) hwithin le_rfl hbe he
  rw [cutField]
  simp only [hpast, ← hcut, hrest]
  by_cases hnone : ((rOffs.filter fun r => decide (b ≤ r)).filter
      fun r => decide (r < e)).isEmpty = true
  · rw [if_pos hnone]
    refine ⟨buf, _, rfl, .refl _ _ _, by omega, ?_⟩
    rw [hsame, List.isEmpty_iff.mp hnone, List.length_nil, Nat.sub_zero,
      cutBytes_of_none he fun _ _ _ => List.not_mem_nil]
  · rw [if_neg hnone]
    exact ⟨_, _, rfl, hedited, by omega, by rw [hslice, ← hsame]⟩

/-- Fields one behind the other, from `lo` on up to `hi`. -/
def Ordered (hi : ℕ) : ℕ → List (ℕ × ℕ) → Prop
  | lo, [] => lo ≤ hi
  | lo, (b, e) :: fields => lo ≤ b ∧ b ≤ e ∧ Ordered hi e fields

theorem Ordered.le {hi lo : ℕ} {fields : List (ℕ × ℕ)} (h : Ordered hi lo fields) : lo ≤ hi := by
  induction fields generalizing lo with
  | nil => exact h
  | cons field fields ih =>
      obtain ⟨b, e⟩ := field
      obtain ⟨hlo, hbe, hrest⟩ := h
      have hle := ih hrest
      omega

theorem Ordered.mem {hi lo : ℕ} {fields : List (ℕ × ℕ)} (h : Ordered hi lo fields)
    {field : ℕ × ℕ} (hfield : field ∈ fields) :
    lo ≤ field.1 ∧ field.1 ≤ field.2 ∧ field.2 ≤ hi := by
  induction fields generalizing lo with
  | nil => cases hfield
  | cons head fields ih =>
      obtain ⟨b, e⟩ := head
      obtain ⟨hlo, hbe, hrest⟩ := h
      rcases List.mem_cons.mp hfield with rfl | hfield
      · exact ⟨hlo, hbe, hrest.le⟩
      · have hthere := ih hrest hfield
        omega

theorem Ordered.last {hi lo : ℕ} {fields : List (ℕ × ℕ)} (h : Ordered hi lo fields) :
    Ordered ((fields.map Prod.snd).getLastD lo) lo fields := by
  induction fields generalizing lo with
  | nil => exact le_rfl
  | cons field fields ih =>
      obtain ⟨b, e⟩ := field
      obtain ⟨hlo, hbe, hrest⟩ := h
      rw [List.map_cons, List.getLastD_cons]
      exact ⟨hlo, hbe, ih hrest⟩

theorem Ordered.append {hi lo : ℕ} {front back : List (ℕ × ℕ)}
    (h : Ordered hi lo (front ++ back)) :
    ∃ mid, Ordered mid lo front ∧ Ordered hi mid back := by
  induction front generalizing lo with
  | nil => exact ⟨lo, le_rfl, h⟩
  | cons field front ih =>
      obtain ⟨b, e⟩ := field
      obtain ⟨hlo, hbe, hrest⟩ := h
      obtain ⟨mid, hfront, hback⟩ := ih hrest
      exact ⟨mid, ⟨hlo, hbe, hfront⟩, hback⟩

/-- The records behind these see the removals that lie behind these. -/
def Leaves (hi : ℕ) (rOffs rest : List ℕ) : Prop :=
  rest.Pairwise (· < ·) ∧ ∀ r, hi ≤ r → (r ∈ rest ↔ r ∈ rOffs)

theorem cutFields_spec {hi : ℕ} (fields : List (ℕ × ℕ)) (buf : Bytes) (lo : ℕ) (rOffs : List ℕ)
    (hsorted : rOffs.Pairwise (· < ·)) (hordered : Ordered hi lo fields)
    (hhi : hi ≤ buf.length) :
    ∃ buf' spans rest, cutFields buf fields rOffs = (buf', spans, rest) ∧ Edited buf buf' lo hi ∧
      SpansWithin hi spans ∧ Leaves hi rOffs rest ∧
      (spans.map fun span => slice buf' span.1 span.2) =
        fields.map fun field => cutBytes buf rOffs field.1 field.2 := by
  induction fields generalizing buf lo rOffs with
  | nil =>
      exact ⟨buf, [], rOffs, rfl, .refl _ _ _, fun _ hspan => absurd hspan List.not_mem_nil,
        ⟨hsorted, fun _ _ => Iff.rfl⟩, rfl⟩
  | cons field fields ih =>
      obtain ⟨b, e⟩ := field
      obtain ⟨hlo, hbe, hrest⟩ := hordered
      have hle := hrest.le
      obtain ⟨buf₁, len, hcut, hedited, hlen, hslice⟩ :=
        cutField_spec hsorted hbe (le_trans hle hhi)
      have hsorted₁ : (rOffs.filter fun r => decide (e ≤ r)).Pairwise (· < ·) := hsorted.filter _
      obtain ⟨buf₂, spans, rest, hfields, hedited₂, hspans, hleaves, hslices⟩ :=
        ih buf₁ e _ hsorted₁ hrest (by rw [hedited.length]; exact hhi)
      refine ⟨buf₂, (b, len) :: spans, rest, ?_, ?_, ?_, ?_, ?_⟩
      · rw [cutFields, hcut]
        simp only [hfields]
      · exact (hedited.mono hlo hle).trans (hedited₂.mono (le_trans hlo hbe) le_rfl)
      · intro span hspan
        rcases List.mem_cons.mp hspan with rfl | hspan
        · simp only
          omega
        · exact hspans span hspan
      · refine ⟨hleaves.1, fun r hr => ?_⟩
        rw [hleaves.2 r hr, List.mem_filter, decide_eq_true_eq]
        exact ⟨And.left, fun hmem => ⟨hmem, le_trans hle hr⟩⟩
      · rw [List.map_cons, List.map_cons, hslices, hedited₂.slice_before hlen, hslice]
        congr 1
        apply List.map_congr_left
        intro field hfield
        obtain ⟨hb, -, -⟩ := hrest.mem hfield
        refine cutBytes_congr (fun i hi _ => hedited.getElem?_after (by omega)) fun i hi _ => ?_
        rw [List.mem_filter, decide_eq_true_eq]
        exact ⟨And.left, fun hmem => ⟨hmem, by omega⟩⟩

/-- Without removals in a record, its fields are cut as they lie. -/
theorem cutRecord_spec {hi : ℕ} {fields : List (ℕ × ℕ)} (hne : fields ≠ []) (buf : Bytes)
    (lo : ℕ) (rOffs : List ℕ) (hsorted : rOffs.Pairwise (· < ·)) (hordered : Ordered hi lo fields)
    (hhi : hi ≤ buf.length) :
    ∃ buf' spans rest, cutRecord buf fields rOffs = (buf', spans, rest) ∧ Edited buf buf' lo hi ∧
      SpansWithin hi spans ∧ Leaves hi rOffs rest ∧
      (spans.map fun span => slice buf' span.1 span.2) =
        fields.map fun field => cutBytes buf rOffs field.1 field.2 := by
  obtain ⟨⟨b, e⟩, fields, rfl⟩ := List.exists_cons_of_ne_nil hne
  have hlast : Ordered ((fields.map Prod.snd).getLastD e) lo ((b, e) :: fields) := by
    have hends := hordered.last
    rwa [List.map_cons, List.getLastD_cons] at hends
  have hstart := hordered.1
  have hfirst : Ordered hi b ((b, e) :: fields) := ⟨le_rfl, hordered.2⟩
  have hsorted' : (rOffs.filter fun r => decide (b ≤ r)).Pairwise (· < ·) := hsorted.filter _
  have hfirstB : (((b, e) :: fields).map Prod.fst).headD 0 = b := rfl
  have hlastE : (((b, e) :: fields).map Prod.snd).getLastD 0 =
      (fields.map Prod.snd).getLastD e := by
    rw [List.map_cons, List.getLastD_cons]
  rw [cutRecord]
  simp only [hfirstB, hlastE, dropWhile_lt_eq_filter hsorted]
  split_ifs with hclear
  · -- the first removal from here on lies behind the record
    have hnone : ∀ r, b ≤ r → r < (fields.map Prod.snd).getLastD e → r ∉ rOffs := by
      intro r hr hlt hmem
      have hmem' : r ∈ rOffs.filter fun r => decide (b ≤ r) :=
        List.mem_filter.mpr ⟨hmem, decide_eq_true hr⟩
      cases hlist : rOffs.filter fun r => decide (b ≤ r) with
      | nil =>
          rw [hlist] at hmem'
          cases hmem'
      | cons first more =>
          rw [hlist] at hclear hmem' hsorted'
          rw [List.head?_cons, Option.all_some, decide_eq_true_eq] at hclear
          rcases List.mem_cons.mp hmem' with rfl | hmore
          · omega
          · have hlt' := (List.pairwise_cons.mp hsorted').1 r hmore
            omega
    refine ⟨buf, _, _, rfl, .refl _ _ _, ?_, ⟨hsorted', fun r hr => ?_⟩, ?_⟩
    · intro span hspan
      rw [List.mem_map] at hspan
      obtain ⟨field, hfield, rfl⟩ := hspan
      obtain ⟨-, hle, hle'⟩ := hordered.mem hfield
      simp only
      omega
    · rw [List.mem_filter, decide_eq_true_eq]
      exact ⟨And.left, fun hmem => ⟨hmem, le_trans hfirst.le hr⟩⟩
    · rw [List.map_map]
      apply List.map_congr_left
      intro field hfield
      obtain ⟨hb, -, hle⟩ := hfirst.mem hfield
      obtain ⟨-, -, hle'⟩ := hlast.mem hfield
      rw [Function.comp_apply, cutBytes_of_none (by omega)]
      intro r hr hlt
      exact hnone r (by omega) (by omega)
  · obtain ⟨buf', spans, rest, hcut, hedited, hspans, hleaves, hslices⟩ :=
      cutFields_spec ((b, e) :: fields) buf lo _ hsorted' hordered hhi
    refine ⟨buf', spans, rest, hcut, hedited, hspans, ⟨hleaves.1, fun r hr => ?_⟩, ?_⟩
    · rw [hleaves.2 r hr, List.mem_filter, decide_eq_true_eq]
      exact ⟨And.left, fun hmem => ⟨hmem, le_trans hfirst.le hr⟩⟩
    · rw [hslices]
      apply List.map_congr_left
      intro field hfield
      obtain ⟨hb, -, -⟩ := hfirst.mem hfield
      refine cutBytes_congr (fun _ _ _ => rfl) fun i hi _ => ?_
      rw [List.mem_filter, decide_eq_true_eq]
      exact ⟨And.left, fun hmem => ⟨hmem, by omega⟩⟩

section Emission

variable {σ : Type} (acc : Accumulator σ)

/-- What the accumulator leaves behind stays within the record. -/
theorem emitRecord_spec {hi : ℕ} (buf : Bytes) (spans : List (ℕ × ℕ)) (state : σ)
    (hspans : SpansWithin hi spans) (hhi : hi ≤ buf.length) :
    ∃ buf', Edited buf buf' 0 hi ∧ emitRecord acc buf spans state =
      (buf', (acc state (spans.map fun span => slice buf span.1 span.2)).state,
        (acc state (spans.map fun span => slice buf span.1 span.2)).result) := by
  obtain ⟨hlength, hafter⟩ := writeBack_spec spans
    (acc state (spans.map fun span => slice buf span.1 span.2)).fields buf hspans hhi
  exact ⟨_, ⟨hlength, rfl, hafter⟩, rfl⟩

/-- The records cut at these offsets. -/
def cutRecords (buf : Bytes) (rOffs : List ℕ) (records : List (List (ℕ × ℕ))) : List Record :=
  records.map fun fields => fields.map fun field => cutBytes buf rOffs field.1 field.2

/-- `assemble_records_fixed` hands out the records that lie at the offsets. -/
theorem assembleRecordsFixed_spec {n hi : ℕ} (hn : 1 ≤ n) (records : List (List (ℕ × ℕ)))
    (hrecords : ∀ fields ∈ records, fields.length = n) (more : List (ℕ × ℕ)) (buf : Bytes)
    (lo : ℕ) (rOffs : List ℕ) (hsorted : rOffs.Pairwise (· < ·))
    (hordered : Ordered hi lo records.flatten) (hhi : hi ≤ buf.length) (state : σ) :
    ∃ buf' result, assembleRecordsFixed acc n records.length buf (records.flatten ++ more) rOffs
        state = (buf', (emitRows acc (cutRecords buf rOffs records) state).1, result) ∧
      result.mapError Error.fromUser = (emitRows acc (cutRecords buf rOffs records) state).2 ∧
      Edited buf buf' 0 hi := by
  induction records generalizing buf lo rOffs state with
  | nil => exact ⟨buf, .ok (), rfl, rfl, .refl _ _ _⟩
  | cons fields records ih =>
      rw [List.forall_mem_cons] at hrecords
      obtain ⟨hlength, hrecords⟩ := hrecords
      rw [List.flatten_cons] at hordered
      obtain ⟨mid, hfront, hback⟩ := hordered.append
      have hmid := hback.le
      have hne : fields ≠ [] := by
        rintro rfl
        rw [List.length_nil] at hlength
        omega
      obtain ⟨buf₁, spans, rest, hcut, hedited₁, hspans, hleaves, hslices⟩ :=
        cutRecord_spec hne buf lo rOffs hsorted hfront (le_trans hmid hhi)
      obtain ⟨buf₂, hedited₂, hemit⟩ := emitRecord_spec acc buf₁ spans state hspans
        (by rw [hedited₁.length]; exact le_trans hmid hhi)
      have hedited := (hedited₁.mono (Nat.zero_le lo) le_rfl).trans hedited₂
      have htake : (fields ++ (records.flatten ++ more)).take n = fields := by
        rw [← hlength, List.take_left]
      have hdrop : (fields ++ (records.flatten ++ more)).drop n = records.flatten ++ more := by
        rw [← hlength, List.drop_left]
      -- what this record leaves behind lies in front of the others
      have hsame : cutRecords buf₂ rest records = cutRecords buf rOffs records := by
        apply List.map_congr_left
        intro others hothers
        apply List.map_congr_left
        intro field hfield
        obtain ⟨hb, -, -⟩ := hback.mem (List.mem_flatten_of_mem hothers hfield)
        exact cutBytes_congr (fun i hi _ => hedited.getElem?_after (by omega))
          fun i hi _ => hleaves.2 i (by omega)
      rw [List.length_cons, List.flatten_cons, List.append_assoc, assembleRecordsFixed, htake, hcut]
      simp only [hemit, hslices, hdrop]
      rw [cutRecords, List.map_cons, ← cutRecords, emitRows]
      cases (acc state (fields.map fun field => cutBytes buf rOffs field.1 field.2)).result with
      | error err => exact ⟨buf₂, .error err, rfl, rfl, hedited.mono le_rfl hmid⟩
      | ok =>
          obtain ⟨buf₃, result, hrest, hresult, hedited₃⟩ := ih hrecords buf₂ mid rest hleaves.1
            hback (by rw [hedited.length]; exact hhi) _
          rw [hsame] at hrest hresult
          exact ⟨buf₃, result, hrest, hresult, (hedited.mono le_rfl hmid).trans hedited₃⟩

end Emission

end Csveee.Simd
