import Csveee.Lib.Slice

/-!
# Buffers alike in places

Two buffers that agree where a predicate holds: what in-place writes keep of a buffer, and
what a computation on it reads of it.
-/

namespace Slice

variable {α : Type*}

theorem getElem?_overlay {buf : List α} {off : ℕ} {new : List α}
    (h : off + new.length ≤ buf.length) (i : ℕ) :
    (overlay buf off new)[i]? =
      if off ≤ i ∧ i < off + new.length then new[i - off]? else buf[i]? := by
  have hlen : (buf.take off).length = off := by
    rw [List.length_take]
    omega
  rw [overlay, List.append_assoc]
  by_cases hbefore : i < off
  · rw [List.getElem?_append_left (by omega), List.getElem?_take_of_lt hbefore,
      if_neg (by omega)]
  · rw [List.getElem?_append_right (by omega), hlen]
    by_cases hwithin : i < off + new.length
    · rw [List.getElem?_append_left (by omega), if_pos (by omega)]
    · rw [List.getElem?_append_right (by omega), List.getElem?_drop, if_neg (by omega)]
      congr 1
      omega

/-- The two buffers are alike where `P` holds. -/
structure SameOn (P : ℕ → Prop) (buf buf' : List α) : Prop where
  length : buf'.length = buf.length
  values : ∀ i, P i → buf'[i]? = buf[i]?

/-- A position of one of the spans. -/
def InSpans (spans : List (ℕ × ℕ)) (i : ℕ) : Prop :=
  ∃ span ∈ spans, span.1 ≤ i ∧ i < span.1 + span.2

namespace SameOn

variable {P Q : ℕ → Prop} {buf buf' buf'' : List α} {off len : ℕ} {new : List α}

theorem refl (P : ℕ → Prop) (buf : List α) : SameOn P buf buf := ⟨rfl, fun _ _ => rfl⟩

theorem trans (h : SameOn P buf buf') (h' : SameOn P buf' buf'') : SameOn P buf buf'' :=
  ⟨h'.length.trans h.length, fun i hi => (h'.values i hi).trans (h.values i hi)⟩

theorem mono (h : SameOn P buf buf') (hle : ∀ i, Q i → P i) : SameOn Q buf buf' :=
  ⟨h.length, fun i hi => h.values i (hle i hi)⟩

theorem of_edited {lo hi : ℕ} (h : Edited buf buf' lo hi)
    (hP : ∀ i, P i → ¬(lo ≤ i ∧ i < hi)) : SameOn P buf buf' := by
  refine ⟨h.length, fun i hi => ?_⟩
  have hout := hP i hi
  by_cases hlt : i < lo
  · exact h.getElem?_before hlt
  · exact h.getElem?_after (by omega)

theorem of_drop {n : ℕ} (hlength : buf'.length = buf.length) (hdrop : buf'.drop n = buf.drop n) :
    SameOn (fun i => n ≤ i) buf buf' := by
  refine ⟨hlength, fun i hi => ?_⟩
  have hget := congrArg (fun buf : List α => buf[i - n]?) hdrop
  simp only [List.getElem?_drop, Nat.add_sub_cancel' hi] at hget
  exact hget

theorem take (h : SameOn P buf buf') (n : ℕ) : SameOn P (buf.take n) (buf'.take n) := by
  refine ⟨by rw [List.length_take, List.length_take, h.length], fun i hi => ?_⟩
  rw [List.getElem?_take, List.getElem?_take, h.values i hi]

theorem drop (h : SameOn P buf buf') (n : ℕ) :
    SameOn (fun i => P (n + i)) (buf.drop n) (buf'.drop n) := by
  refine ⟨by rw [List.length_drop, List.length_drop, h.length], fun i hi => ?_⟩
  rw [List.getElem?_drop, List.getElem?_drop, h.values _ hi]

/-- The buffers in front of what lies behind them. -/
theorem append_drop {rest rest' : List α} (h : SameOn P buf buf')
    (h' : SameOn (fun i => buf.length ≤ i) rest rest') :
    SameOn P (buf ++ rest.drop buf.length) (buf' ++ rest'.drop buf.length) := by
  refine ⟨?_, fun i hi => ?_⟩
  · simp only [List.length_append, List.length_drop, h.length, h'.length]
  · rcases Nat.lt_or_ge i buf.length with hlt | hge
    · rw [List.getElem?_append_left hlt, List.getElem?_append_left (by rwa [h.length]),
        h.values i hi]
    · rw [List.getElem?_append_right hge, List.getElem?_append_right (by rwa [h.length]),
        List.getElem?_drop, List.getElem?_drop, h.length, h'.values _ (by omega)]

theorem slice (h : SameOn P buf buf') (hP : ∀ i, off ≤ i → i < off + len → P i) :
    Slice.slice buf' off len = Slice.slice buf off len := by
  apply List.ext_getElem?
  intro i
  rw [Slice.slice, Slice.slice, List.getElem?_take, List.getElem?_take, List.getElem?_drop,
    List.getElem?_drop]
  split_ifs with hi
  · exact h.values _ (hP _ (by omega) (by omega))
  · rfl

theorem overlay (h : SameOn P buf buf') (hfits : off + new.length ≤ buf.length) :
    SameOn P (Slice.overlay buf off new) (Slice.overlay buf' off new) := by
  have hfits' : off + new.length ≤ buf'.length := by
    rw [h.length]
    exact hfits
  refine ⟨by rw [length_overlay hfits, length_overlay hfits', h.length], fun i hi => ?_⟩
  rw [getElem?_overlay hfits, getElem?_overlay hfits', h.values i hi]

theorem move (h : SameOn P buf buf') {write : ℕ} (hread : off + len ≤ buf.length)
    (hwrite : write + len ≤ buf.length) (hP : ∀ i, off ≤ i → i < off + len → P i) :
    SameOn P (Slice.overlay buf write (Slice.slice buf off len))
      (Slice.overlay buf' write (Slice.slice buf' off len)) := by
  rw [h.slice hP]
  apply h.overlay
  rw [length_slice_of_le _ _ _ hread]
  exact hwrite

theorem length_overlay_leave (hspan : off + len ≤ buf.length) :
    off + (leave (Slice.slice buf off len) new).length = off + len := by
  rw [length_leave, length_slice_of_le _ _ _ hspan]

/-- What is written to slices keeps what lies outside of them. -/
theorem writeBack_outside (spans : List (ℕ × ℕ)) (news : List (List α)) (buf : List α)
    (hspans : SpansWithin buf.length spans) (hP : ∀ i, P i → ¬InSpans spans i) :
    SameOn P buf (writeBack buf spans news) := by
  induction spans generalizing buf news with
  | nil => cases news <;> exact .refl _ _
  | cons span spans ih =>
      obtain ⟨off, len⟩ := span
      cases news with
      | nil => exact .refl _ _
      | cons new news =>
          have hspan : off + len ≤ buf.length := hspans (off, len) List.mem_cons_self
          have hleave := @length_overlay_leave _ _ _ _ new hspan
          have hlen := length_overlay (hleave.trans_le hspan)
          have hedited := edited_overlay (hleave.trans_le hspan)
          rw [hleave] at hedited
          apply (SameOn.of_edited hedited _).trans
          · apply ih
            · intro other hother
              rw [hlen]
              exact hspans other (List.mem_cons_of_mem _ hother)
            · rintro i hi ⟨other, hother, hwithin⟩
              exact hP i hi ⟨other, List.mem_cons_of_mem _ hother, hwithin⟩
          · intro i hi hwithin
            exact hP i hi ⟨(off, len), List.mem_cons_self, hwithin⟩

theorem writeBack (h : SameOn P buf buf') (spans : List (ℕ × ℕ)) (news : List (List α))
    (hspans : SpansWithin buf.length spans) (hP : ∀ i, InSpans spans i → P i) :
    SameOn P (Slice.writeBack buf spans news) (Slice.writeBack buf' spans news) := by
  induction spans generalizing buf buf' news with
  | nil => cases news <;> exact h
  | cons span spans ih =>
      obtain ⟨off, len⟩ := span
      cases news with
      | nil => exact h
      | cons new news =>
          have hspan : off + len ≤ buf.length := hspans (off, len) List.mem_cons_self
          have hleave := @length_overlay_leave _ _ _ _ new hspan
          have hread : Slice.slice buf' off len = Slice.slice buf off len :=
            h.slice fun i hlo hhi => hP i ⟨(off, len), List.mem_cons_self, hlo, hhi⟩
          have hwritten := h.overlay (hleave.trans_le hspan)
          rw [Slice.writeBack, Slice.writeBack, hread]
          apply ih hwritten
          · intro other hother
            rw [length_overlay (hleave.trans_le hspan)]
            exact hspans other (List.mem_cons_of_mem _ hother)
          · rintro i ⟨other, hother, hwithin⟩
            exact hP i ⟨other, List.mem_cons_of_mem _ hother, hwithin⟩

end SameOn

end Slice
