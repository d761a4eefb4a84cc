import Mathlib.Data.List.Basic
import Mathlib.Data.List.TakeWhile
import Mathlib.Data.Nat.Basic
import Mathlib.Tactic.Common

/-!
# Slices of a buffer

A buffer is a list; a slice of it is given by an offset and a length, and an
in-place write replaces the bytes of a slice.  The lemmas say how slices read
after writes, and that a write leaves the rest of the buffer alone.
-/

namespace Slice

variable {α : Type*}

/-- The `len` elements from `off` on. -/
def slice (buf : List α) (off len : ℕ) : List α := (buf.drop off).take len

/-- Overwrite the buffer from `off` on. -/
def overlay (buf : List α) (off : ℕ) (new : List α) : List α :=
  buf.take off ++ new ++ buf.drop (off + new.length)

/-- What a slice of fixed length holds once `new` is written to it: the new
elements as far as they reach, the old ones after them. -/
def leave (old new : List α) : List α := new.take old.length ++ old.drop new.length

/-- Write to several slices in turn. -/
def writeBack : List α → List (ℕ × ℕ) → List (List α) → List α
  | buf, (off, len) :: spans, new :: news =>
      writeBack (overlay buf off (leave (slice buf off len) new)) spans news
  | buf, _, _ => buf

section Reading

variable (buf : List α) (off len n : ℕ)

@[simp] theorem slice_zero : slice buf off 0 = [] := by
  simp [slice]

theorem length_slice : (slice buf off len).length = min len (buf.length - off) := by
  simp [slice]

theorem length_slice_of_le (h : off + len ≤ buf.length) :
    (slice buf off len).length = len := by
  rw [length_slice]
  omega

theorem drop_eq_slice_append : buf.drop off = slice buf off len ++ buf.drop (off + len) := by
  rw [slice, ← List.drop_drop, List.take_append_drop]

theorem slice_take (h : off + len ≤ n) : slice (buf.take n) off len = slice buf off len := by
  rw [slice, slice, List.drop_take, List.take_take, min_eq_left (by omega)]

theorem slice_drop (h : n ≤ off) : slice (buf.drop n) (off - n) len = slice buf off len := by
  rw [slice, slice, List.drop_drop, Nat.add_sub_cancel' h]

theorem slice_append_of_le (rest : List α) (h : off + len ≤ buf.length) :
    slice (buf ++ rest) off len = slice buf off len := by
  rw [slice, slice, List.drop_append_of_le_length (by omega),
    List.take_append_of_le_length (by simp; omega)]

theorem slice_add (m : ℕ) :
    slice buf off (len + m) = slice buf off len ++ slice buf (off + len) m := by
  simp only [slice]
  rw [List.take_add, List.drop_drop]

/-- The longest run of a slice's first elements that satisfy `p`: what it is
made of, and what follows it. -/
theorem takeWhile_slice_spec (p : α → Bool) (start limit : ℕ) (hle : start ≤ limit)
    (hlimit : limit ≤ buf.length) :
    let run := (slice buf start (limit - start)).takeWhile p
    start + run.length ≤ limit ∧ (∀ a ∈ run, p a = true) ∧
      buf.drop start = run ++ buf.drop (start + run.length) ∧
      ∀ a, start + run.length < limit → buf[start + run.length]? = some a → p a = false := by
  have hwindow := length_slice_of_le buf start (limit - start) (by omega)
  have hsplit := List.takeWhile_append_dropWhile (p := p)
    (l := slice buf start (limit - start))
  have hnext := List.head?_dropWhile_not p (slice buf start (limit - start))
  have hall : ∀ a ∈ (slice buf start (limit - start)).takeWhile p, p a = true :=
    fun a ha => List.mem_takeWhile_imp ha
  generalize (slice buf start (limit - start)).takeWhile p = run at hsplit hall
  generalize (slice buf start (limit - start)).dropWhile p = rest at hsplit hnext
  have hlen := congrArg List.length hsplit
  rw [List.length_append, hwindow] at hlen
  have hdrop : buf.drop start = run ++ (rest ++ buf.drop limit) := by
    rw [drop_eq_slice_append buf start (limit - start), ← hsplit, List.append_assoc,
      Nat.add_sub_cancel' hle]
  have hrest : buf.drop (start + run.length) = rest ++ buf.drop limit := by
    rw [← List.drop_drop, hdrop, List.drop_left]
  refine ⟨by omega, hall, by rw [hrest]; exact hdrop, ?_⟩
  intro a hlt ha
  have hhead : (buf.drop (start + run.length)).head? = some a := by
    rw [List.head?_drop]
    exact ha
  cases rest with
  | nil =>
      rw [List.length_nil] at hlen
      omega
  | cons b rest =>
      rw [hrest] at hhead
      simp only [List.cons_append, List.head?_cons, Option.some.injEq] at hhead
      simp only [List.head?_cons, hhead] at hnext
      simpa using hnext

end Reading

section Writing

variable {buf : List α} {off : ℕ} {new : List α}

theorem length_overlay (h : off + new.length ≤ buf.length) :
    (overlay buf off new).length = buf.length := by
  simp only [overlay, List.length_append, List.length_take, List.length_drop]
  omega

theorem drop_overlay {k : ℕ} (h : off + new.length ≤ buf.length)
    (hk : off + new.length ≤ k) : (overlay buf off new).drop k = buf.drop k := by
  have hlen : (buf.take off ++ new).length = off + new.length := by
    simp only [List.length_append, List.length_take]
    omega
  rw [overlay, List.drop_append, List.drop_eq_nil_of_le (by omega), List.nil_append,
    List.drop_drop, hlen]
  congr 1
  omega

theorem take_overlay {k : ℕ} (hk : k ≤ off) (hoff : off ≤ buf.length) :
    (overlay buf off new).take k = buf.take k := by
  rw [overlay, List.append_assoc,
    List.take_append_of_le_length (by simp only [List.length_take]; omega),
    List.take_take, min_eq_left hk]

/-- A slice before the written one reads as it did. -/
theorem slice_overlay_before {off' len' : ℕ} (h : off' + len' ≤ off)
    (hoff : off ≤ buf.length) :
    slice (overlay buf off new) off' len' = slice buf off' len' := by
  rw [← slice_take _ _ _ off h, take_overlay le_rfl hoff, slice_take _ _ _ off h]

theorem slice_overlay_self (h : off + new.length ≤ buf.length) :
    slice (overlay buf off new) off new.length = new := by
  have hlen : (buf.take off).length = off := by
    rw [List.length_take]
    omega
  rw [slice, overlay, List.append_assoc, List.drop_append_of_le_length (by omega),
    List.drop_eq_nil_of_le (by omega), List.nil_append, List.take_left]

/-- Writing right behind a slice extends it. -/
theorem slice_overlay_append {start : ℕ} (hstart : start ≤ off)
    (h : off + new.length ≤ buf.length) :
    slice (overlay buf off new) start (off - start + new.length) =
      slice buf start (off - start) ++ new := by
  rw [slice_add, slice_overlay_before (by omega) (by omega), Nat.add_sub_cancel' hstart,
    slice_overlay_self h]

theorem set_eq_overlay {i : ℕ} (h : i < buf.length) (a : α) :
    buf.set i a = overlay buf i [a] := by
  rw [overlay, List.set_eq_take_append_cons_drop, if_pos h]
  simp

theorem length_leave (old new : List α) : (leave old new).length = old.length := by
  simp only [leave, List.length_append, List.length_take, List.length_drop]
  omega

end Writing

/-- The buffer was edited from `lo` up to `hi` at most. -/
structure Edited (buf buf' : List α) (lo hi : ℕ) : Prop where
  length : buf'.length = buf.length
  before : buf'.take lo = buf.take lo
  after : buf'.drop hi = buf.drop hi

namespace Edited

variable {buf buf' buf'' : List α} {lo lo' hi hi' i off len : ℕ}

theorem refl (buf : List α) (lo hi : ℕ) : Edited buf buf lo hi := ⟨rfl, rfl, rfl⟩

theorem trans (h : Edited buf buf' lo hi) (h' : Edited buf' buf'' lo hi) :
    Edited buf buf'' lo hi :=
  ⟨h'.length.trans h.length, h'.before.trans h.before, h'.after.trans h.after⟩

theorem mono (h : Edited buf buf' lo hi) (hlo : lo' ≤ lo) (hhi : hi ≤ hi') :
    Edited buf buf' lo' hi' where
  length := h.length
  before := by
    have htake := congrArg (List.take lo') h.before
    rwa [List.take_take, List.take_take, min_eq_left hlo] at htake
  after := by
    have hdrop := congrArg (List.drop (hi' - hi)) h.after
    rwa [List.drop_drop, List.drop_drop, Nat.add_sub_cancel' hhi] at hdrop

theorem getElem?_before (h : Edited buf buf' lo hi) (hlt : i < lo) : buf'[i]? = buf[i]? := by
  have htake := congrArg (fun bytes : List α => bytes[i]?) h.before
  simpa only [List.getElem?_take_of_lt hlt] using htake

theorem getElem?_after (h : Edited buf buf' lo hi) (hle : hi ≤ i) : buf'[i]? = buf[i]? := by
  have hdrop := congrArg (fun bytes : List α => bytes[i - hi]?) h.after
  simpa only [List.getElem?_drop, Nat.add_sub_cancel' hle] using hdrop

/-- A slice in front of an edit reads as it did. -/
theorem slice_before (h : Edited buf buf' lo hi) (hle : off + len ≤ lo) :
    slice buf' off len = slice buf off len := by
  rw [← slice_take buf' off len lo hle, h.before, slice_take buf off len lo hle]

end Edited

theorem edited_overlay {buf : List α} {off : ℕ} {new : List α}
    (h : off + new.length ≤ buf.length) :
    Edited buf (overlay buf off new) off (off + new.length) :=
  ⟨length_overlay h, take_overlay le_rfl (by omega), drop_overlay h le_rfl⟩

section WriteBack

/-- Every span ends at or before `limit`. -/
def SpansWithin (limit : ℕ) (spans : List (ℕ × ℕ)) : Prop :=
  ∀ span ∈ spans, span.1 + span.2 ≤ limit

theorem SpansWithin.mono {limit limit' : ℕ} {spans : List (ℕ × ℕ)}
    (h : SpansWithin limit spans) (hle : limit ≤ limit') : SpansWithin limit' spans :=
  fun span hspan => le_trans (h span hspan) hle

theorem SpansWithin.append {limit : ℕ} {spans spans' : List (ℕ × ℕ)}
    (h : SpansWithin limit spans) (h' : SpansWithin limit spans') :
    SpansWithin limit (spans ++ spans') := by
  intro span hspan
  rcases List.mem_append.mp hspan with hspan | hspan
  · exact h span hspan
  · exact h' span hspan

/-- What is written within `limit` leaves the buffer's length and the rest of it
alone. -/
theorem writeBack_spec {limit : ℕ} (spans : List (ℕ × ℕ)) (news : List (List α))
    (buf : List α) (hspans : SpansWithin limit spans) (hlimit : limit ≤ buf.length) :
    (writeBack buf spans news).length = buf.length ∧
      (writeBack buf spans news).drop limit = buf.drop limit := by
  induction spans generalizing buf news with
  | nil => cases news <;> exact ⟨rfl, rfl⟩
  | cons span spans ih =>
      obtain ⟨off, len⟩ := span
      cases news with
      | nil => exact ⟨rfl, rfl⟩
      | cons new news =>
          have hspan : off + len ≤ limit := hspans (off, len) List.mem_cons_self
          have hleave : (leave (slice buf off len) new).length = len := by
            rw [length_leave, length_slice_of_le _ _ _ (by omega)]
          have hlen : (overlay buf off (leave (slice buf off len) new)).length =
              buf.length := length_overlay (by omega)
          have hrest := ih news (overlay buf off (leave (slice buf off len) new))
            (fun span hspan => hspans span (List.mem_cons_of_mem _ hspan)) (by omega)
          exact ⟨hrest.1.trans hlen,
            hrest.2.trans (drop_overlay (by omega) (by omega))⟩

end WriteBack

end Slice
