import Mathlib.Data.List.Sort
import Mathlib.Tactic.Common

/-!
# Positions of a flag

The places at which a flag is set, within a range, in ascending order; and what
ascending lists keep when a bound cuts them.
-/

namespace Positions

/-- Where the flag is set, from `lo` up to `hi`. -/
def positions (f : ℕ → Bool) (lo hi : ℕ) : List ℕ := (List.range' lo (hi - lo)).filter f

section Flags

variable {f g : ℕ → Bool} {lo mid hi p : ℕ}

theorem mem_positions : p ∈ positions f lo hi ↔ (lo ≤ p ∧ p < hi) ∧ f p = true := by
  rw [positions, List.mem_filter, List.mem_range'_1]
  constructor
  · rintro ⟨hrange, hflag⟩
    exact ⟨by omega, hflag⟩
  · rintro ⟨hrange, hflag⟩
    exact ⟨by omega, hflag⟩

theorem pairwise_positions (f : ℕ → Bool) (lo hi : ℕ) :
    (positions f lo hi).Pairwise (· < ·) := by
  have hrange : (List.range' lo (hi - lo)).Pairwise (· < ·) := List.pairwise_lt_range'
  exact hrange.filter _

/-- An ascending list is told by its members. -/
theorem positions_eq {xs : List ℕ} (hsorted : xs.Pairwise (· < ·))
    (hmem : ∀ p, p ∈ xs ↔ (lo ≤ p ∧ p < hi) ∧ f p = true) : positions f lo hi = xs :=
  List.Pairwise.eq_of_mem_iff (pairwise_positions f lo hi) hsorted fun p => by
    rw [mem_positions, hmem]

theorem positions_congr (h : ∀ p, lo ≤ p → p < hi → f p = g p) :
    positions f lo hi = positions g lo hi := by
  apply List.filter_congr
  intro p hp
  rw [List.mem_range'_1] at hp
  exact h p hp.1 (by omega)

theorem positions_eq_nil (h : ∀ p, lo ≤ p → p < hi → f p = false) : positions f lo hi = [] := by
  apply positions_eq .nil
  intro p
  constructor
  · intro hp
    cases hp
  · rintro ⟨⟨hlo, hhi⟩, hflag⟩
    rw [h p hlo hhi] at hflag
    cases hflag

@[simp] theorem positions_of_le (h : hi ≤ lo) : positions f lo hi = [] :=
  positions_eq_nil fun p _ _ => by omega

/-- Just one flag of the range is set. -/
theorem positions_eq_singleton (hlo : lo ≤ p) (hhi : p < hi)
    (h : ∀ q, lo ≤ q → q < hi → (f q = true ↔ q = p)) : positions f lo hi = [p] := by
  apply positions_eq (List.pairwise_singleton _ _)
  intro q
  rw [List.mem_singleton]
  constructor
  · rintro rfl
    exact ⟨⟨hlo, hhi⟩, (h q hlo hhi).mpr rfl⟩
  · rintro ⟨⟨hqlo, hqhi⟩, hflag⟩
    exact (h q hqlo hqhi).mp hflag

theorem positions_append (hlo : lo ≤ mid) (hhi : mid ≤ hi) :
    positions f lo mid ++ positions f mid hi = positions f lo hi := by
  rw [positions, positions, positions, ← List.filter_append, show hi - lo = mid - lo + (hi - mid) by
    omega, ← List.range'_append_1, Nat.add_sub_cancel' hlo]

theorem positions_succ (h : lo ≤ hi) :
    positions f lo (hi + 1) = positions f lo hi ++ if f hi = true then [hi] else [] := by
  rw [← positions_append h (Nat.le_succ hi)]
  congr 1
  split_ifs with hflag
  · apply positions_eq_singleton le_rfl (Nat.lt_succ_self hi)
    intro q hlo hhi
    rw [show q = hi by omega, hflag]
    exact ⟨fun _ => rfl, fun _ => rfl⟩
  · apply positions_eq_nil
    intro p hlo hhi
    rw [show p = hi by omega]
    exact Bool.eq_false_of_not_eq_true hflag

theorem filter_ge_positions (h : lo ≤ mid) :
    (positions f lo hi).filter (fun p => decide (mid ≤ p)) = positions f mid hi := by
  symm
  apply positions_eq ((pairwise_positions f lo hi).filter _)
  intro p
  rw [List.mem_filter, mem_positions, decide_eq_true_eq]
  constructor
  · rintro ⟨⟨hrange, hflag⟩, hle⟩
    exact ⟨⟨hle, hrange.2⟩, hflag⟩
  · rintro ⟨hrange, hflag⟩
    exact ⟨⟨⟨by omega, hrange.2⟩, hflag⟩, hrange.1⟩

end Flags

section Ascending

variable {xs : List ℕ} {p i : ℕ}

/-- The members below a bound are a prefix. -/
theorem filter_lt_eq_takeWhile (h : xs.Pairwise (· < ·)) (p : ℕ) :
    xs.filter (fun x => decide (x < p)) = xs.takeWhile fun x => decide (x < p) := by
  induction xs with
  | nil => rfl
  | cons x xs ih =>
      obtain ⟨hx, hxs⟩ := List.pairwise_cons.mp h
      by_cases hlt : x < p
      · simp only [List.filter_cons, List.takeWhile_cons, hlt, decide_true, if_true, ih hxs]
      · have hfalse : decide (x < p) = false := decide_eq_false hlt
        rw [List.takeWhile_cons, hfalse, if_neg Bool.false_ne_true, List.filter_eq_nil_iff]
        intro y hy
        rw [decide_eq_true_eq]
        rcases List.mem_cons.mp hy with rfl | hy
        · exact hlt
        · have hxy := hx y hy
          omega

theorem length_le_of_mem {lo hi : ℕ} (h : xs.Pairwise (· < ·))
    (hrange : ∀ x ∈ xs, lo ≤ x ∧ x < hi) : xs.length ≤ hi - lo := by
  induction xs generalizing lo with
  | nil => exact Nat.zero_le _
  | cons x xs ih =>
      obtain ⟨hx, hxs⟩ := List.pairwise_cons.mp h
      rw [List.forall_mem_cons] at hrange
      have hrest := @ih (x + 1) hxs fun y hy => ⟨hx y hy, (hrange.2 y hy).2⟩
      rw [List.length_cons]
      omega

/-- Dropping the members below a bound from an ascending list. -/
theorem dropWhile_lt_eq_filter (h : xs.Pairwise (· < ·)) (p : ℕ) :
    xs.dropWhile (fun x => decide (x < p)) = xs.filter fun x => decide (p ≤ x) := by
  induction xs with
  | nil => rfl
  | cons x xs ih =>
      obtain ⟨hx, hxs⟩ := List.pairwise_cons.mp h
      by_cases hlt : x < p
      · have hge : ¬ p ≤ x := by omega
        simp only [List.dropWhile_cons, List.filter_cons, hlt, hge, decide_true, decide_false,
          if_true, Bool.false_eq_true, if_false, ih hxs]
      · simp only [List.dropWhile_cons, hlt, decide_false, Bool.false_eq_true, if_false]
        rw [eq_comm, List.filter_eq_self]
        intro y hy
        rw [decide_eq_true_eq]
        rcases List.mem_cons.mp hy with rfl | hy
        · omega
        · have hxy := hx y hy
          omega

theorem drop_filter_lt (h : xs.Pairwise (· < ·)) (p : ℕ) :
    xs.drop (xs.filter fun x => decide (x < p)).length = xs.filter fun x => decide (p ≤ x) := by
  have hsplit := List.takeWhile_append_dropWhile (p := fun x => decide (x < p)) (l := xs)
  rw [filter_lt_eq_takeWhile h, ← dropWhile_lt_eq_filter h]
  conv_lhs => rw [← hsplit, List.drop_left' (by rw [hsplit])]

end Ascending

end Positions
