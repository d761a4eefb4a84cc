import Mathlib.Data.List.Sort
import Mathlib.Data.Nat.Bitwise

/-!
# Bits of a word

A word as the ascending list of its set bits.  Walking a word by clearing its lowest
bit is walking that list.
-/

namespace Bits

variable {w : ℕ}

/-- The positions of the set bits, lowest first. -/
def ones (m : BitVec w) : List ℕ := (List.range w).filter m.getLsbD

theorem mem_ones {m : BitVec w} {i : ℕ} : i ∈ ones m ↔ m.getLsbD i = true := by
  rw [ones, List.mem_filter, List.mem_range]
  exact ⟨And.right, fun h => ⟨BitVec.lt_of_getLsbD h, h⟩⟩

theorem pairwise_ones (m : BitVec w) : (ones m).Pairwise (· < ·) :=
  List.pairwise_lt_range.filter _

/-- A word is told by the list of its bits. -/
theorem ones_eq {m : BitVec w} {positions : List ℕ} (hsorted : positions.Pairwise (· < ·))
    (hmem : ∀ i, i ∈ positions ↔ m.getLsbD i = true) : ones m = positions :=
  List.Pairwise.eq_of_mem_iff (pairwise_ones m) hsorted fun i => by rw [mem_ones, hmem]

@[simp] theorem ones_zero : ones (0 : BitVec w) = [] := by
  rw [ones, List.filter_eq_nil_iff]
  simp

theorem ones_eq_nil {m : BitVec w} : ones m = [] ↔ m = 0 := by
  constructor
  · intro hnil
    apply BitVec.eq_of_getLsbD_eq
    intro i _
    rw [show (0 : BitVec w).getLsbD i = false from BitVec.getLsbD_zero]
    by_contra hbit
    have hmem := mem_ones.mpr (Bool.eq_true_of_not_eq_false hbit)
    rw [hnil] at hmem
    cases hmem
  · rintro rfl
    exact ones_zero

theorem cpopNatRec_eq_length (m : BitVec w) (n acc : ℕ) :
    m.cpopNatRec n acc = acc + ((List.range n).filter m.getLsbD).length := by
  induction n generalizing acc with
  | zero => rfl
  | succ n ih =>
      rw [BitVec.cpopNatRec_succ, ih, List.range_succ, List.filter_append, List.length_append]
      cases hbit : m.getLsbD n with
      | true =>
          rw [List.filter_cons_of_pos hbit, List.filter_nil, List.length_singleton,
            Bool.toNat_true]
          omega
      | false =>
          rw [List.filter_cons_of_neg (by rw [hbit]; exact Bool.false_ne_true), List.filter_nil,
            List.length_nil, Bool.toNat_false]
          omega

theorem length_ones (m : BitVec w) : (ones m).length = m.cpop.toNat := by
  rw [BitVec.toNat_cpop, cpopNatRec_eq_length, Nat.zero_add, ones]

/-- Below its lowest bit a word is zero, and one less than it is all ones there. -/
theorem exists_of_ne_zero {m : BitVec w} (hm : m ≠ 0) :
    ∃ j, m.toNat = 2 ^ m.ctz.toNat * (2 * j + 1) := by
  set k := m.ctz.toNat with hk
  have hlow : m.toNat % 2 ^ k = 0 := by
    apply Nat.eq_of_testBit_eq
    intro i
    rw [Nat.testBit_mod_two_pow, Nat.zero_testBit]
    by_cases hi : i < k
    · have hbit : m.getLsbD i = false := BitVec.getLsbD_false_of_lt_ctz hi
      rw [BitVec.getLsbD] at hbit
      rw [hbit, Bool.and_false]
    · rw [decide_eq_false hi, Bool.false_and]
  have hbit : m.getLsbD k = true := BitVec.getLsbD_true_ctz_of_ne_zero hm
  have hodd : m.toNat / 2 ^ k % 2 = 1 := by
    rw [BitVec.getLsbD, Nat.testBit_eq_decide_div_mod_eq, decide_eq_true_eq] at hbit
    exact hbit
  have hdiv := Nat.div_add_mod m.toNat (2 ^ k)
  refine ⟨m.toNat / 2 ^ k / 2, ?_⟩
  rw [show 2 * (m.toNat / 2 ^ k / 2) + 1 = m.toNat / 2 ^ k by omega]
  omega

/-- One less than a word differs from it up to the lowest bit. -/
theorem getLsbD_sub_one {m : BitVec w} (hm : m ≠ 0) (i : ℕ) :
    (m - 1).getLsbD i =
      if i < m.ctz.toNat then decide (i < w) else decide (i ≠ m.ctz.toNat) && m.getLsbD i := by
  obtain ⟨j, hj⟩ := exists_of_ne_zero hm
  have hctz : m.ctz.toNat < w := by
    have hbit := BitVec.getLsbD_true_ctz_of_ne_zero hm
    exact BitVec.lt_of_getLsbD hbit
  have hpos : 0 < 2 ^ m.ctz.toNat := Nat.two_pow_pos _
  have hone : (1 : BitVec w).toNat = 1 := by
    exact BitVec.toNat_one (by omega)
  have hle : 1 ≤ m.toNat := by
    rw [hj]
    exact Nat.mul_pos hpos (by omega)
  have hsub : (m - 1).toNat = 2 ^ m.ctz.toNat * (2 * j) + (2 ^ m.ctz.toNat - 1) := by
    rw [BitVec.toNat_sub_of_le (by rw [BitVec.le_def, hone]; exact hle), hone, hj, Nat.mul_add,
      Nat.mul_one]
    omega
  rw [BitVec.getLsbD, BitVec.getLsbD, hsub, hj,
    Nat.testBit_two_pow_mul_add _ (by omega)]
  have hhigh := Nat.testBit_two_pow_mul_add (2 * j + 1) hpos i
  rw [Nat.add_zero] at hhigh
  rw [hhigh]
  by_cases hi : i < m.ctz.toNat
  · rw [if_pos hi, if_pos hi, Nat.testBit_two_pow_sub_one, decide_eq_true hi,
      decide_eq_true (by omega)]
  · rw [if_neg hi, if_neg hi, if_neg hi]
    by_cases heq : i = m.ctz.toNat
    · rw [heq, Nat.sub_self, Nat.testBit_zero]
      simp
    · obtain ⟨n, hn⟩ : ∃ n, i - m.ctz.toNat = n + 1 := ⟨i - m.ctz.toNat - 1, by omega⟩
      rw [hn, Nat.testBit_succ, Nat.testBit_succ, decide_eq_true heq, Bool.true_and,
        show 2 * j / 2 = j by omega, show (2 * j + 1) / 2 = j by omega]

/-- Clearing the lowest bit. -/
theorem getLsbD_and_sub_one {m : BitVec w} (hm : m ≠ 0) (i : ℕ) :
    (m &&& (m - 1)).getLsbD i = (m.getLsbD i && decide (i ≠ m.ctz.toNat)) := by
  rw [BitVec.getLsbD_and, getLsbD_sub_one hm]
  by_cases hi : i < m.ctz.toNat
  · rw [BitVec.getLsbD_false_of_lt_ctz hi, Bool.false_and, Bool.false_and]
  · rw [if_neg hi]
    cases m.getLsbD i <;> simp

/-- Isolating the lowest bit. -/
theorem getLsbD_and_neg {m : BitVec w} (hm : m ≠ 0) (i : ℕ) :
    (m &&& -m).getLsbD i = decide (i = m.ctz.toNat) := by
  have hneg : -m = ~~~(m - 1) := by
    have hnot : ~~~(-m) = m - 1 := BitVec.not_neg m
    rw [← hnot, BitVec.not_not]
  have hbit := BitVec.getLsbD_true_ctz_of_ne_zero hm
  rw [hneg, BitVec.getLsbD_and, BitVec.getLsbD_not, getLsbD_sub_one hm]
  by_cases hi : i < m.ctz.toNat
  · rw [BitVec.getLsbD_false_of_lt_ctz hi, Bool.false_and, decide_eq_false (by omega)]
  · rw [if_neg hi]
    by_cases heq : i = m.ctz.toNat
    · rw [heq, hbit, decide_eq_true (BitVec.lt_of_getLsbD hbit)]
      simp
    · cases hm : m.getLsbD i <;> simp [heq]

theorem ones_cons {m : BitVec w} (hm : m ≠ 0) :
    ones m = m.ctz.toNat :: ones (m &&& (m - 1)) := by
  have hbit := BitVec.getLsbD_true_ctz_of_ne_zero hm
  apply ones_eq
  · rw [List.pairwise_cons]
    refine ⟨fun i hi => ?_, pairwise_ones _⟩
    rw [mem_ones, getLsbD_and_sub_one hm, Bool.and_eq_true, decide_eq_true_eq] at hi
    by_contra hle
    rw [BitVec.getLsbD_false_of_lt_ctz (by omega)] at hi
    exact Bool.false_ne_true hi.1
  · intro i
    rw [List.mem_cons, mem_ones, getLsbD_and_sub_one hm, Bool.and_eq_true, decide_eq_true_eq]
    constructor
    · rintro (rfl | hi)
      · exact hbit
      · exact hi.1
    · intro hi
      by_cases heq : i = m.ctz.toNat
      · exact Or.inl heq
      · exact Or.inr ⟨hi, heq⟩

/-- The bits below the lowest bit of a word. -/
theorem getLsbD_and_neg_sub_one {m : BitVec w} (hm : m ≠ 0) (i : ℕ) :
    ((m &&& -m) - 1).getLsbD i = decide (i < m.ctz.toNat) := by
  have hbit := BitVec.getLsbD_true_ctz_of_ne_zero hm
  have hlt := BitVec.lt_of_getLsbD hbit
  have hlow : m &&& -m ≠ 0 := by
    intro hzero
    have hone := getLsbD_and_neg hm m.ctz.toNat
    rw [hzero, show (0 : BitVec w).getLsbD m.ctz.toNat = false from BitVec.getLsbD_zero,
      decide_eq_true rfl] at hone
    cases hone
  have hctz : (m &&& -m).ctz.toNat = m.ctz.toNat := by
    have htrue := BitVec.getLsbD_true_ctz_of_ne_zero hlow
    rw [getLsbD_and_neg hm, decide_eq_true_eq] at htrue
    exact htrue
  rw [getLsbD_sub_one hlow, hctz, getLsbD_and_neg hm]
  by_cases hi : i < m.ctz.toNat
  · rw [if_pos hi, decide_eq_true hi, decide_eq_true (by omega)]
  · rw [if_neg hi, decide_eq_false hi]
    by_cases heq : i = m.ctz.toNat <;> simp [heq]

end Bits
