import Csveee.Lib.Bits
import Csveee.Parser.Simd.Bitmask

/-!
# Streams of flags and their windows

A mask is a window of 64 flags on a stream that goes on across vectors.  A shift by one
with the neighbour's bit carried in is the window of the stream shifted by one, so every
operation on masks is the window of an operation on streams.
-/

namespace Csveee.Simd

open Bits

theorem getLsbD_bit (flag : Bool) (i : ℕ) :
    (bit flag).getLsbD i = (decide (i = 0) && flag) := by
  rw [bit, BitVec.getLsbD_setWidth, BitVec.getLsbD_ofBool]
  by_cases hi : i = 0
  · rw [hi]
    simp
  · simp [hi]

theorem getLsbD_maskBelow (flags : ℕ → Bool) {n : ℕ} (hn : n ≤ 64) (i : ℕ) :
    (maskBelow flags n).getLsbD i = (decide (i < n) && flags i) := by
  induction n with
  | zero => simp [maskBelow]
  | succ n ih =>
      rw [maskBelow, BitVec.getLsbD_or, ih (by omega), BitVec.getLsbD_shiftLeft, getLsbD_bit]
      rcases Nat.lt_trichotomy i n with hlt | rfl | hgt
      · simp [hlt, show i < n + 1 by omega]
      · simp [show i < 64 by omega]
      · simp [show ¬ i < n by omega, show ¬ i < n + 1 by omega, show i - n ≠ 0 by omega]

theorem getLsbD_maskOf (flags : ℕ → Bool) (i : ℕ) :
    (maskOf flags).getLsbD i = (decide (i < 64) && flags i) :=
  getLsbD_maskBelow flags le_rfl i

theorem getLsbD_one_shiftLeft {n : ℕ} (hn : n < 64) (i : ℕ) :
    ((1 : Mask) <<< n).getLsbD i = decide (i = n) := by
  rw [BitVec.getLsbD_shiftLeft, show (1 : Mask) = 1#64 from rfl, BitVec.getLsbD_one]
  rcases Nat.lt_trichotomy i n with hlt | rfl | hgt
  · simp [hlt, show i ≠ n by omega]
  · simp [hn]
  · simp [show ¬ i < n by omega, show i ≠ n by omega, show i - n ≠ 0 by omega]

theorem getLsbD_low {n : ℕ} (hn : n < 64) (i : ℕ) :
    (((1 : Mask) <<< n) - 1).getLsbD i = decide (i < n) := by
  have hbit := getLsbD_one_shiftLeft hn
  have hne : (1 : Mask) <<< n ≠ 0 := by
    intro hzero
    have hone := hbit n
    rw [hzero, show (0 : Mask).getLsbD n = false from BitVec.getLsbD_zero,
      decide_eq_true rfl] at hone
    cases hone
  have hctz : ((1 : Mask) <<< n).ctz.toNat = n := by
    have htrue := BitVec.getLsbD_true_ctz_of_ne_zero hne
    rw [hbit, decide_eq_true_eq] at htrue
    exact htrue
  rw [getLsbD_sub_one hne, hctz, hbit]
  by_cases hi : i < n
  · rw [if_pos hi, decide_eq_true hi, decide_eq_true (by omega)]
  · rw [if_neg hi, decide_eq_false hi]
    by_cases heq : i = n <;> simp [heq]

theorem getLsbD_neg_bit (flag : Bool) {i : ℕ} (hi : i < 64) : (-bit flag).getLsbD i = flag := by
  cases flag with
  | false => rw [show -bit false = 0#64 from by decide, BitVec.getLsbD_zero]
  | true =>
      rw [show -bit true = BitVec.allOnes 64 from by decide, BitVec.getLsbD_allOnes]
      exact decide_eq_true hi

theorem ushiftRight_63_ne_zero (m : Mask) : (m >>> 63 != 0) = m.getLsbD 63 := by
  rw [Bool.eq_iff_iff, bne_iff_ne]
  constructor
  · intro hne
    by_contra hbit
    rw [Bool.not_eq_true] at hbit
    apply hne
    apply BitVec.eq_of_getLsbD_eq
    intro i hi
    rw [BitVec.getLsbD_ushiftRight, show (0 : Mask).getLsbD i = false from BitVec.getLsbD_zero]
    by_cases h0 : i = 0
    · rw [h0]
      exact hbit
    · exact BitVec.getLsbD_of_ge m _ (by omega)
  · intro hbit hzero
    have hlow := congrArg (fun m : Mask => m.getLsbD 0) hzero
    rw [BitVec.getLsbD_ushiftRight] at hlow
    rw [hbit] at hlow
    cases hlow

theorem and_one_ne_zero (m : Mask) : (m &&& 1 != 0) = m.getLsbD 0 := by
  rw [Bool.eq_iff_iff, bne_iff_ne]
  constructor
  · intro hne
    by_contra hbit
    rw [Bool.not_eq_true] at hbit
    apply hne
    apply BitVec.eq_of_getLsbD_eq
    intro i hi
    rw [BitVec.getLsbD_and, show (1 : Mask) = 1#64 from rfl, BitVec.getLsbD_one,
      show (0 : Mask).getLsbD i = false from BitVec.getLsbD_zero]
    by_cases h0 : i = 0
    · rw [h0, hbit, Bool.false_and]
    · simp [h0]
  · intro hbit hzero
    have hlow := congrArg (fun m : Mask => m.getLsbD 0) hzero
    rw [BitVec.getLsbD_and, hbit] at hlow
    cases hlow

theorem lsb_eq (m : Mask) : lsb m = m.getLsbD 0 := and_one_ne_zero m

theorem msb_eq (m : Mask) : msb m = m.getLsbD 63 := by
  rw [msb, and_one_ne_zero, BitVec.getLsbD_ushiftRight]

/-- The flag before each position; nothing precedes the first. -/
def lag (f : ℕ → Bool) : ℕ → Bool
  | 0 => false
  | i + 1 => f i

/-- The flag before each position, one carried in before the first. -/
def lagFrom (carry : Bool) (f : ℕ → Bool) : ℕ → Bool
  | 0 => carry
  | i + 1 => f i

/-- The flags moved back by `k` positions. -/
def delayed (k : ℕ) (f : ℕ → Bool) (i : ℕ) : Bool := if i < k then false else f (i - k)

/-- The flag after each position. -/
def lead (f : ℕ → Bool) (i : ℕ) : Bool := f (i + 1)

/-- Whether the flags up to and with each position are odd in number. -/
def parity (f : ℕ → Bool) : ℕ → Bool
  | 0 => f 0
  | i + 1 => parity f i ^^ f (i + 1)

@[simp] theorem lag_zero (f : ℕ → Bool) : lag f 0 = false := rfl

@[simp] theorem lag_succ (f : ℕ → Bool) (i : ℕ) : lag f (i + 1) = f i := rfl

theorem delayed_succ (k : ℕ) (f : ℕ → Bool) : delayed (k + 1) f = lag (delayed k f) := by
  funext i
  cases i with
  | zero => rfl
  | succ i => simp [delayed]

theorem lag_delayed (k : ℕ) (f : ℕ → Bool) (i : ℕ) : lag (delayed k f) (k + i) = lag f i := by
  rw [← delayed_succ, delayed]
  cases i with
  | zero => simp
  | succ i => rw [if_neg (by omega), show k + (i + 1) - (k + 1) = i by omega, lag_succ]

theorem parity_eq (f : ℕ → Bool) (i : ℕ) : parity f i = (lag (parity f) i ^^ f i) := by
  cases i with
  | zero => exact (Bool.false_xor _).symm
  | succ i => rfl

theorem parity_add (f : ℕ → Bool) (k i : ℕ) :
    parity f (k + i) = (lag (parity f) k ^^ parity (fun lane => f (k + lane)) i) := by
  induction i with
  | zero => exact parity_eq f k
  | succ i ih =>
      rw [show k + (i + 1) = k + i + 1 from rfl, parity, ih, parity, Bool.xor_assoc]
      rfl

theorem parity_congr {f g : ℕ → Bool} {i : ℕ} (hsame : ∀ k ≤ i, f k = g k) :
    parity f i = parity g i := by
  induction i with
  | zero => exact hsame 0 le_rfl
  | succ i ih =>
      rw [parity, parity, ih fun k hk => hsame k (by omega), hsame (i + 1) le_rfl]

theorem parity_of_none {f : ℕ → Bool} {i : ℕ} (hnone : ∀ k ≤ i, f k = false) :
    parity f i = false := by
  induction i with
  | zero => exact hnone 0 le_rfl
  | succ i ih =>
      rw [parity, ih fun k hk => hnone k (by omega), hnone (i + 1) le_rfl]
      rfl

def window (f : ℕ → Bool) (j : ℕ) : Mask := maskOf fun lane => f (64 * j + lane)

theorem getLsbD_window (f : ℕ → Bool) (j i : ℕ) :
    (window f j).getLsbD i = (decide (i < 64) && f (64 * j + i)) := getLsbD_maskOf _ _

/-- A mask is a window if it has its bits. -/
theorem eq_window {m : Mask} {f : ℕ → Bool} {j : ℕ}
    (hbits : ∀ i < 64, m.getLsbD i = f (64 * j + i)) : m = window f j := by
  apply BitVec.eq_of_getLsbD_eq
  intro i hi
  rw [getLsbD_window, hbits i hi, decide_eq_true hi, Bool.true_and]

theorem getLsbD_window_of_lt (f : ℕ → Bool) (j : ℕ) {i : ℕ} (hi : i < 64) :
    (window f j).getLsbD i = f (64 * j + i) := by
  rw [getLsbD_window, decide_eq_true hi, Bool.true_and]

section Operations

variable (f g : ℕ → Bool) (j : ℕ)

theorem window_and : window f j &&& window g j = window (fun i => f i && g i) j :=
  eq_window fun i hi => by
    rw [BitVec.getLsbD_and, getLsbD_window_of_lt f j hi, getLsbD_window_of_lt g j hi]

theorem window_or : window f j ||| window g j = window (fun i => f i || g i) j :=
  eq_window fun i hi => by
    rw [BitVec.getLsbD_or, getLsbD_window_of_lt f j hi, getLsbD_window_of_lt g j hi]

theorem window_and_not : window f j &&& ~~~window g j = window (fun i => f i && !g i) j :=
  eq_window fun i hi => by
    rw [BitVec.getLsbD_and, BitVec.getLsbD_not, getLsbD_window_of_lt f j hi,
      getLsbD_window_of_lt g j hi, decide_eq_true hi, Bool.true_and]

theorem window_lag : (window f j <<< 1) ||| bit (lag f (64 * j)) = window (lag f) j :=
  eq_window fun i hi => by
    rw [BitVec.getLsbD_or, BitVec.getLsbD_shiftLeft, getLsbD_bit, getLsbD_window]
    cases i with
    | zero => simp
    | succ i => simp [hi, show i < 64 by omega, ← Nat.add_assoc]

theorem window_lead :
    (window f j >>> 1) ||| (bit (f (64 * (j + 1))) <<< 63) = window (lead f) j :=
  eq_window fun i hi => by
    rw [BitVec.getLsbD_or, BitVec.getLsbD_ushiftRight, BitVec.getLsbD_shiftLeft, getLsbD_bit,
      getLsbD_window, lead]
    by_cases hlast : i = 63
    · subst hlast
      simp [show 64 * j + 63 + 1 = 64 * (j + 1) by omega]
    · rw [decide_eq_true (show 1 + i < 64 by omega), decide_eq_true (show i < 63 by omega),
        Nat.add_comm 1 i, ← Nat.add_assoc]
      simp

theorem lsb_window : lsb (window f j) = f (64 * j) := by
  rw [lsb_eq, getLsbD_window_of_lt f j (by omega)]
  rfl

theorem msb_window : msb (window f j) = lag f (64 * (j + 1)) := by
  rw [msb_eq, getLsbD_window_of_lt f j (by omega), show 64 * (j + 1) = 64 * j + 63 + 1 by omega,
    lag_succ]

theorem window_eq_zero : window f j = 0 ↔ ∀ i < 64, f (64 * j + i) = false := by
  constructor
  · intro hzero i hi
    rw [← getLsbD_window_of_lt f j hi, hzero]
    exact BitVec.getLsbD_zero
  · intro hnone
    refine (eq_window fun i hi => ?_).symm
    rw [hnone i hi]
    exact BitVec.getLsbD_zero

end Operations

theorem getLsbD_shiftLeft_or_bit (m : Mask) (carry : Bool) {i : ℕ} (hi : i < 64) :
    ((m <<< 1) ||| bit carry).getLsbD i = lagFrom carry m.getLsbD i := by
  rw [BitVec.getLsbD_or, BitVec.getLsbD_shiftLeft, getLsbD_bit]
  cases i with
  | zero => simp [lagFrom]
  | succ i => simp [hi, lagFrom]

/-- The exclusive or of the last `w` flags up to a position. -/
def lastXor (f : ℕ → Bool) : ℕ → ℕ → Bool
  | 0, _ => false
  | w + 1, i => lastXor f w i ^^ (decide (w ≤ i) && f (i - w))

theorem lastXor_add (f : ℕ → Bool) (v w i : ℕ) :
    lastXor f (v + w) i = (lastXor f v i ^^ (decide (v ≤ i) && lastXor f w (i - v))) := by
  induction w with
  | zero => simp [lastXor]
  | succ w ih =>
      rw [show v + (w + 1) = v + w + 1 from rfl, lastXor, ih, lastXor, Bool.xor_assoc,
        Nat.sub_sub]
      by_cases hv : v ≤ i
      · rw [decide_eq_true hv, show decide (w ≤ i - v) = decide (v + w ≤ i) from by
          rw [decide_eq_decide]; omega]
        rfl
      · rw [decide_eq_false hv, decide_eq_false (show ¬ v + w ≤ i by omega)]
        rfl

theorem lastXor_eq_parity (f : ℕ → Bool) {w i : ℕ} (hw : i < w) : lastXor f w i = parity f i := by
  induction i generalizing w with
  | zero =>
      obtain ⟨v, rfl⟩ : ∃ v, w = 1 + v := ⟨w - 1, by omega⟩
      rw [lastXor_add]
      simp [lastXor, parity]
  | succ i ih =>
      obtain ⟨v, rfl⟩ : ∃ v, w = 1 + v := ⟨w - 1, by omega⟩
      rw [lastXor_add, Nat.add_sub_cancel, ih (show i < v by omega), parity, Bool.xor_comm]
      simp [lastXor]

theorem getLsbD_double {q : Mask} {f : ℕ → Bool} {w : ℕ}
    (hq : ∀ i < 64, q.getLsbD i = lastXor f w i) :
    ∀ i < 64, (q ^^^ (q <<< w)).getLsbD i = lastXor f (w + w) i := by
  intro i hi
  rw [BitVec.getLsbD_xor, BitVec.getLsbD_shiftLeft, lastXor_add, hq i hi, decide_eq_true hi,
    Bool.true_and]
  by_cases hw : i < w
  · rw [decide_eq_true hw, decide_eq_false (show ¬ w ≤ i by omega)]
    rfl
  · rw [decide_eq_false hw, decide_eq_true (show w ≤ i by omega), hq _ (by omega)]
    rfl

theorem getLsbD_xorPrefixSum (q : Mask) {i : ℕ} (hi : i < 64) :
    (xorPrefixSum q).getLsbD i = parity q.getLsbD i := by
  have h1 : ∀ i < 64, q.getLsbD i = lastXor q.getLsbD 1 i := by
    intro i _
    simp [lastXor]
  have h64 := getLsbD_double (getLsbD_double (getLsbD_double (getLsbD_double (getLsbD_double
    (getLsbD_double h1)))))
  rw [← lastXor_eq_parity q.getLsbD hi]
  exact h64 i hi

theorem getLsbD_computeInQuotes (quote : Mask) (carryIn : Bool) {i : ℕ} (hi : i < 64) :
    (computeInQuotes quote carryIn).1.getLsbD i = (carryIn ^^ parity quote.getLsbD i) := by
  rw [computeInQuotes]
  split_ifs with hzero
  · have hnone : parity quote.getLsbD i = false :=
      parity_of_none fun k _ => by rw [hzero]; exact BitVec.getLsbD_zero
    rw [getLsbD_neg_bit _ hi, hnone, Bool.xor_false]
  · rw [BitVec.getLsbD_xor, getLsbD_xorPrefixSum _ hi, getLsbD_neg_bit _ hi, Bool.xor_comm]

/-- The carry is the parity at the last lane. -/
theorem computeInQuotes_carry (quote : Mask) (carryIn : Bool) :
    (computeInQuotes quote carryIn).2 = (computeInQuotes quote carryIn).1.getLsbD 63 := by
  rw [computeInQuotes]
  split_ifs
  · exact (getLsbD_neg_bit carryIn (by omega)).symm
  · exact ushiftRight_63_ne_zero _

end Csveee.Simd
