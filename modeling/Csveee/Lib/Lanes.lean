import Csveee.Lib.Bits

/-!
# Vector instructions

A vector register is a vector of byte lanes, and each instruction is told by the lanes,
or the bits, of its result.  Beside them stand two instructions on words: the carry-less
product and the extraction of selected bits.
-/

namespace Lanes

/-- The bits below `n` that `flags` gives. -/
def gather (flags : ℕ → Bool) : (n : ℕ) → BitVec n
  | 0 => 0#0
  | n + 1 => (gather flags n).cons (flags n)

@[simp] theorem getLsbD_gather (flags : ℕ → Bool) (n i : ℕ) :
    (gather flags n).getLsbD i = (decide (i < n) && flags i) := by
  induction n with
  | zero => simp [gather]
  | succ n ih =>
      rw [gather, BitVec.getLsbD_cons, ih]
      rcases Nat.lt_trichotomy i n with hlt | rfl | hgt
      · rw [if_neg hlt.ne, decide_eq_true hlt, decide_eq_true (Nat.lt_succ_of_lt hlt)]
      · rw [if_pos rfl, decide_eq_true (Nat.lt_succ_self i), Bool.true_and]
      · rw [if_neg hgt.ne', decide_eq_false hgt.asymm, decide_eq_false (Nat.not_lt.mpr hgt)]

theorem getLsbD_foldl_or {α : Type} {w : ℕ} (g : α → BitVec w) (xs : List α) (acc : BitVec w)
    (i : ℕ) :
    (xs.foldl (fun mask x => mask ||| g x) acc).getLsbD i =
      (acc.getLsbD i || xs.any fun x => (g x).getLsbD i) := by
  induction xs generalizing acc with
  | nil => rw [List.foldl_nil, List.any_nil, Bool.or_false]
  | cons x xs ih => rw [List.foldl_cons, ih, BitVec.getLsbD_or, List.any_cons, Bool.or_assoc]

abbrev Register (n : ℕ) := Vector UInt8 n

variable {n m : ℕ}

/-- The lanes of a register are a stretch of `f`. -/
def Register.Shows (r : Register n) (f : ℕ → UInt8) (start : ℕ) : Prop :=
  ∀ (i : ℕ) (hi : i < n), r[i] = f (start + i)

def splat (n : ℕ) (b : UInt8) : Register n := Vector.ofFn fun _ => b

@[simp] theorem getElem_splat (b : UInt8) {i : ℕ} (hi : i < n) : (splat n b)[i] = b :=
  Vector.getElem_ofFn hi

def load (n start : ℕ) (bytes : Vector UInt8 m) (hfits : start + n ≤ m) : Register n :=
  Vector.ofFn fun i => bytes[start + i.val]

@[simp] theorem getElem_load (start : ℕ) (bytes : Vector UInt8 m) (hfits : start + n ≤ m)
    {i : ℕ} (hi : i < n) : (load n start bytes hfits)[i] = bytes[start + i] :=
  Vector.getElem_ofFn hi

/-- Lanes that agree become all ones, the others zero. -/
def compareEqual (a b : Register n) : Register n :=
  Vector.ofFn fun i => if a[i] = b[i] then 255 else 0

@[simp] theorem getElem_compareEqual (a b : Register n) {i : ℕ} (hi : i < n) :
    (compareEqual a b)[i] = if a[i] = b[i] then 255 else 0 :=
  Vector.getElem_ofFn hi

def bitAnd (a b : Register n) : Register n := Vector.ofFn fun i => a[i] &&& b[i]

@[simp] theorem getElem_bitAnd (a b : Register n) {i : ℕ} (hi : i < n) :
    (bitAnd a b)[i] = a[i] &&& b[i] :=
  Vector.getElem_ofFn hi

/-- The top bit of every lane. -/
def moveMask (a : Register n) : BitVec n := gather (fun i => (a[i]?.getD 0).toBitVec.msb) n

/-- A comparison straight into a mask. -/
def compareMask (a b : Register n) : BitVec n := gather (fun i => a[i]? == b[i]?) n

theorem getLsbD_moveMask_compareEqual (a b : Register n) {i : ℕ} (hi : i < n) :
    (moveMask (compareEqual a b)).getLsbD i = (a[i] == b[i]) := by
  rw [moveMask, getLsbD_gather, decide_eq_true hi, Bool.true_and, Vector.getElem?_eq_getElem hi,
    Option.getD_some, getElem_compareEqual]
  by_cases hsame : a[i] = b[i]
  · rw [if_pos hsame, hsame, beq_self_eq_true]
    rfl
  · rw [if_neg hsame, beq_eq_false_iff_ne.mpr hsame]
    rfl

theorem getLsbD_compareMask (a b : Register n) {i : ℕ} (hi : i < n) :
    (compareMask a b).getLsbD i = (a[i] == b[i]) := by
  rw [compareMask, getLsbD_gather, decide_eq_true hi, Bool.true_and,
    Vector.getElem?_eq_getElem hi, Vector.getElem?_eq_getElem hi]
  rfl

/-- The lanes of the second register stand after those of the first, and neighbours are
added. -/
def pairwiseAdd (a b : Register n) : Register n :=
  Vector.ofFn fun i => (a ++ b)[2 * i.val] + (a ++ b)[2 * i.val + 1]

/-- What adding neighbours makes of a sequence. -/
def pairs (f : ℕ → UInt8) (i : ℕ) : UInt8 := f (2 * i) + f (2 * i + 1)

theorem Register.Shows.append {a b : Register n} {f : ℕ → UInt8} {start : ℕ}
    (ha : a.Shows f start) (hb : b.Shows f (start + n)) :
    Register.Shows (a ++ b) f start := by
  intro i hi
  by_cases hlt : i < n
  · rw [Vector.getElem_append_left hlt, ha i hlt]
  · rw [Vector.getElem_append_right hi (by omega), hb (i - n) (by omega), Nat.add_assoc,
      Nat.add_sub_cancel' (Nat.le_of_not_lt hlt)]

/-- Adding neighbours halves the stretch a register shows. -/
theorem Register.Shows.pairwiseAdd {a b : Register n} {f : ℕ → UInt8} {start : ℕ}
    (ha : a.Shows f (2 * start)) (hb : b.Shows f (2 * start + n)) :
    (Lanes.pairwiseAdd a b).Shows (pairs f) start := by
  intro i hi
  have happend := ha.append hb
  rw [Lanes.pairwiseAdd, Vector.getElem_ofFn, happend _ (by omega), happend _ (by omega), pairs,
    Nat.mul_add]
  rfl

/-- The lower lanes of a sum come from the first register alone. -/
theorem getElem_pairwiseAdd_lower (a b : Register n) {i : ℕ} (hi : 2 * i + 1 < n) :
    (Lanes.pairwiseAdd a b)[i] = a[2 * i] + a[2 * i + 1] := by
  rw [Lanes.pairwiseAdd, Vector.getElem_ofFn]
  exact congrArg₂ (· + ·) (Vector.getElem_append_left (show 2 * i < n by omega))
    (Vector.getElem_append_left hi)

/-- The register as 64-bit lanes, the one at `k`: its bytes lie lowest first. -/
def word (a : Register n) (k : ℕ) : BitVec 64 :=
  gather (fun i => (a[8 * k + i / 8]?.getD 0).toBitVec.getLsbD (i % 8)) 64

theorem getLsbD_word (a : Register n) (k : ℕ) {i : ℕ} (hi : i < 64)
    (hlane : 8 * k + i / 8 < n) :
    (word a k).getLsbD i = a[8 * k + i / 8].toBitVec.getLsbD (i % 8) := by
  rw [word, getLsbD_gather, decide_eq_true hi, Bool.true_and, Vector.getElem?_eq_getElem hlane,
    Option.getD_some]

/-- Byte `i` holds the flags of the lanes from `i * width` on, each at its place within its
group of eight. -/
def Folded (flags : ℕ → Bool) (width : ℕ) (f : ℕ → UInt8) : Prop :=
  ∀ i k, k < 8 → (f i).toBitVec.getLsbD k =
    (decide (i * width ≤ 8 * (i * width / 8) + k ∧ 8 * (i * width / 8) + k < (i + 1) * width) &&
      flags (8 * (i * width / 8) + k))

/-- Adding neighbours folds twice the lanes: no bit is set in both. -/
theorem Folded.pairs {flags : ℕ → Bool} {width : ℕ} {f : ℕ → UInt8}
    (hfolded : Folded flags width f) (hwidth : width = 1 ∨ width = 2 ∨ width = 4) :
    Folded flags (2 * width) (pairs f) := by
  intro i k hk
  have hlow := hfolded (2 * i)
  have hhigh := hfolded (2 * i + 1)
  have hgroup : (2 * i + 1) * width / 8 = 2 * i * width / 8 := by
    rcases hwidth with rfl | rfl | rfl <;> omega
  have hmiddle : (2 * i + 1) * width = 2 * i * width + width := Nat.succ_mul _ _
  have hlast : (2 * i + 1 + 1) * width = 2 * i * width + width + width := by
    rw [Nat.succ_mul, hmiddle]
  have hstart : i * (2 * width) = 2 * i * width := by
    rw [Nat.mul_left_comm, Nat.mul_assoc]
  have hwhole : (i + 1) * (2 * width) = 2 * i * width + width + width := by
    rw [Nat.succ_mul, hstart, Nat.two_mul width, Nat.add_assoc]
  rw [hgroup] at hhigh
  have hdisjoint : (f (2 * i)).toBitVec &&& (f (2 * i + 1)).toBitVec = 0#8 := by
    apply BitVec.eq_of_getLsbD_eq
    intro j hj
    rw [BitVec.getLsbD_and, hlow j hj, hhigh j hj, BitVec.getLsbD_zero]
    by_cases hbelow : 8 * (2 * i * width / 8) + j < (2 * i + 1) * width
    · rw [decide_eq_false (show ¬ ((2 * i + 1) * width ≤ 8 * (2 * i * width / 8) + j ∧ _) from
        fun h => absurd hbelow (Nat.not_lt.mpr h.1)), Bool.false_and, Bool.and_false]
    · rw [decide_eq_false (show ¬ (_ ∧ 8 * (2 * i * width / 8) + j < (2 * i + 1) * width) from
        fun h => hbelow h.2), Bool.false_and, Bool.false_and]
  rw [Lanes.pairs, UInt8.toBitVec_add, BitVec.add_eq_or_of_and_eq_zero _ _ hdisjoint,
    BitVec.getLsbD_or, hlow k hk, hhigh k hk, ← Bool.and_or_distrib_right,
    hstart]
  congr 1
  rw [← Bool.decide_or, decide_eq_decide, hmiddle, hlast, hwhole]
  omega

variable {w : ℕ}

/-- The exclusive or of the flags up to `i`. -/
def xorUpTo (f : ℕ → Bool) : ℕ → Bool
  | 0 => f 0
  | i + 1 => xorUpTo f i ^^ f (i + 1)

theorem xorUpTo_congr {f g : ℕ → Bool} {i : ℕ} (h : ∀ j ≤ i, f j = g j) :
    xorUpTo f i = xorUpTo g i := by
  induction i with
  | zero => exact h 0 le_rfl
  | succ i ih =>
      rw [xorUpTo, xorUpTo, ih fun j hj => h j (Nat.le_succ_of_le hj), h (i + 1) le_rfl]

/-- The carry-less product: bit `i` is the exclusive or of the products of bits at `j`
and `i - j`. -/
def carrylessMul (a b : BitVec w) : BitVec (2 * w) :=
  gather (fun i => xorUpTo (fun j => a.getLsbD j && b.getLsbD (i - j)) i) (2 * w)

/-- Multiplying by all ones sums the bits from the lowest on. -/
theorem getLsbD_carrylessMul_allOnes (a : BitVec w) {i : ℕ} (hi : i < w) :
    (carrylessMul a (BitVec.allOnes w)).getLsbD i = xorUpTo a.getLsbD i := by
  rw [carrylessMul, getLsbD_gather, decide_eq_true (show i < 2 * w by omega), Bool.true_and]
  apply xorUpTo_congr
  intro j hj
  rw [BitVec.getLsbD_allOnes, decide_eq_true (show i - j < w by omega), Bool.and_true]

/-- One position of the extraction: a selected bit goes to the next place of the result. -/
def extractStep (src mask : BitVec w) (state : BitVec w × ℕ) (i : ℕ) : BitVec w × ℕ :=
  if mask.getLsbD i then
    (state.1 ||| ((BitVec.ofBool (src.getLsbD i)).setWidth w <<< state.2), state.2 + 1)
  else state

/-- Parallel bit extract: the bits of `src` at the positions of `mask`, side by side. -/
def extract (src mask : BitVec w) : BitVec w :=
  ((List.range w).foldl (extractStep src mask) (0, 0)).1

/-- The bits extracted below a position. -/
def selected (src mask : BitVec w) (n : ℕ) : List Bool :=
  ((List.range n).filter mask.getLsbD).map src.getLsbD

theorem extract_fold (src mask : BitVec w) {n : ℕ} (hn : n ≤ w) :
    ((List.range n).foldl (extractStep src mask) (0, 0)).2 = (selected src mask n).length ∧
      ∀ i, ((List.range n).foldl (extractStep src mask) (0, 0)).1.getLsbD i =
        (selected src mask n)[i]?.getD false := by
  induction n with
  | zero => exact ⟨rfl, fun i => BitVec.getLsbD_zero⟩
  | succ n ih =>
      obtain ⟨hplace, hbits⟩ := ih (Nat.le_of_succ_le hn)
      have hshort : (selected src mask n).length ≤ n := by
        rw [selected, List.length_map]
        exact (List.length_filter_le _ _).trans (List.length_range).le
      rw [List.range_succ, List.foldl_append, List.foldl_cons, List.foldl_nil, extractStep,
        selected, List.range_succ, List.filter_append, List.map_append, ← selected]
      cases hmask : mask.getLsbD n with
      | false =>
          rw [List.filter_cons_of_neg (by rw [hmask]; exact Bool.false_ne_true), List.filter_nil,
            List.map_nil, List.append_nil]
          exact ⟨hplace, hbits⟩
      | true =>
          rw [List.filter_cons_of_pos hmask, List.filter_nil, List.map_cons, List.map_nil,
            List.length_append, List.length_singleton]
          refine ⟨congrArg (· + 1) hplace, fun i => ?_⟩
          rw [if_pos rfl, BitVec.getLsbD_or, hbits, hplace, BitVec.getLsbD_shiftLeft,
            BitVec.getLsbD_setWidth, BitVec.getLsbD_ofBool]
          rcases Nat.lt_trichotomy i (selected src mask n).length with hlt | heq | hgt
          · rw [List.getElem?_append_left hlt, decide_eq_true hlt]
            simp
          · rw [heq, List.getElem?_eq_none le_rfl,
              List.getElem?_append_right le_rfl, Nat.sub_self]
            simp [show (selected src mask n).length < w by omega, show 0 < w by omega]
          · rw [List.getElem?_eq_none hgt.le, List.getElem?_append_right hgt.le,
              List.getElem?_eq_none (show [src.getLsbD n].length ≤ _ by
                rw [List.length_singleton]; omega)]
            simp [show i - (selected src mask n).length ≠ 0 by omega]

/-- The extracted bits, lowest first. -/
theorem getLsbD_extract (src mask : BitVec w) (i : ℕ) :
    (extract src mask).getLsbD i = ((Bits.ones mask).map src.getLsbD)[i]?.getD false :=
  (extract_fold src mask le_rfl).2 i

end Lanes
