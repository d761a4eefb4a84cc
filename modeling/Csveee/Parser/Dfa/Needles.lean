import Mathlib.Data.List.Nodup
import Mathlib.Data.Nat.Basic
import Mathlib.Tactic.IntervalCases
import Mathlib.Data.List.Perm.Subperm
import Csveee.Core.Config
import Csveee.Lib.Slice

/-!
# Structural needles

The word-at-a-time scan the content states use to skip to the next structural
byte.  Eight bytes are compared per step by the subtract-borrow zero test, on
either byte order.
-/

namespace Csveee

inductive Endian
  | little
  | big
  deriving DecidableEq, Repr

abbrev Word := BitVec 64

/-- The number with the given base-256 digits, least significant first. -/
def digits256 : Bytes → ℕ
  | [] => 0
  | b :: rest => b.toNat + 256 * digits256 rest

def fromNeBytes (endian : Endian) (bytes : Bytes) : Word :=
  match endian with
  | .little => BitVec.ofNat 64 (digits256 bytes)
  | .big => BitVec.ofNat 64 (digits256 bytes.reverse)

def broadcast (endian : Endian) (b : Byte) : Word :=
  fromNeBytes endian (List.replicate 8 b)

def swarLo (endian : Endian) : Word := broadcast endian 0x01

def swarHi (endian : Endian) : Word := broadcast endian 0x80

/-- Up to four structural bytes; only the first `count` are meaningful. -/
structure StructuralNeedles where
  bytes : List Byte
  lanes : List Word
  count : ℕ
  deriving DecidableEq, Repr

namespace StructuralNeedles

/-- The bytes of a mask, in ascending order. -/
def bytesOf (mask : Byte → Bool) : List Byte :=
  ((List.range 256).map UInt8.ofNat).filter mask

def fromMask (endian : Endian) (mask : Byte → Bool) : StructuralNeedles :=
  let found := (bytesOf mask).take 4
  let bytes := found ++ List.replicate (4 - found.length) 0
  { bytes := bytes
    lanes := found.map (broadcast endian) ++
      List.replicate (4 - found.length) (broadcast endian (bytes.headD 0))
    count := found.length }

/-- The high bit of every lane the zero test tags. -/
def zeroLanes (endian : Endian) (x : Word) : Word :=
  (x - swarLo endian) &&& ~~~x &&& swarHi endian

/-- Offset of the first tagged lane over the first `n` needles. -/
def matchLanes (needles : StructuralNeedles) (endian : Endian) (n : ℕ)
    (word : Word) : Option ℕ :=
  let hits := (needles.lanes.take n).foldl
    (fun hits lane => hits ||| zeroLanes endian (word ^^^ lane)) 0
  if hits = 0 then none
  else match endian with
    | .little => some (hits.ctz.toNat / 8)
    | .big => some (hits.clz.toNat / 8)

/-- The eight bytes of `hay` from `pos` on. -/
def wordAt (endian : Endian) (hay : Bytes) (pos : ℕ) : Word :=
  fromNeBytes endian ((hay.drop pos).take 8)

/-- The loop of `find_n` and the tail after it.  The fuel is an upper bound on
the iterations. -/
def findFrom (needles : StructuralNeedles) (endian : Endian) (n : ℕ)
    (hay : Bytes) : ℕ → ℕ → Option ℕ
  | 0, _ => none
  | fuel + 1, pos =>
      if pos + 8 ≤ hay.length then
        match needles.matchLanes endian n (wordAt endian hay pos) with
        | some off => some (pos + off)
        | none => findFrom needles endian n hay fuel (pos + 8)
      else if pos < hay.length then
        if 8 ≤ hay.length then
          -- the last word overlaps bytes already scanned
          (needles.matchLanes endian n (wordAt endian hay (hay.length - 8))).map
            fun off => hay.length - 8 + off
        else hay.findIdx? fun b => (needles.bytes.take n).contains b
      else none

def find (needles : StructuralNeedles) (endian : Endian) (hay : Bytes) :
    Option ℕ :=
  if 1 ≤ needles.count ∧ needles.count ≤ 4 then
    needles.findFrom endian needles.count hay (hay.length + 1) 0
  else none

/-! ## The zero test

A lane that matches is always tagged.  A lane the borrow tags by mistake lies
above one that matches, so it can only make a big-endian scan stop early.
-/

theorem testBit_digits256 (bytes : Bytes) (j i : ℕ) (hi : i < 8) :
    (digits256 bytes).testBit (8 * j + i) = ((bytes[j]?).map UInt8.toNat |>.getD 0).testBit i := by
  induction bytes generalizing j with
  | nil => simp [digits256]
  | cons b rest ih =>
      have hb : b.toNat < 2 ^ 8 := b.toNat_lt
      rw [digits256, Nat.add_comm, show (256 : ℕ) = 2 ^ 8 from rfl]
      cases j with
      | zero =>
          rw [Nat.testBit_two_pow_mul_add _ hb]
          simp [hi]
      | succ j =>
          rw [Nat.testBit_two_pow_mul_add _ hb, if_neg (by omega),
            show 8 * (j + 1) + i - 8 = 8 * j + i by omega, ih]
          rfl

/-- Which byte of a word a lane holds. -/
def laneByte (endian : Endian) (j : ℕ) : ℕ :=
  match endian with
  | .little => j
  | .big => 7 - j

theorem getLsbD_fromNeBytes (endian : Endian) (bytes : Bytes) (hlen : bytes.length = 8)
    (j i : ℕ) (hj : j < 8) (hi : i < 8) {b : Byte}
    (hb : bytes[laneByte endian j]? = some b) :
    (fromNeBytes endian bytes).getLsbD (8 * j + i) = b.toNat.testBit i := by
  cases endian with
  | little =>
      simp only [laneByte] at hb
      simp only [fromNeBytes, BitVec.getLsbD_ofNat]
      rw [testBit_digits256 bytes j i hi, hb]
      simp [show 8 * j + i < 64 by omega]
  | big =>
      simp only [laneByte] at hb
      have hreverse : bytes.reverse[j]? = some b := by
        rw [List.getElem?_reverse (by omega), hlen, ← hb]
      simp only [fromNeBytes, BitVec.getLsbD_ofNat]
      rw [testBit_digits256 bytes.reverse j i hi, hreverse]
      simp [show 8 * j + i < 64 by omega]

theorem swarLo_eq (endian : Endian) : swarLo endian = 0x0101010101010101#64 := by
  cases endian <;> rfl

theorem swarHi_eq (endian : Endian) : swarHi endian = 0x8080808080808080#64 := by
  cases endian <;> rfl

theorem getLsbD_zeroLanes (endian : Endian) (x : Word) (j : ℕ) (hj : j < 8)
    (hzero : ∀ i < 8, x.getLsbD (8 * j + i) = false) :
    (zeroLanes endian x).getLsbD (8 * j + 7) = true := by
  have hlane : x.toNat / 2 ^ (8 * j) % 2 ^ 8 = 0 := by
    apply Nat.eq_of_testBit_eq
    intro i
    rw [Nat.testBit_mod_two_pow, Nat.testBit_div_two_pow, Nat.zero_testBit]
    by_cases hi : i < 8
    · have hbit := hzero i hi
      rw [BitVec.getLsbD, Nat.add_comm] at hbit
      rw [hbit, Bool.and_false]
    · simp [hi]
  have hsub : (x - 0x0101010101010101#64).getLsbD (8 * j + 7) = true := by
    have hx := x.isLt
    rw [BitVec.getLsbD, BitVec.toNat_sub, Nat.testBit_eq_decide_div_mod_eq,
      decide_eq_true_eq]
    interval_cases j <;> simp only [BitVec.reduceToNat] <;> omega
  have hnot : (~~~x).getLsbD (8 * j + 7) = true := by
    rw [BitVec.getLsbD_not, hzero 7 (by omega)]
    simp [show 8 * j + 7 < 64 by omega]
  have hhi : (0x8080808080808080#64).getLsbD (8 * j + 7) = true := by
    interval_cases j <;> rfl
  rw [zeroLanes, swarLo_eq, swarHi_eq, BitVec.getLsbD_and, BitVec.getLsbD_and, hsub, hnot,
    hhi]
  rfl

theorem getLsbD_false_of_clz {x : Word} {k : ℕ} (hk : 64 ≤ k + x.clz.toNat) :
    x.getLsbD k = false := by
  rw [BitVec.getLsbD]
  apply Nat.testBit_lt_two_pow
  exact lt_of_lt_of_le BitVec.toNat_lt_two_pow_sub_clz
    (Nat.pow_le_pow_right (by omega) (by omega))

/-- A tagged bit tops its lane. -/
theorem lane_of_tagged (endian : Endian) (x : Word) (k : ℕ)
    (h : (zeroLanes endian x).getLsbD k = true) : ∃ j < 8, k = 8 * j + 7 := by
  rw [zeroLanes, swarHi_eq, BitVec.getLsbD_and, Bool.and_eq_true] at h
  have hk : k < 64 := BitVec.lt_of_getLsbD h.2
  have hhi := h.2
  clear h
  refine ⟨k / 8, by omega, ?_⟩
  have hmod : k % 8 = 7 := by
    revert hhi
    revert k
    decide
  omega

/-- Below lanes that are all set, the subtraction has nothing to borrow. -/
theorem no_borrow (x j : ℕ) (hj : j ≤ 8) (h : ∀ m < j, x / 2 ^ (8 * m) % 2 ^ 8 ≠ 0) :
    0x0101010101010101 % 2 ^ (8 * j) ≤ x % 2 ^ (8 * j) := by
  induction j with
  | zero => simp
  | succ j ih =>
      have hj' : j < 8 := hj
      have hbelow := ih hj'.le fun m hm => h m (by omega)
      have hlane : 0x0101010101010101 / 2 ^ (8 * j) % 2 ^ 8 = 1 := by
        interval_cases j <;> rfl
      have htop := h j (by omega)
      rw [Nat.mul_succ, pow_add, Nat.mod_mul, Nat.mod_mul, hlane]
      apply Nat.add_le_add hbelow
      exact Nat.mul_le_mul_left _ (Nat.pos_of_ne_zero htop)

/-- A lane the borrow tags by mistake lies above a lane that is zero. -/
theorem zero_below_tagged (endian : Endian) (x : Word) (j : ℕ) (hj : j < 8)
    (h : (zeroLanes endian x).getLsbD (8 * j + 7) = true) :
    ∃ m ≤ j, ∀ i < 8, x.getLsbD (8 * m + i) = false := by
  by_contra hnone
  have hlane : ∀ m ≤ j, x.toNat / 2 ^ (8 * m) % 2 ^ 8 ≠ 0 := by
    intro m hm hzero
    apply hnone
    refine ⟨m, hm, fun i hi => ?_⟩
    have hbit := congrArg (Nat.testBit · i) hzero
    simp only [Nat.testBit_mod_two_pow, Nat.testBit_div_two_pow, Nat.zero_testBit, hi,
      decide_true, Bool.true_and] at hbit
    rw [BitVec.getLsbD, Nat.add_comm]
    exact hbit
  have hbelow := no_borrow x.toNat j hj.le fun m hm => hlane m hm.le
  have htop := hlane j le_rfl
  clear hnone hlane
  rw [zeroLanes, swarLo_eq, swarHi_eq, BitVec.getLsbD_and, BitVec.getLsbD_and,
    Bool.and_eq_true, Bool.and_eq_true, BitVec.getLsbD_not, Bool.and_eq_true] at h
  obtain ⟨⟨hsub, -, hclear⟩, -⟩ := h
  have hx := x.isLt
  rw [BitVec.getLsbD, BitVec.toNat_sub, Nat.testBit_eq_decide_div_mod_eq,
    decide_eq_true_eq] at hsub
  rw [Bool.not_eq_true', BitVec.getLsbD, Nat.testBit_eq_decide_div_mod_eq,
    decide_eq_false_iff_not] at hclear
  interval_cases j <;> simp only [BitVec.reduceToNat] at hsub <;> omega

theorem byte_eq_of_xor (endian : Endian) (bytes : Bytes) (hlen : bytes.length = 8) (b : Byte)
    (j : ℕ) (hj : j < 8) (hk : laneByte endian j < bytes.length)
    (h : ∀ i < 8, (fromNeBytes endian bytes ^^^ broadcast endian b).getLsbD (8 * j + i) =
      false) : bytes[laneByte endian j] = b := by
  apply UInt8.toNat.inj
  apply Nat.eq_of_testBit_eq
  intro i
  by_cases hi : i < 8
  · have hbit := h i hi
    have hcopy : (List.replicate 8 b)[laneByte endian j]? = some b := by
      rw [List.getElem?_replicate, if_pos (by omega)]
    rw [BitVec.getLsbD_xor,
      getLsbD_fromNeBytes endian bytes hlen j i hj hi (List.getElem?_eq_getElem hk),
      broadcast, getLsbD_fromNeBytes endian _ List.length_replicate j i hj hi hcopy,
      bne_eq_false_iff_eq] at hbit
    exact hbit
  · have hpow : 2 ^ 8 ≤ 2 ^ i := Nat.pow_le_pow_right (by omega) (by omega)
    rw [Nat.testBit_lt_two_pow (lt_of_lt_of_le (UInt8.toNat_lt _) hpow),
      Nat.testBit_lt_two_pow (lt_of_lt_of_le (UInt8.toNat_lt _) hpow)]

theorem getLsbD_foldl_or (word : Word) (endian : Endian) (lanes : List Word)
    (hits : Word) (k : ℕ) :
    (lanes.foldl (fun hits lane => hits ||| zeroLanes endian (word ^^^ lane)) hits).getLsbD k =
      (hits.getLsbD k || lanes.any fun lane => (zeroLanes endian (word ^^^ lane)).getLsbD k) := by
  induction lanes generalizing hits with
  | nil => simp
  | cons lane lanes ih =>
      rw [List.foldl_cons, ih, BitVec.getLsbD_or, List.any_cons, Bool.or_assoc]

/-- The bytes searched for. -/
def chars (needles : StructuralNeedles) : List Byte := needles.bytes.take needles.count

/-- Every lane broadcasts its byte. -/
def WellFormed (needles : StructuralNeedles) (endian : Endian) : Prop :=
  needles.count ≤ 4 ∧
    needles.lanes.take needles.count = needles.chars.map (broadcast endian)

section Search

variable {needles : StructuralNeedles} {endian : Endian}

/-- No byte of the haystack is searched for. -/
def Clean (needles : StructuralNeedles) (hay : Bytes) : Prop :=
  ∀ b ∈ hay, b ∉ needles.chars

theorem Clean.append {left right : Bytes} (hleft : needles.Clean left)
    (hright : needles.Clean right) : needles.Clean (left ++ right) := by
  intro b hb
  rcases List.mem_append.mp hb with hb | hb
  · exact hleft b hb
  · exact hright b hb

theorem Clean.take {hay : Bytes} {n m : ℕ} (h : needles.Clean (hay.take n)) (hm : m ≤ n) :
    needles.Clean (hay.take m) := by
  intro b hb
  apply h b
  rw [← min_eq_left hm, ← List.take_take] at hb
  exact List.mem_of_mem_take hb

theorem tagged_of_mem (hwf : needles.WellFormed endian) (bytes : Bytes)
    (hlen : bytes.length = 8) (j : ℕ) (hj : j < 8) {b : Byte}
    (hb : bytes[laneByte endian j]? = some b) (hmem : b ∈ needles.chars) :
    ((needles.lanes.take needles.count).foldl
      (fun hits lane => hits ||| zeroLanes endian (fromNeBytes endian bytes ^^^ lane))
        0).getLsbD (8 * j + 7) = true := by
  rw [getLsbD_foldl_or, hwf.2, List.any_map, Bool.or_eq_true, List.any_eq_true]
  refine Or.inr ⟨_, hmem, ?_⟩
  apply getLsbD_zeroLanes endian _ j hj
  intro i hi
  have hlane : laneByte endian j < 8 := by
    cases endian <;> simp only [laneByte] <;> omega
  have hcopy : (List.replicate 8 b)[laneByte endian j]? = some b := by
    rw [List.getElem?_replicate, if_pos hlane]
  rw [BitVec.getLsbD_xor, getLsbD_fromNeBytes endian bytes hlen j i hj hi hb, broadcast,
    getLsbD_fromNeBytes endian _ List.length_replicate j i hj hi hcopy, Bool.xor_self]

/-- What a word's match comes to: the bytes before it are not searched for. -/
theorem matchLanes_spec (hwf : needles.WellFormed endian) (bytes : Bytes)
    (hlen : bytes.length = 8) :
    (needles.matchLanes endian needles.count (fromNeBytes endian bytes)).getD 8 ≤ 8 ∧
      needles.Clean (bytes.take
        ((needles.matchLanes endian needles.count (fromNeBytes endian bytes)).getD 8)) := by
  have htag : ∀ j (_ : j < 8) k (_ : laneByte endian j = k) (hk : k < bytes.length),
      bytes[k] ∈ needles.chars → _ := fun j hj k hlane hk hmem =>
    tagged_of_mem hwf bytes hlen j hj (hlane ▸ List.getElem?_eq_getElem hk) hmem
  simp only [matchLanes]
  generalize (needles.lanes.take needles.count).foldl
    (fun hits lane => hits ||| zeroLanes endian (fromNeBytes endian bytes ^^^ lane)) 0 =
      hits at htag ⊢
  by_cases hzero : hits = 0
  · rw [if_pos hzero]
    refine ⟨le_rfl, fun b hb hmem => ?_⟩
    obtain ⟨k, hk, rfl⟩ := List.getElem_of_mem (List.mem_of_mem_take hb)
    cases endian with
    | little =>
        have hbit := htag k (by omega) k rfl (by omega) hmem
        rw [hzero] at hbit
        simp at hbit
    | big =>
        have hbit := htag (7 - k) (by omega) k (by simp only [laneByte]; omega) (by omega) hmem
        rw [hzero] at hbit
        simp at hbit
  · rw [if_neg hzero]
    cases endian with
    | little =>
        have hlt : hits.ctz.toNat < 64 := BitVec.ctz_lt_iff_ne_zero.mpr hzero
        refine ⟨by simp only [Option.getD_some]; omega, fun b hb hmem => ?_⟩
        obtain ⟨k, hk, rfl⟩ := List.getElem_of_mem hb
        rw [List.getElem_take] at hmem
        simp only [Option.getD_some, List.length_take] at hk
        have hbit := htag k (by omega) k rfl (by omega) hmem
        rw [BitVec.getLsbD_false_of_lt_ctz (by omega)] at hbit
        cases hbit
    | big =>
        have hlt : hits.clz.toNat < 64 := BitVec.clz_lt_iff_ne_zero.mpr hzero
        refine ⟨by simp only [Option.getD_some]; omega, fun b hb hmem => ?_⟩
        obtain ⟨k, hk, rfl⟩ := List.getElem_of_mem hb
        rw [List.getElem_take] at hmem
        simp only [Option.getD_some, List.length_take] at hk
        have hbit := htag (7 - k) (by omega) k (by simp only [laneByte]; omega) (by omega) hmem
        rw [getLsbD_false_of_clz (by omega)] at hbit
        cases hbit

/-- The word at `pos` is searched: the bytes from `pos` up to the match, or all
eight, are not searched for. -/
theorem matchLanes_wordAt (hwf : needles.WellFormed endian) (hay : Bytes) (pos : ℕ)
    (hpos : pos + 8 ≤ hay.length) :
    (needles.matchLanes endian needles.count (wordAt endian hay pos)).getD 8 ≤ 8 ∧
      needles.Clean (Slice.slice hay pos
        ((needles.matchLanes endian needles.count (wordAt endian hay pos)).getD 8)) := by
  have hlen : (Slice.slice hay pos 8).length = 8 := Slice.length_slice_of_le _ _ _ hpos
  have hspec := matchLanes_spec hwf _ hlen
  have htake : ∀ k ≤ 8, (Slice.slice hay pos 8).take k = Slice.slice hay pos k := by
    intro k hk
    rw [Slice.slice, Slice.slice, List.take_take, min_eq_left hk]
  have hword : wordAt endian hay pos = fromNeBytes endian (Slice.slice hay pos 8) := rfl
  rw [hword]
  exact ⟨hspec.1, htake _ hspec.1 ▸ hspec.2⟩

/-- The search never runs past a byte it is for. -/
theorem findFrom_spec (hwf : needles.WellFormed endian) (hay : Bytes) (fuel pos : ℕ)
    (hpos : pos ≤ hay.length) (hfuel : hay.length < pos + fuel)
    (hclean : needles.Clean (hay.take pos)) :
    (needles.findFrom endian needles.count hay fuel pos).getD hay.length ≤ hay.length ∧
      needles.Clean (hay.take
        ((needles.findFrom endian needles.count hay fuel pos).getD hay.length)) := by
  induction fuel generalizing pos with
  | zero => omega
  | succ fuel ih =>
      simp only [findFrom]
      by_cases hword : pos + 8 ≤ hay.length
      · rw [if_pos hword]
        obtain ⟨hoff, hrest⟩ := matchLanes_wordAt hwf hay pos hword
        cases hmatch : needles.matchLanes endian needles.count (wordAt endian hay pos) with
        | none =>
            rw [hmatch, Option.getD_none] at hrest
            refine ih (pos + 8) hword (by omega) ?_
            rw [List.take_add]
            exact hclean.append hrest
        | some off =>
            rw [hmatch, Option.getD_some] at hoff hrest
            refine ⟨by rw [Option.getD_some]; omega, ?_⟩
            rw [Option.getD_some, List.take_add]
            exact hclean.append hrest
      · rw [if_neg hword]
        by_cases hrem : pos < hay.length
        · rw [if_pos hrem]
          by_cases hlong : 8 ≤ hay.length
          · rw [if_pos hlong]
            obtain ⟨hoff, hrest⟩ :=
              matchLanes_wordAt hwf hay (hay.length - 8) (by omega)
            have hbefore : needles.Clean (hay.take (hay.length - 8)) :=
              hclean.take (by omega)
            cases hmatch : needles.matchLanes endian needles.count
                (wordAt endian hay (hay.length - 8)) with
            | none =>
                rw [hmatch, Option.getD_none] at hrest
                refine ⟨le_rfl, ?_⟩
                have hall := hbefore.append hrest
                rw [Slice.slice, ← List.take_add, Nat.sub_add_cancel hlong] at hall
                exact hall
            | some off =>
                rw [hmatch, Option.getD_some] at hoff hrest
                refine ⟨by simp only [Option.map_some, Option.getD_some]; omega, ?_⟩
                rw [Option.map_some, Option.getD_some, List.take_add]
                exact hbefore.append hrest
          · rw [if_neg hlong]
            cases hidx : hay.findIdx? fun b => (needles.bytes.take needles.count).contains b with
            | none =>
                refine ⟨le_rfl, fun b hb hmem => ?_⟩
                have hnot := List.findIdx?_eq_none_iff.mp hidx b (List.mem_of_mem_take hb)
                have hcontains := List.contains_iff_mem.mpr hmem
                rw [chars, hnot] at hcontains
                cases hcontains
            | some i =>
                obtain ⟨hi, -, hbefore⟩ := List.findIdx?_eq_some_iff_getElem.mp hidx
                refine ⟨hi.le, fun b hb hmem => ?_⟩
                obtain ⟨k, hk, rfl⟩ := List.getElem_of_mem hb
                rw [Option.getD_some, List.length_take] at hk
                rw [List.getElem_take] at hmem
                exact hbefore k (by omega) (List.contains_iff_mem.mpr hmem)
        · rw [if_neg hrem]
          have hend : pos = hay.length := by omega
          exact ⟨le_rfl, hend ▸ hclean⟩

theorem find_spec (hwf : needles.WellFormed endian) (hay : Bytes) :
    (needles.find endian hay).getD hay.length ≤ hay.length ∧
      needles.Clean (hay.take ((needles.find endian hay).getD hay.length)) := by
  rw [find]
  by_cases hcount : 1 ≤ needles.count ∧ needles.count ≤ 4
  · rw [if_pos hcount]
    apply findFrom_spec hwf hay _ 0 (Nat.zero_le _) (by omega)
    intro b hb
    simp at hb
  · rw [if_neg hcount]
    have hzero : needles.count = 0 := by
      have := hwf.1
      omega
    refine ⟨le_rfl, fun b _ hmem => ?_⟩
    rw [chars, hzero, List.take_zero] at hmem
    cases hmem

/-- Of the lanes tagged, the lowest holds a byte searched for. -/
theorem needle_below_tagged (hwf : needles.WellFormed endian) (bytes : Bytes)
    (hlen : bytes.length = 8) (k : ℕ)
    (h : ((needles.lanes.take needles.count).foldl
      (fun hits lane => hits ||| zeroLanes endian (fromNeBytes endian bytes ^^^ lane))
        0).getLsbD k = true) :
    ∃ m < 8, 8 * m + 7 ≤ k ∧ ∃ hm : laneByte endian m < bytes.length,
      bytes[laneByte endian m] ∈ needles.chars := by
  rw [getLsbD_foldl_or, hwf.2, List.any_map, Bool.or_eq_true, List.any_eq_true] at h
  rcases h with h | ⟨b, hb, htag⟩
  · simp at h
  · obtain ⟨j, hj, rfl⟩ := lane_of_tagged endian _ k htag
    obtain ⟨m, hm, hzero⟩ := zero_below_tagged endian _ j hj htag
    have hlane : laneByte endian m < bytes.length := by
      cases endian <;> simp only [laneByte] <;> omega
    refine ⟨m, by omega, by omega, hlane, ?_⟩
    rw [byte_eq_of_xor endian bytes hlen b m (by omega) hlane hzero]
    exact hb

/-- A match is never made up: some byte of the word is searched for, and on
little-endian lanes it is the one reported. -/
theorem needle_of_matchLanes (hwf : needles.WellFormed endian) (bytes : Bytes)
    (hlen : bytes.length = 8) {off : ℕ}
    (hmatch : needles.matchLanes endian needles.count (fromNeBytes endian bytes) = some off) :
    (∃ b ∈ bytes, b ∈ needles.chars) ∧
      (endian = .little → ∃ b ∈ bytes[off]?, b ∈ needles.chars) := by
  have htag : ∀ k, _ → _ := fun k => tagged_of_mem hwf bytes hlen k
  have hneedle : ∀ k, _ → _ := fun k => needle_below_tagged hwf bytes hlen k
  simp only [matchLanes] at hmatch
  generalize (needles.lanes.take needles.count).foldl
    (fun hits lane => hits ||| zeroLanes endian (fromNeBytes endian bytes ^^^ lane)) 0 =
      hits at htag hneedle hmatch
  by_cases hzero : hits = 0
  · rw [if_pos hzero] at hmatch
    cases hmatch
  · rw [if_neg hzero] at hmatch
    have hlt : hits.ctz.toNat < 64 := BitVec.ctz_lt_iff_ne_zero.mpr hzero
    have hlow : hits.getLsbD hits.ctz.toNat = true := BitVec.getLsbD_true_ctz_of_ne_zero hzero
    obtain ⟨m, hm, hle, hlane, hmem⟩ := hneedle _ hlow
    refine ⟨⟨_, List.getElem_mem hlane, hmem⟩, ?_⟩
    rintro rfl
    simp only [laneByte] at hlane hmem hmatch
    have hat := htag m hm (List.getElem?_eq_getElem hlane) hmem
    have hmin : hits.ctz.toNat ≤ 8 * m + 7 := by
      by_contra hgt
      rw [BitVec.getLsbD_false_of_lt_ctz (by omega)] at hat
      cases hat
    have hoff : off = m := by
      have := Option.some.inj hmatch
      omega
    subst hoff
    exact ⟨_, List.getElem?_eq_getElem hlane, hmem⟩

/-- A search's answer is never made up. -/
theorem findFrom_exact (hwf : needles.WellFormed endian) (hay : Bytes) (fuel pos : ℕ) {i : ℕ}
    (hfind : needles.findFrom endian needles.count hay fuel pos = some i) :
    (∃ b ∈ hay, b ∈ needles.chars) ∧
      (endian = .little → ∃ b ∈ hay[i]?, b ∈ needles.chars) := by
  -- a match in the word at `at` is a match in the haystack
  have hword : ∀ start, start + 8 ≤ hay.length → ∀ off,
      needles.matchLanes endian needles.count (wordAt endian hay start) = some off →
      (∃ b ∈ hay, b ∈ needles.chars) ∧
        (endian = .little → ∃ b ∈ hay[start + off]?, b ∈ needles.chars) := by
    intro start hstart off hmatch
    have hlen : (Slice.slice hay start 8).length = 8 := Slice.length_slice_of_le _ _ _ hstart
    obtain ⟨⟨b, hb, hmem⟩, hlittle⟩ := needle_of_matchLanes hwf _ hlen hmatch
    refine ⟨⟨b, List.mem_of_mem_drop (List.mem_of_mem_take hb), hmem⟩, fun hend => ?_⟩
    obtain ⟨c, hc, hcmem⟩ := hlittle hend
    refine ⟨c, ?_, hcmem⟩
    have hoff : off < 8 := by
      rw [← hlen]
      exact (List.getElem?_eq_some_iff.mp hc).1
    rw [Slice.slice, List.getElem?_take, if_pos hoff, List.getElem?_drop] at hc
    exact hc
  induction fuel generalizing pos with
  | zero => cases hfind
  | succ fuel ih =>
      simp only [findFrom] at hfind
      split at hfind
      · next hroom =>
          split at hfind
          · next off hmatch =>
              rw [← Option.some.inj hfind]
              exact hword pos hroom off hmatch
          · exact ih (pos + 8) hfind
      · split at hfind
        · split at hfind
          · next hlong =>
              obtain ⟨off, hmatch, hi⟩ := Option.map_eq_some_iff.mp hfind
              rw [← hi]
              exact hword (hay.length - 8) (by omega) off hmatch
          · obtain ⟨hi, hcontains, -⟩ := List.findIdx?_eq_some_iff_getElem.mp hfind
            have hmem := List.contains_iff_mem.mp hcontains
            exact ⟨⟨_, List.getElem_mem hi, hmem⟩,
              fun _ => ⟨_, List.getElem?_eq_getElem hi, hmem⟩⟩
        · cases hfind

theorem find_eq_findFrom (hwf : needles.WellFormed endian) (hone : 1 ≤ needles.count)
    (hay : Bytes) : needles.find endian hay =
      needles.findFrom endian needles.count hay (hay.length + 1) 0 := by
  rw [find, if_pos ⟨hone, hwf.1⟩]

theorem find_eq_none_iff (hwf : needles.WellFormed endian) (hone : 1 ≤ needles.count)
    (hay : Bytes) : needles.find endian hay = none ↔ needles.Clean hay := by
  constructor
  · intro hnone
    have hspec := (find_spec hwf hay).2
    rw [hnone, Option.getD_none, List.take_length] at hspec
    exact hspec
  · intro hclean
    cases hfind : needles.find endian hay with
    | none => rfl
    | some i =>
        rw [find_eq_findFrom hwf hone] at hfind
        obtain ⟨⟨b, hb, hmem⟩, -⟩ := findFrom_exact hwf hay _ 0 hfind
        exact absurd hmem (hclean b hb)

end Search

theorem mem_bytesOf (mask : Byte → Bool) (b : Byte) : b ∈ bytesOf mask ↔ mask b = true := by
  rw [bytesOf, List.mem_filter, List.mem_map]
  refine ⟨fun h => h.2, fun h => ⟨⟨b.toNat, List.mem_range.mpr b.toNat_lt, ?_⟩, h⟩⟩
  exact UInt8.ofNat_toNat

theorem nodup_bytesOf (mask : Byte → Bool) : (bytesOf mask).Nodup := by
  apply List.Nodup.filter
  apply List.Nodup.map_on _ List.nodup_range
  intro i hi j hj heq
  rw [List.mem_range] at hi hj
  have hnat := congrArg UInt8.toNat heq
  rw [UInt8.toNat_ofNat', UInt8.toNat_ofNat'] at hnat
  omega

theorem length_bytesOf_le (mask : Byte → Bool) (candidates : List Byte)
    (h : ∀ b, mask b = true → b ∈ candidates) :
    (bytesOf mask).length ≤ candidates.length := by
  apply List.Subperm.length_le
  apply (nodup_bytesOf mask).subperm
  intro b hb
  exact h b ((mem_bytesOf mask b).mp hb)

variable {endian : Endian} {mask : Byte → Bool}

theorem fromMask_wellFormed : (fromMask endian mask).WellFormed endian := by
  have hcount : (fromMask endian mask).count = ((bytesOf mask).take 4).length := rfl
  refine ⟨by rw [hcount, List.length_take]; omega, ?_⟩
  rw [chars, hcount]
  simp only [fromMask]
  rw [List.take_append_of_le_length (by simp), List.take_append_of_le_length le_rfl,
    List.take_of_length_le le_rfl, List.take_of_length_le (by simp)]

/-- The bytes searched for are the mask's, as long as there are no more than a
needle set can hold. -/
theorem mem_chars_fromMask (hfour : (bytesOf mask).length ≤ 4) (b : Byte) :
    b ∈ (fromMask endian mask).chars ↔ mask b = true := by
  have hcount : (fromMask endian mask).count = ((bytesOf mask).take 4).length := rfl
  rw [chars, hcount]
  simp only [fromMask]
  rw [List.take_append_of_le_length le_rfl, List.take_of_length_le le_rfl,
    List.take_of_length_le hfour, mem_bytesOf]

theorem count_fromMask {endian : Endian} {mask : Byte → Bool}
    (hfour : (bytesOf mask).length ≤ 4) :
    (fromMask endian mask).count = (bytesOf mask).length := by
  have hcount : (fromMask endian mask).count = ((bytesOf mask).take 4).length := rfl
  rw [hcount, List.take_of_length_le hfour]

/-- The scan misses nothing: on little-endian lanes it finds the first byte of
the mask, and on big-endian lanes it stops no later, on either only where there
is one. -/
theorem find_fromMask (mask : Byte → Bool) (hone : 1 ≤ (bytesOf mask).length)
    (hfour : (bytesOf mask).length ≤ 4) (hay : Bytes) :
    (fromMask .little mask).find .little hay = hay.findIdx? mask ∧
      ((fromMask .big mask).find .big hay = none ↔ hay.findIdx? mask = none) ∧
      ∀ i, (fromMask .big mask).find .big hay = some i →
        ∃ first, hay.findIdx? mask = some first ∧ i ≤ first := by
  have hcount : ∀ endian, 1 ≤ (fromMask endian mask).count := fun endian => by
    rw [count_fromMask hfour]
    exact hone
  have hnone : ∀ endian, (fromMask endian mask).find endian hay = none ↔
      hay.findIdx? mask = none := fun endian => by
    rw [find_eq_none_iff fromMask_wellFormed (hcount endian), List.findIdx?_eq_none_iff]
    simp only [Clean, mem_chars_fromMask hfour, Bool.not_eq_true]
  -- no byte of the mask stands before the answer
  have hbefore : ∀ endian i, (fromMask endian mask).find endian hay = some i →
      ∃ first, hay.findIdx? mask = some first ∧ i ≤ first := fun endian i hfind => by
    cases hfirst : hay.findIdx? mask with
    | none =>
        rw [(hnone endian).mpr hfirst] at hfind
        cases hfind
    | some first =>
        refine ⟨first, rfl, ?_⟩
        obtain ⟨hlt, hmask, -⟩ := List.findIdx?_eq_some_iff_getElem.mp hfirst
        by_contra hgt
        have hclean := (find_spec (@fromMask_wellFormed endian mask) hay).2
        rw [hfind, Option.getD_some] at hclean
        apply hclean hay[first]
        · exact List.mem_take_iff_getElem.mpr ⟨first, by omega, rfl⟩
        · exact (mem_chars_fromMask hfour _).mpr hmask
  refine ⟨?_, hnone .big, hbefore .big⟩
  cases hfind : (fromMask .little mask).find .little hay with
  | none => exact ((hnone .little).mp hfind).symm
  | some i =>
      obtain ⟨first, hfirst, hle⟩ := hbefore .little i hfind
      rw [find_eq_findFrom fromMask_wellFormed (hcount .little)] at hfind
      obtain ⟨b, hb, hmem⟩ := (findFrom_exact fromMask_wellFormed hay _ 0 hfind).2 rfl
      rw [mem_chars_fromMask hfour] at hmem
      obtain ⟨hlt, hmask, hmin⟩ := List.findIdx?_eq_some_iff_getElem.mp hfirst
      rw [hfirst]
      apply congrArg some
      apply le_antisymm hle
      by_contra hgt
      apply hmin i (by omega)
      rw [Option.mem_def, List.getElem?_eq_some_iff] at hb
      rw [hb.2]
      exact hmem

/-- Of two needles, the one in the ninth byte is found in the last word, which begins in the
third byte. -/
theorem find_fromMask_tail :
    (fromMask .little fun b => b == 44 || b == 10).find .little
      [97, 98, 99, 100, 101, 102, 103, 104, 44, 105] = some 8 :=
  (find_fromMask (fun b => b == 44 || b == 10) (by decide +kernel) (by decide +kernel)
    [97, 98, 99, 100, 101, 102, 103, 104, 44, 105]).1.trans (by decide)

end StructuralNeedles

end Csveee
