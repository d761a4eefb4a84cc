import Csveee.Lib.Lanes
import Csveee.Parser.Simd.Verify

/-!
# The instruction-set seam

The bitmask pipeline rests on three primitives whose implementation depends on the CPU:
matching a byte against a vector, the prefix sum of a mask and the extraction of bits.
A process picks one level once, by the features its build enables and those its CPU has,
and every level computes the same masks.
-/

namespace Csveee.Simd

open Lanes Bits

/-- `target_arch` -/
inductive Arch
  | x86_64
  | aarch64
  | other
  deriving DecidableEq, Repr

/-- The features beyond a target's baseline that select an implementation. -/
inductive Feature
  | avx2
  | bmi1
  | bmi2
  | lzcnt
  | popcnt
  | pclmulqdq
  | avx512f
  | avx512bw
  | avx512vl
  | aes
  deriving DecidableEq, Repr

structure Cpu where
  arch : Arch
  has : Feature → Bool

/-- What a build is compiled for: `cfg(target_arch)` and `cfg(target_feature)`. -/
structure Build where
  arch : Arch
  enabled : Feature → Bool
  /-- The compiler enables with a feature those it implies. -/
  implied : enabled .avx512bw = true → enabled .avx512f = true

/-- A build runs only where the features it was compiled for are there. -/
structure Build.RunsOn (build : Build) (cpu : Cpu) : Prop where
  arch : cpu.arch = build.arch
  features : ∀ feature, build.enabled feature = true → cpu.has feature = true

/-- The safety contract of a primitive. -/
structure Contract where
  arch : Option Arch := none
  features : List Feature := []

def Contract.holds (contract : Contract) (cpu : Cpu) : Bool :=
  contract.arch.all (· == cpu.arch) && contract.features.all cpu.has

/-- A call of an `unsafe` primitive, undefined where its contract is broken. -/
def Cpu.run {α : Type} (cpu : Cpu) (contract : Contract) (result : α) : Option α :=
  if contract.holds cpu then some result else none

/-- The shape of a kernel module: `load` and `eq_mask` on its registers. -/
structure LaneKernel where
  Lanes : Type
  contract : Contract
  load : Vector Byte 64 → Lanes
  eqMask : Lanes → Byte → Mask

/-- `Avx512Lanes`: one register. -/
def avx512Lanes : LaneKernel where
  Lanes := Register 64
  contract := { arch := some .x86_64, features := [.avx512f, .avx512bw] }
  load input := load 64 0 input le_rfl
  eqMask v b := compareMask v (splat 64 b)

/-- `Avx2Lanes`: two registers. -/
def avx2Lanes : LaneKernel where
  Lanes := Register 32 × Register 32
  contract := { arch := some .x86_64, features := [.avx2] }
  load input := (load 32 0 input (by decide), load 32 32 input le_rfl)
  eqMask v b :=
    let s := splat 32 b
    let lo := moveMask (compareEqual v.1 s)
    let hi := moveMask (compareEqual v.2 s)
    lo.setWidth 64 ||| (hi.setWidth 64 <<< 32)

/-- `Sse2Lanes`: four registers. -/
def sse2Lanes : LaneKernel where
  Lanes := Vector (Register 16) 4
  contract := { arch := some .x86_64 }
  load input := #v[load 16 0 input (by decide), load 16 16 input (by decide),
    load 16 32 input (by decide), load 16 48 input le_rfl]
  eqMask v b :=
    let s := splat 16 b
    v.toList.zipIdx.foldl
      (fun mask lane => mask ||| ((moveMask (compareEqual lane.1 s)).setWidth 64 <<< (16 * lane.2)))
      0

/-- The weights of the lanes: each lane's bit within its byte. -/
def weights : Register 16 := #v[1, 2, 4, 8, 16, 32, 64, 128, 1, 2, 4, 8, 16, 32, 64, 128]

/-- The four registers of `uint8x16x4_t`. -/
structure NeonRegisters where
  q0 : Register 16
  q1 : Register 16
  q2 : Register 16
  q3 : Register 16

/-- `NeonLanes`: weigh each matching lane by its bit, then fold 64 lanes into 8 bytes. -/
def neonLanes : LaneKernel where
  Lanes := NeonRegisters
  contract := { arch := some .aarch64 }
  load input := ⟨load 16 0 input (by decide), load 16 16 input (by decide),
    load 16 32 input (by decide), load 16 48 input le_rfl⟩
  eqMask v b :=
    let s := splat 16 b
    let m0 := bitAnd (compareEqual v.q0 s) weights
    let m1 := bitAnd (compareEqual v.q1 s) weights
    let m2 := bitAnd (compareEqual v.q2 s) weights
    let m3 := bitAnd (compareEqual v.q3 s) weights
    let sum := pairwiseAdd (pairwiseAdd m0 m1) (pairwiseAdd m2 m3)
    let sum := pairwiseAdd sum sum
    word sum 0

def eqMaskScalar (input : Vector Byte 64) (b : Byte) : Mask :=
  input.toList.zipIdx.foldl (fun mask lane => mask ||| (bit (lane.1 == b) <<< lane.2)) 0

def scalarLanes : LaneKernel where
  Lanes := Vector Byte 64
  contract := {}
  load input := input
  eqMask := eqMaskScalar

/-! ### Every kernel finds the same bytes -/

/-- The kernel's masks are the ones the pipeline is written over. -/
def LaneKernel.Faithful (kernel : LaneKernel) : Prop :=
  ∀ input b, kernel.eqMask (kernel.load input) b = Simd.eqMask input.toList b

theorem getLsbD_eqMask (input : Vector Byte 64) (b : Byte) {i : ℕ} (hi : i < 64) :
    (eqMask input.toList b).getLsbD i = (input[i] == b) := by
  rw [eqMask, getLsbD_maskOf, decide_eq_true hi, Bool.true_and,
    List.getElem?_eq_getElem (by rwa [Vector.length_toList]), Vector.getElem_toList]
  rfl

theorem faithful_avx512Lanes : avx512Lanes.Faithful := by
  intro input b
  apply BitVec.eq_of_getLsbD_eq
  intro i hi
  rw [getLsbD_eqMask input b hi]
  change (compareMask (load 64 0 input le_rfl) (splat 64 b)).getLsbD i = (input[i] == b)
  rw [getLsbD_compareMask _ _ hi, getElem_load, getElem_splat]
  congr 2
  exact Nat.zero_add i

theorem getLsbD_moveMask_load {n start : ℕ} (input : Vector Byte 64) (b : Byte)
    (hfits : start + n ≤ 64) {i : ℕ} (hi : i < n) :
    (moveMask (compareEqual (load n start input hfits) (splat n b))).getLsbD i =
      (input[start + i] == b) := by
  rw [getLsbD_moveMask_compareEqual _ _ hi, getElem_load, getElem_splat]

/-- A part of the mask at its place: it holds the bits of its lanes and no others. -/
theorem getLsbD_moveMask_shift {n start : ℕ} (input : Vector Byte 64) (b : Byte)
    (hfits : start + n ≤ 64) {i : ℕ} (hi : i < 64) :
    ((moveMask (compareEqual (load n start input hfits) (splat n b))).setWidth 64 <<<
      start).getLsbD i = (decide (start ≤ i ∧ i < start + n) && input[i] == b) := by
  rw [BitVec.getLsbD_shiftLeft, BitVec.getLsbD_setWidth, decide_eq_true hi, Bool.true_and,
    decide_eq_true (show i - start < 64 by omega), Bool.true_and]
  by_cases hbefore : i < start
  · rw [decide_eq_true hbefore, decide_eq_false fun h => Nat.not_lt.mpr h.1 hbefore]
    rfl
  · rw [decide_eq_false hbefore, Bool.not_false, Bool.true_and]
    by_cases hwithin : i - start < n
    · rw [getLsbD_moveMask_load input b hfits hwithin,
        decide_eq_true (show start ≤ i ∧ i < start + n by omega), Bool.true_and]
      congr 2
      omega
    · rw [decide_eq_false (show ¬ (start ≤ i ∧ i < start + n) by omega), Bool.false_and]
      exact BitVec.getLsbD_of_ge _ _ (Nat.le_of_not_lt hwithin)

theorem faithful_avx2Lanes : avx2Lanes.Faithful := by
  intro input b
  apply BitVec.eq_of_getLsbD_eq
  intro i hi
  have hlo := @getLsbD_moveMask_shift 32 0 input b (by decide) i hi
  have hhi := @getLsbD_moveMask_shift 32 32 input b le_rfl i hi
  rw [BitVec.shiftLeft_zero] at hlo
  rw [getLsbD_eqMask input b hi]
  refine (BitVec.getLsbD_or).trans ?_
  rw [← Bool.true_and (input[i] == b)]
  refine (congrArg₂ (· || ·) hlo hhi).trans ?_
  rw [← Bool.and_or_distrib_right, ← Bool.decide_or]
  congr 1
  rw [decide_eq_true_eq]
  omega

theorem faithful_sse2Lanes : sse2Lanes.Faithful := by
  intro input b
  apply BitVec.eq_of_getLsbD_eq
  intro i hi
  rw [getLsbD_eqMask input b hi]
  refine (getLsbD_foldl_or _ _ _ i).trans ?_
  have h0 := @getLsbD_moveMask_shift 16 0 input b (by decide) i hi
  have h1 := @getLsbD_moveMask_shift 16 16 input b (by decide) i hi
  have h2 := @getLsbD_moveMask_shift 16 32 input b (by decide) i hi
  have h3 := @getLsbD_moveMask_shift 16 48 input b le_rfl i hi
  have hparts := congrArg₂ (· || ·) h0 (congrArg₂ (· || ·) h1 (congrArg₂ (· || ·) h2 h3))
  rw [show (0 : Mask).getLsbD i = false from BitVec.getLsbD_zero, Bool.false_or]
  refine Eq.trans ?_ (hparts.trans ?_)
  · exact congrArg _ (congrArg _ (congrArg _ (Bool.or_false _)))
  · simp only [← Bool.and_or_distrib_right, ← Bool.decide_or]
    rw [decide_eq_true (by omega), Bool.true_and]

theorem faithful_scalarLanes : scalarLanes.Faithful := by
  intro input b
  apply BitVec.eq_of_getLsbD_eq
  intro i hi
  rw [getLsbD_eqMask input b hi]
  refine (getLsbD_foldl_or _ _ _ i).trans ?_
  rw [show (0 : Mask).getLsbD i = false from BitVec.getLsbD_zero, Bool.false_or, Bool.eq_iff_iff,
    List.any_eq_true]
  have hbit : ∀ lane : Byte × ℕ, ((bit (lane.1 == b) <<< lane.2).getLsbD i = true) ↔
      lane.2 = i ∧ (lane.1 == b) = true := by
    intro lane
    rw [BitVec.getLsbD_shiftLeft, getLsbD_bit, decide_eq_true hi, Bool.true_and,
      Bool.and_eq_true, Bool.and_eq_true, Bool.not_eq_true', decide_eq_false_iff_not,
      decide_eq_true_eq, ← and_assoc]
    refine and_congr_left fun _ => ?_
    omega
  simp only [hbit]
  have hget : input.toList[i]? = some input[i] := by
    rw [List.getElem?_eq_getElem (by rwa [Vector.length_toList]), Vector.getElem_toList]
  constructor
  · rintro ⟨lane, hmem, rfl, hmatch⟩
    have hlane : input.toList[lane.2]? = some lane.1 := List.mem_zipIdx_iff_getElem?.mp hmem
    rw [hget] at hlane
    rwa [Option.some_inj.mp hlane]
  · intro hmatch
    exact ⟨(input[i], i), List.mem_zipIdx_iff_getElem?.mpr hget, rfl, hmatch⟩

/-- A lane of the weighed comparison: the lane's bit within its byte, if it matches. -/
def weighed (flags : ℕ → Bool) (i : ℕ) : Byte :=
  if flags i then UInt8.ofBitVec (1#8 <<< (i % 8)) else 0

theorem folded_weighed (flags : ℕ → Bool) : Folded flags 1 (weighed flags) := by
  intro i k hk
  rw [weighed]
  have hplace : (i * 1 ≤ 8 * (i * 1 / 8) + k ∧ 8 * (i * 1 / 8) + k < (i + 1) * 1) ↔
      k = i % 8 := by omega
  rw [decide_eq_decide.mpr hplace]
  by_cases hk' : k = i % 8
  · have hlane : 8 * (i * 1 / 8) + k = i := by omega
    rw [decide_eq_true hk', Bool.true_and, hlane, hk']
    cases flags i with
    | false => exact BitVec.getLsbD_zero
    | true =>
        rw [if_pos rfl, BitVec.getLsbD_shiftLeft, Nat.sub_self, decide_eq_true (by omega)]
        simp
  · rw [decide_eq_false hk', Bool.false_and]
    cases flags i with
    | false => exact BitVec.getLsbD_zero
    | true =>
        rw [if_pos rfl, BitVec.getLsbD_shiftLeft, BitVec.getLsbD_one]
        simp only [Bool.and_eq_false_imp, Bool.and_eq_true, decide_eq_true_eq,
          Bool.not_eq_true', decide_eq_false_iff_not, decide_eq_false_iff_not]
        omega

theorem getElem_weights {i : ℕ} (hi : i < 16) :
    weights[i] = UInt8.ofBitVec (1#8 <<< (i % 8)) := by
  revert i
  decide

theorem shows_weighed (input : Vector Byte 64) (b : Byte) {start : ℕ} (hfits : start + 16 ≤ 64)
    (hgroup : start % 8 = 0) :
    (bitAnd (compareEqual (load 16 start input hfits) (splat 16 b)) weights).Shows
      (weighed fun i => input[i]? == some b) start := by
  intro i hi
  rw [getElem_bitAnd, getElem_compareEqual, getElem_load, getElem_splat, getElem_weights hi,
    weighed, Vector.getElem?_eq_getElem (by omega),
    show (start + i) % 8 = i % 8 by omega]
  by_cases hmatch : input[start + i] = b
  · rw [if_pos hmatch, if_pos (by rw [hmatch]; exact beq_self_eq_true _)]
    exact UInt8.neg_one_and
  · rw [if_neg hmatch, if_neg (by simpa using hmatch)]
    exact UInt8.zero_and

/-- Two rounds of pairwise adds leave a quarter byte in each lane; the third puts the bytes
of the mask together. -/
theorem getLsbD_word_fold {flags : ℕ → Bool} {sum : Register 16}
    (hsum : sum.Shows (pairs (pairs (weighed flags))) 0) {i : ℕ} (hi : i < 64) :
    (word (pairwiseAdd sum sum) 0).getLsbD i = flags i := by
  have hfolded : Folded flags 8 (pairs (pairs (pairs (weighed flags)))) :=
    (((folded_weighed flags).pairs (Or.inl rfl)).pairs (Or.inr (Or.inl rfl))).pairs
      (Or.inr (Or.inr rfl))
  have hbyte : 8 * (i / 8 * 8 / 8) + i % 8 = i := by
    rw [Nat.mul_div_cancel _ (by decide), Nat.div_add_mod]
  rw [getLsbD_word _ 0 hi (by omega), getElem_pairwiseAdd_lower _ _ (by omega),
    hsum _ (by omega), hsum _ (by omega), Nat.mul_zero, Nat.zero_add, Nat.zero_add, Nat.zero_add]
  refine (hfolded (i / 8) (i % 8) (Nat.mod_lt i (by decide))).trans ?_
  rw [hbyte, decide_eq_true (by omega), Bool.true_and]

theorem faithful_neonLanes : neonLanes.Faithful := by
  intro input b
  apply BitVec.eq_of_getLsbD_eq
  intro i hi
  have h0 := @shows_weighed input b 0 (by decide) rfl
  have h1 := @shows_weighed input b 16 (by decide) rfl
  have h2 := @shows_weighed input b 32 (by decide) rfl
  have h3 := @shows_weighed input b 48 le_rfl rfl
  have hlow := @Register.Shows.pairwiseAdd 16 _ _ _ 0 h0 h1
  have hhigh := @Register.Shows.pairwiseAdd 16 _ _ _ 16 h2 h3
  have hsum := @Register.Shows.pairwiseAdd 16 _ _ _ 0 hlow hhigh
  rw [getLsbD_eqMask input b hi]
  refine (getLsbD_word_fold hsum hi).trans ?_
  rw [Vector.getElem?_eq_getElem hi]
  rfl

/-- An implementation of a primitive, with what it asks of the CPU. -/
structure Primitive (φ : Type) where
  contract : Contract := {}
  run : φ

def xorPrefixSumClmul : Primitive (Mask → Mask) where
  contract := { arch := some .x86_64, features := [.pclmulqdq] }
  run q := (carrylessMul q (BitVec.allOnes 64)).setWidth 64

def xorPrefixSumPmull : Primitive (Mask → Mask) where
  contract := { arch := some .aarch64, features := [.aes] }
  run q := (carrylessMul q (~~~0)).setWidth 64

def xorPrefixSumScalar : Primitive (Mask → Mask) where
  run := xorPrefixSum

def pextBmi2 : Primitive (Mask → Mask → Mask) where
  contract := { arch := some .x86_64, features := [.bmi2] }
  run := extract

def pextScalar : Primitive (Mask → Mask → Mask) where
  run := pext

/-- A token of the trait `Isa`, as the primitives it stands for. -/
structure Token where
  lanes : LaneKernel
  xorPrefixSum : Primitive (Mask → Mask)
  pext : Primitive (Mask → Mask → Mask)
  fastPext : Bool

/-- What the results depend on. -/
def Token.isa (token : Token) : Isa := ⟨token.fastPext⟩

def Build.compileTimeLanes (build : Build) : LaneKernel :=
  match build.arch with
  | .x86_64 =>
      if build.enabled .avx512bw then avx512Lanes
      else if build.enabled .avx2 then avx2Lanes
      else sse2Lanes
  | .aarch64 => neonLanes
  | .other => scalarLanes

/-- `CompileTime`: each primitive takes the widest implementation the build enables. -/
def Build.compileTime (build : Build) : Token where
  lanes := build.compileTimeLanes
  xorPrefixSum :=
    if build.arch = .x86_64 ∧ build.enabled .pclmulqdq then xorPrefixSumClmul
    else if build.arch = .aarch64 ∧ build.enabled .aes then xorPrefixSumPmull
    else xorPrefixSumScalar
  pext := if build.arch = .x86_64 ∧ build.enabled .bmi2 then pextBmi2 else pextScalar
  fastPext := build.arch = .x86_64 ∧ build.enabled .bmi2

inductive Level
  | compileTime
  | avx2
  | avx512
  | pmull
  deriving DecidableEq, Repr

namespace Level

/-- `name`, as `CSVEEE_SIMD_LEVEL` spells it. -/
def name : Level → String
  | compileTime => "compile-time"
  | avx2 => "avx2"
  | avx512 => "avx512"
  | pmull => "pmull"

/-- The architecture a level exists on, and the features its token enables. -/
def arch : Level → Option Arch
  | compileTime => none
  | avx2 | avx512 => some .x86_64
  | pmull => some .aarch64

def features : Level → List Feature
  | compileTime => []
  | avx2 => [.avx2, .bmi1, .bmi2, .lzcnt, .popcnt, .pclmulqdq]
  | avx512 =>
      [.avx2, .bmi1, .bmi2, .lzcnt, .popcnt, .pclmulqdq, .avx512f, .avx512bw, .avx512vl]
  | pmull => [.aes]

/-- The primitives of a level; where the build enables all its features the token is an
alias of `CompileTime`. -/
def token (build : Build) (level : Level) : Token :=
  if level.features.all build.enabled then build.compileTime
  else match level with
    | compileTime => build.compileTime
    | avx2 => ⟨avx2Lanes, xorPrefixSumClmul, pextBmi2, true⟩
    | avx512 => ⟨avx512Lanes, xorPrefixSumClmul, pextBmi2, true⟩
    | pmull => ⟨build.compileTimeLanes, xorPrefixSumPmull, build.compileTime.pext, false⟩

/-- `detect_avx2`, `detect_avx512` and `detect_pmull`: the level, where it exists, if the
CPU has every feature; declined where the build enables them all. -/
def detect (build : Build) (cpu : Cpu) (level : Level) : Option Level :=
  if level.arch = some build.arch ∧ ¬ level.features.all build.enabled ∧
      level.features.all cpu.has then some level
  else none

/-- Every level this CPU and build support, best first. -/
def available (build : Build) (cpu : Cpu) : List Level :=
  [detect build cpu avx512, detect build cpu avx2, detect build cpu pmull,
    some compileTime].filterMap id

theorem compileTime_mem_available (build : Build) (cpu : Cpu) :
    compileTime ∈ available build cpu :=
  List.mem_filterMap.mpr ⟨some compileTime, by simp, rfl⟩

/-- `get`: the best available level, unless an available one is pinned. -/
def get (build : Build) (cpu : Cpu) (pinned : Option String) : Level :=
  (pinned.bind fun name => (available build cpu).find? fun level => level.name == name).getD
    ((available build cpu).head (List.ne_nil_of_mem (compileTime_mem_available build cpu)))

end Level

namespace Token

variable (token : Token) (cpu : Cpu)

/-- `match_structural`, through the token's kernel. -/
def matchStructural (input : Vector Byte 64) (delim term : Byte) (term2 quote : Option Byte) :
    Option Structural := do
  let v ← cpu.run token.lanes.contract (token.lanes.load input)
  let eqMask b := cpu.run token.lanes.contract (token.lanes.eqMask v b)
  let delimMask ← eqMask delim
  let termMask ← eqMask term
  let termMask ← match term2 with
    | some t2 => do
        let second ← eqMask t2
        pure (termMask ||| second)
    | none => pure termMask
  let quoteMask ← match quote with
    | some q => eqMask q
    | none => pure 0
  pure { delim := delimMask, term := termMask, quote := quoteMask }

/-- `compute_in_quotes`, through the token's prefix sum. -/
def computeInQuotes (quote : Mask) (carryIn : Bool) : Option (Mask × Bool) :=
  if quote = 0 then some (-bit carryIn, carryIn)
  else do
    let sums ← cpu.run token.xorPrefixSum.contract (token.xorPrefixSum.run quote)
    let m := sums ^^^ -bit carryIn
    pure (m, m >>> 63 != 0)

/-- `verify_pext`, through the token's extraction. -/
def verifyPext (counter : FieldCounter) (dStruct term : Mask) : Option (FieldCounter × Bool) :=
  let count := countOnes dStruct
  if count = 0 then some (counter, true)
  else do
    let p ← cpu.run token.pext.contract (token.pext.run term dStruct)
    let expected := counter.rotations (counter.phase % 64)
    let mask : Mask := if count = 64 then ~~~0 else ((1 : Mask) <<< count) - 1
    if (p ^^^ expected) &&& mask ≠ 0 then pure (counter, false)
    else
      let carry := if p = 0 then counter.phase else 0
      pure ({ counter with phase := count + leadingZeros p - 64 + carry }, true)

def verify (counter : FieldCounter) (dStruct term : Mask) : Option (FieldCounter × Bool) :=
  if token.fastPext then token.verifyPext cpu counter dStruct term
  else some (counter.verifyByTerminators dStruct term)

end Token

theorem xorUpTo_eq_parity (f : ℕ → Bool) (i : ℕ) : xorUpTo f i = parity f i := by
  induction i with
  | zero => rfl
  | succ i ih => rw [xorUpTo, ih, parity]

theorem xorPrefixSumClmul_run : xorPrefixSumClmul.run = xorPrefixSum := by
  funext q
  apply BitVec.eq_of_getLsbD_eq
  intro i hi
  change ((carrylessMul q (BitVec.allOnes 64)).setWidth 64).getLsbD i = _
  rw [BitVec.getLsbD_setWidth, decide_eq_true hi, Bool.true_and,
    getLsbD_carrylessMul_allOnes q hi, xorUpTo_eq_parity, getLsbD_xorPrefixSum q hi]

theorem xorPrefixSumPmull_run : xorPrefixSumPmull.run = xorPrefixSum :=
  xorPrefixSumClmul_run

theorem pextBmi2_run : pextBmi2.run = pext := by
  funext src mask
  apply BitVec.eq_of_getLsbD_eq
  intro i _
  rw [getLsbD_pext, kinds]
  exact getLsbD_extract src mask i

/-- A token whose primitives may run on the CPU and compute what the pipeline is written
over. -/
structure Token.Sound (token : Token) (cpu : Cpu) : Prop where
  lanes : token.lanes.contract.holds cpu = true
  faithful : token.lanes.Faithful
  prefixSum : token.xorPrefixSum.contract.holds cpu = true
  prefixSum_run : token.xorPrefixSum.run = Simd.xorPrefixSum
  pext : token.pext.contract.holds cpu = true
  pext_run : token.pext.run = Simd.pext

section Levels

variable {build : Build} {cpu : Cpu}

theorem holds_of {arch : Arch} {features : List Feature} (harch : cpu.arch = arch)
    (hfeatures : ∀ feature ∈ features, cpu.has feature = true) :
    Contract.holds { arch := some arch, features := features } cpu = true := by
  rw [Contract.holds, Option.all_some, harch, beq_self_eq_true, Bool.true_and, List.all_eq_true]
  exact hfeatures

theorem Build.RunsOn.lanes (hruns : build.RunsOn cpu) :
    build.compileTimeLanes.contract.holds cpu = true ∧ build.compileTimeLanes.Faithful := by
  rw [Build.compileTimeLanes]
  cases harch : build.arch with
  | x86_64 =>
      have hcpu := hruns.arch.trans harch
      simp only
      split_ifs with h512 h2
      · refine ⟨holds_of hcpu fun feature hmem => ?_, faithful_avx512Lanes⟩
        rcases List.mem_pair.mp hmem with rfl | rfl
        · exact hruns.features _ (build.implied h512)
        · exact hruns.features _ h512
      · refine ⟨holds_of hcpu fun feature hmem => ?_, faithful_avx2Lanes⟩
        rw [List.mem_singleton.mp hmem]
        exact hruns.features _ h2
      · exact ⟨holds_of hcpu fun feature hmem => absurd hmem List.not_mem_nil,
          faithful_sse2Lanes⟩
  | aarch64 =>
      exact ⟨holds_of (hruns.arch.trans harch) fun feature hmem => absurd hmem List.not_mem_nil,
        faithful_neonLanes⟩
  | other => exact ⟨rfl, faithful_scalarLanes⟩

theorem Build.RunsOn.prefixSum (hruns : build.RunsOn cpu) :
    build.compileTime.xorPrefixSum.contract.holds cpu = true ∧
      build.compileTime.xorPrefixSum.run = Simd.xorPrefixSum := by
  rw [Build.compileTime]
  simp only
  split_ifs with hx86 harm
  · refine ⟨holds_of (hruns.arch.trans hx86.1) fun feature hmem => ?_, xorPrefixSumClmul_run⟩
    rw [List.mem_singleton.mp hmem]
    exact hruns.features _ hx86.2
  · refine ⟨holds_of (hruns.arch.trans harm.1) fun feature hmem => ?_, xorPrefixSumPmull_run⟩
    rw [List.mem_singleton.mp hmem]
    exact hruns.features _ harm.2
  · exact ⟨rfl, rfl⟩

theorem Build.RunsOn.pext (hruns : build.RunsOn cpu) :
    build.compileTime.pext.contract.holds cpu = true ∧
      build.compileTime.pext.run = Simd.pext := by
  rw [Build.compileTime]
  simp only
  split_ifs with hx86
  · refine ⟨holds_of (hruns.arch.trans hx86.1) fun feature hmem => ?_, pextBmi2_run⟩
    rw [List.mem_singleton.mp hmem]
    exact hruns.features _ hx86.2
  · exact ⟨rfl, rfl⟩

theorem Build.RunsOn.sound_compileTime (hruns : build.RunsOn cpu) :
    build.compileTime.Sound cpu where
  lanes := hruns.lanes.1
  faithful := hruns.lanes.2
  prefixSum := hruns.prefixSum.1
  prefixSum_run := hruns.prefixSum.2
  pext := hruns.pext.1
  pext_run := hruns.pext.2

/-- A level that is handed out is the build's own or was detected. -/
theorem Level.of_mem_available {level : Level} (hmem : level ∈ available build cpu) :
    level = compileTime ∨ level.arch = some build.arch ∧
      (∀ feature ∈ level.features, cpu.has feature = true) := by
  have hdetect : ∀ l, detect build cpu l = some level → level.arch = some build.arch ∧
      (∀ feature ∈ level.features, cpu.has feature = true) := by
    intro l hl
    rw [detect] at hl
    split_ifs at hl with hthere
    cases hl
    exact ⟨hthere.1, List.all_eq_true.mp hthere.2.2⟩
  obtain ⟨found, hfound, hsome⟩ := List.mem_filterMap.mp hmem
  rw [id_eq] at hsome
  subst hsome
  simp only [List.mem_cons, List.not_mem_nil, or_false] at hfound
  rcases hfound with h | h | h | h
  · exact Or.inr (hdetect _ h.symm)
  · exact Or.inr (hdetect _ h.symm)
  · exact Or.inr (hdetect _ h.symm)
  · exact Or.inl (Option.some_inj.mp h)

theorem Level.get_mem (build : Build) (cpu : Cpu) (pinned : Option String) :
    get build cpu pinned ∈ available build cpu := by
  rw [get]
  cases hfound : pinned.bind fun name =>
      (available build cpu).find? fun level => level.name == name with
  | none => exact List.head_mem _
  | some level =>
      obtain ⟨name, -, hfind⟩ := Option.bind_eq_some_iff.mp hfound
      exact List.mem_of_find?_eq_some hfind

/-- A detected token runs where it was detected. -/
theorem Level.sound (hruns : build.RunsOn cpu) {level : Level}
    (hmem : level ∈ available build cpu) : (level.token build).Sound cpu := by
  rw [token.eq_def]
  split_ifs with halias
  · exact hruns.sound_compileTime
  · rcases of_mem_available hmem with rfl | ⟨harch, hfeatures⟩
    · exact hruns.sound_compileTime
    · have holds : ∀ features : List Feature, features ⊆ level.features →
          ∀ arch, level.arch = some arch →
            Contract.holds { arch := some arch, features := features } cpu = true := by
        intro features hsub arch hlevel
        have hcpu : cpu.arch = arch :=
          hruns.arch.trans (Option.some_inj.mp (harch.symm.trans hlevel))
        exact holds_of hcpu fun feature hfeature => hfeatures feature (hsub hfeature)
      cases level with
      | compileTime => exact hruns.sound_compileTime
      | avx2 =>
          exact {
            lanes := holds [.avx2] (by decide) _ rfl
            faithful := faithful_avx2Lanes
            prefixSum := holds [.pclmulqdq] (by decide) _ rfl
            prefixSum_run := xorPrefixSumClmul_run
            pext := holds [.bmi2] (by decide) _ rfl
            pext_run := pextBmi2_run }
      | avx512 =>
          exact {
            lanes := holds [.avx512f, .avx512bw] (by decide) _ rfl
            faithful := faithful_avx512Lanes
            prefixSum := holds [.pclmulqdq] (by decide) _ rfl
            prefixSum_run := xorPrefixSumClmul_run
            pext := holds [.bmi2] (by decide) _ rfl
            pext_run := pextBmi2_run }
      | pmull =>
          exact {
            lanes := hruns.lanes.1
            faithful := hruns.lanes.2
            prefixSum := holds [.aes] (by decide) _ rfl
            prefixSum_run := xorPrefixSumPmull_run
            pext := hruns.pext.1
            pext_run := hruns.pext.2 }

end Levels

namespace Token.Sound

variable {token : Token} {cpu : Cpu}

theorem run_eq {α : Type} {contract : Contract} (hholds : contract.holds cpu = true)
    (result : α) : cpu.run contract result = some result := by
  rw [Cpu.run, if_pos hholds]

theorem matchStructural_eq (h : token.Sound cpu) (input : Vector Byte 64) (delim term : Byte)
    (term2 quote : Option Byte) :
    token.matchStructural cpu input delim term term2 quote =
      some (Simd.matchStructural input.toList delim term term2 quote) := by
  rw [Token.matchStructural]
  simp only [run_eq h.lanes, Option.bind_eq_bind, Option.bind_some, h.faithful input]
  cases term2 <;> cases quote <;> rfl

theorem computeInQuotes_eq (h : token.Sound cpu) (quote : Mask) (carryIn : Bool) :
    token.computeInQuotes cpu quote carryIn = some (Simd.computeInQuotes quote carryIn) := by
  rw [Token.computeInQuotes, Simd.computeInQuotes, run_eq h.prefixSum, h.prefixSum_run]
  split_ifs
  · rfl
  · rfl

theorem verifyPext_eq (h : token.Sound cpu) (counter : FieldCounter) (dStruct term : Mask) :
    token.verifyPext cpu counter dStruct term = some (counter.verifyPext dStruct term) := by
  rw [Token.verifyPext, FieldCounter.verifyPext]
  simp only [run_eq h.pext, h.pext_run, Option.bind_eq_bind, Option.bind_some]
  split_ifs <;> rfl

theorem verify_eq (h : token.Sound cpu) {counter : FieldCounter} (hisa : counter.isa = token.isa)
    (dStruct term : Mask) :
    token.verify cpu counter dStruct term = some (counter.verify dStruct term) := by
  have hfast : counter.isa.fastPext = token.fastPext := by
    rw [hisa]
    rfl
  rw [Token.verify, FieldCounter.verify, hfast, verifyPext_eq h]
  split_ifs
  · rfl
  · rfl

end Token.Sound

/-- Whatever the build, the CPU and the pinned name: the level a process gets runs only what
its CPU has, its masks and its quote parities are the ones every other level computes, and its
verdicts the counter's on that instruction set.  That the walk over the terminators and the
extracted indices come to the same verdict is shown over a whole stream of vectors. -/
theorem level_faithful {build : Build} {cpu : Cpu} (hruns : build.RunsOn cpu)
    (pinned : Option String) :
    (∀ (input : Vector Byte 64) (delim term : Byte) (term2 quote : Option Byte),
      ((Level.get build cpu pinned).token build).matchStructural cpu input delim term term2 quote =
        some (matchStructural input.toList delim term term2 quote)) ∧
    (∀ (quote : Mask) (carryIn : Bool),
      ((Level.get build cpu pinned).token build).computeInQuotes cpu quote carryIn =
        some (computeInQuotes quote carryIn)) ∧
    ∀ counter : FieldCounter, counter.isa = ((Level.get build cpu pinned).token build).isa →
      ∀ dStruct term : Mask,
        ((Level.get build cpu pinned).token build).verify cpu counter dStruct term =
          some (counter.verify dStruct term) := by
  have hsound := Level.sound hruns (Level.get_mem build cpu pinned)
  exact ⟨hsound.matchStructural_eq, hsound.computeInQuotes_eq, fun _ => hsound.verify_eq⟩

/-- A portable build on a CPU with every feature. -/
def portableBuild : Build := ⟨.x86_64, fun _ => false, id⟩

def fullCpu : Cpu := ⟨.x86_64, fun _ => true⟩

/-- The widest level is detected, and finds the one terminator among delimiters. -/
theorem level_faithful_avx512 :
    Level.get portableBuild fullCpu none = .avx512 ∧
      ((Level.get portableBuild fullCpu none).token portableBuild).matchStructural fullCpu
        (Vector.ofFn fun i => if i.val = 1 then 10 else 44) 44 10 none (some 34) =
          some { delim := ~~~2, term := 2, quote := 0 } := by
  refine ⟨rfl, ?_⟩
  rw [(level_faithful ⟨rfl, fun _ h => absurd h Bool.false_ne_true⟩ none).1]
  decide +kernel

end Csveee.Simd
