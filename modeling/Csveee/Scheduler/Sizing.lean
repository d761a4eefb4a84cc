import Mathlib.Algebra.BigOperators.Group.Finset.Basic
import Mathlib.Algebra.Order.BigOperators.Group.Finset
import Mathlib.Algebra.Order.BigOperators.Ring.Finset
import Csveee.Io.RingBuf.Buffer
import Csveee.Scheduler.Resolve

/-!
# Sizing

How many workers a run gets, and the ring buffer of each.  The budget is a total across
workers: it decides how many there are, each gets an equal share, and no buffer exceeds
its share.
-/

namespace Csveee.Scheduler

open RingBuf

/-- What sizing asks of the machine. -/
structure Host where
  memory : Memory
  availableParallelism : ℕ
  totalRam : Option ℕ
  apple : Bool
  /-- `6 * (c as f64).sqrt().ceil() as usize` -/
  sixSqrt : ℕ → ℕ

def inMemoryFileSizeThreshold : ℕ := 1024 * 1024

def ringBufferSize : ℕ := 64 * 1024

def manyThreadsRingBufferSize : ℕ := 16 * 1024

def manyThreads : ℕ := 64

def appleRingBufferSize : ℕ := 256 * 1024

namespace Host

variable (host : Host)

def minThreadBuffer : ℕ := host.memory.granularity

def affordableThreadCount : Option ℕ → ℕ
  | none => 2 ^ 64 - 1
  | some budget => max (budget / host.minThreadBuffer) 1

/-- The concurrency asked for; zero is the sentinel for what the machine has. -/
def concurrency (config : Config) : ℕ :=
  if config.concurrency = 0 then host.availableParallelism else config.concurrency

def resolveThreadCount (config : Config) (chunkCount : ℕ) (ioBufferLimit : Option ℕ) : ℕ :=
  min (min (min (host.concurrency config) chunkCount) (host.sixSqrt chunkCount))
    (host.affordableThreadCount ioBufferLimit)

def resolveBufferSize (own threadCount : ℕ) (limit : Option ℕ) : ℕ :=
  if own ≠ 0 then own
  else
    let size :=
      if host.apple then appleRingBufferSize
      else if manyThreads ≤ threadCount then manyThreadsRingBufferSize
      else ringBufferSize
    match limit with
    | some limit =>
        if limit < size then 1 <<< (64 - 1 - (BitVec.ofNat 64 (max limit 1)).clz.toNat)
        else size
    | none => size

end Host

def resolveBufferLimit (own share : Option ℕ) : Option ℕ :=
  match own with
  | none | some 0 => share
  | some own =>
      match share with
      | some share => some (min own share)
      | none => some own

def perThreadShare (ioBufferLimit : Option ℕ) (threadCount : ℕ) : Option ℕ :=
  ioBufferLimit.bind fun total => if threadCount = 0 then none else some (total / threadCount)

namespace Host

variable (host : Host)

def resolveRingbufSettings (ring : RingBufSettings) (share : Option ℕ) (threadCount : ℕ) :
    RingBufSettings :=
  let bufferLimit := resolveBufferLimit ring.bufferLimit share
  { bufferSize := host.resolveBufferSize ring.bufferSize threadCount bufferLimit
    bufferLimit := bufferLimit }

def unbackedRingSettings (share : Option ℕ) (threadCount : ℕ) : RingBufSettings :=
  host.resolveRingbufSettings {} share threadCount

def resolveIoBackend (config : Config) (fileSize : ℕ) (share : Option ℕ) (threadCount : ℕ) :
    IoBackend :=
  let selected :=
    match config.ioBackend with
    | .auto =>
        if fileSize ≤ inMemoryFileSizeThreshold then IoBackend.inMemory else .ringBuf {}
    | other => other
  match selected with
  | .ringBuf ring => .ringBuf (host.resolveRingbufSettings ring share threadCount)
  | other => other

def resolveIoBufferLimit (config : Config) : Option ℕ :=
  match config.ioBufferLimit with
  | some 0 => host.totalRam.map (· / 2)
  | other => other

def streamRingSettings (config : Config) : RingBufSettings :=
  host.unbackedRingSettings (perThreadShare (host.resolveIoBufferLimit config) 1) 1

end Host

/-- The capacities a buffer may grow to. -/
def Grown (limit : Option ℕ) : ℕ → ℕ → Prop :=
  Relation.ReflTransGen fun capacity grown => grownCapacity capacity limit = .ok grown

/-- A run of `threadCount` workers with these settings keeps to the budget: a share for each,
buffers that fit the shares wherever a least buffer fits the budget, and none otherwise. -/
structure WithinBudget (mem : Memory) (budget threadCount : ℕ) (share : Option ℕ)
    (ring : RingBufSettings) : Prop where
  shares : ∃ each, share = some each ∧ threadCount * each ≤ budget ∧
    (mem.granularity ≤ budget → ∃ capacity, mem.granularity ≤ capacity ∧ capacity ≤ each ∧
      (∃ k, capacity = 2 ^ k) ∧
        checkedCapacity mem ring.bufferSize ring.bufferLimit = .ok capacity)
  grown : ∀ capacities : Fin threadCount → ℕ,
    (∀ worker, ∃ capacity, checkedCapacity mem ring.bufferSize ring.bufferLimit = .ok capacity ∧
      Grown ring.bufferLimit capacity (capacities worker)) →
    ∑ worker, capacities worker ≤ budget
  refused : budget < mem.granularity → threadCount = 1 ∧
    ∃ err, checkedCapacity mem ring.bufferSize ring.bufferLimit = .error err

theorem Grown.le {bound capacity grown : ℕ} (h : Grown (some bound) capacity grown)
    (hle : capacity ≤ bound) : grown ≤ bound := by
  induction h with
  | refl => exact hle
  | tail _ hstep _ => exact (grownCapacity_ok hstep).2 bound rfl

/-- Rounding down by the leading zeros. -/
theorem shiftLeft_clz {n : ℕ} (hpos : 1 ≤ n) (hlt : n < 2 ^ 64) :
    ∃ k < 64, 1 <<< (64 - 1 - (BitVec.ofNat 64 n).clz.toNat) = 2 ^ k ∧ 2 ^ k ≤ n := by
  have htoNat : (BitVec.ofNat 64 n).toNat = n := by
    rw [BitVec.toNat_ofNat, Nat.mod_eq_of_lt hlt]
  have hne : BitVec.ofNat 64 n ≠ 0#64 := by
    intro hzero
    rw [hzero] at htoNat
    simp only [BitVec.toNat_zero] at htoNat
    omega
  have hle := BitVec.two_pow_sub_clz_le_toNat_of_ne_zero (by decide) hne
  rw [htoNat] at hle
  refine ⟨64 - 1 - (BitVec.ofNat 64 n).clz.toNat, by omega, ?_, ?_⟩
  · rw [Nat.shiftLeft_eq, Nat.one_mul]
  · exact hle

/-- The working size is a power of two, and no more than a limit that can hold any. -/
theorem Host.resolveBufferSize_auto (host : Host) (threadCount : ℕ) {limit : ℕ}
    (hpos : 1 ≤ limit) (hlimit : limit < 2 ^ 64) :
    ∃ k < 64, host.resolveBufferSize 0 threadCount (some limit) = 2 ^ k ∧ 2 ^ k ≤ limit := by
  have hsize : ∃ k < 64, (if host.apple then appleRingBufferSize
      else if manyThreads ≤ threadCount then manyThreadsRingBufferSize
      else ringBufferSize) = 2 ^ k := by
    split_ifs
    · exact ⟨18, by decide, rfl⟩
    · exact ⟨14, by decide, rfl⟩
    · exact ⟨16, by decide, rfl⟩
  obtain ⟨k, hk, hsize⟩ := hsize
  simp only [resolveBufferSize, hsize, ne_eq, not_true_eq_false, if_false]
  split_ifs with hsmall
  · rw [Nat.max_eq_left hpos]
    exact shiftLeft_clz hpos hlimit
  · exact ⟨k, hk, rfl, Nat.not_lt.mp hsmall⟩

/-- A share that holds a least buffer holds the one it is given. -/
theorem Host.checkedCapacity_auto (host : Host) (threadCount : ℕ) {share : ℕ}
    (hshare : share < 2 ^ 64) (hfits : host.memory.granularity ≤ share) :
    ∃ capacity, host.memory.granularity ≤ capacity ∧ capacity ≤ share ∧ (∃ k, capacity = 2 ^ k) ∧
      checkedCapacity host.memory (host.resolveBufferSize 0 threadCount (some share))
        (some share) = .ok capacity := by
  have hpos : 1 ≤ host.memory.granularity := by
    obtain ⟨k, hk⟩ := host.memory.granularity_pow
    rw [hk]
    exact Nat.two_pow_pos k
  obtain ⟨k, hk, hsize, hle⟩ :=
    host.resolveBufferSize_auto threadCount (le_trans hpos hfits) hshare
  have hok : checkedCapacity host.memory (host.resolveBufferSize 0 threadCount (some share))
      (some share) = .ok (max (2 ^ k) host.memory.granularity) := by
    rw [hsize, checkedCapacity, nextPowerOfTwo_two_pow hk]
    exact if_neg (Nat.not_lt.mpr (Nat.max_le.mpr ⟨hle, hfits⟩))
  obtain ⟨hpow, hgranular, hbound⟩ := checkedCapacity_ok hok
  exact ⟨_, hgranular, hbound share rfl, hpow, hok⟩

theorem checkedCapacity_refused (mem : Memory) (capacity : ℕ) {limit : ℕ}
    (h : limit < mem.granularity) :
    ∃ err, checkedCapacity mem capacity (some limit) = .error err := by
  refine ⟨_, if_pos ?_⟩
  exact lt_of_lt_of_le h (Nat.le_max_right _ _)

/-- Equal shares of a budget that pays for as many least buffers keep to it. -/
theorem Host.withinBudget (host : Host) {budget threadCount : ℕ} (hbudget : budget < 2 ^ 64)
    (hone : 1 ≤ threadCount)
    (hafford : threadCount ≤ max (budget / host.memory.granularity) 1) :
    WithinBudget host.memory budget threadCount (perThreadShare (some budget) threadCount)
      (host.resolveRingbufSettings {} (perThreadShare (some budget) threadCount) threadCount) := by
  have hshare : perThreadShare (some budget) threadCount = some (budget / threadCount) := by
    rw [perThreadShare, Option.bind_some, if_neg (by omega)]
  have hsettings : host.resolveRingbufSettings {} (perThreadShare (some budget) threadCount)
      threadCount = ⟨host.resolveBufferSize 0 threadCount (some (budget / threadCount)),
        some (budget / threadCount)⟩ := by
    rw [hshare]
    rfl
  have htotal : threadCount * (budget / threadCount) ≤ budget := Nat.mul_div_le _ _
  have hsmall : budget / threadCount < 2 ^ 64 := lt_of_le_of_lt (Nat.div_le_self _ _) hbudget
  obtain ⟨exponent, hgranularity⟩ := host.memory.granularity_pow
  have hgpos : 0 < host.memory.granularity := by
    rw [hgranularity]
    exact Nat.two_pow_pos exponent
  rw [hsettings]
  constructor
  case shares =>
    refine ⟨budget / threadCount, hshare, htotal, fun hfits => ?_⟩
    apply host.checkedCapacity_auto threadCount hsmall
    rw [Nat.le_div_iff_mul_le hone, Nat.mul_comm]
    have hquot : 1 ≤ budget / host.memory.granularity := (Nat.one_le_div_iff hgpos).mpr hfits
    calc threadCount * host.memory.granularity
        ≤ budget / host.memory.granularity * host.memory.granularity := by
          apply Nat.mul_le_mul_right
          omega
      _ ≤ budget := Nat.div_mul_le_self _ _
  case grown =>
    intro capacities hcapacities
    calc ∑ worker, capacities worker
        ≤ ∑ _worker : Fin threadCount, budget / threadCount := by
          apply Finset.sum_le_sum
          intro worker _
          obtain ⟨capacity, hchecked, hgrown⟩ := hcapacities worker
          exact hgrown.le ((checkedCapacity_ok hchecked).2.2 _ rfl)
      _ = threadCount * (budget / threadCount) := by
          rw [Finset.sum_const_nat fun _ _ => rfl, Finset.card_univ, Fintype.card_fin]
      _ ≤ budget := htotal
  case refused =>
    intro hless
    have hquot : budget / host.memory.granularity = 0 := Nat.div_eq_of_lt hless
    refine ⟨by omega, ?_⟩
    apply checkedCapacity_refused
    exact lt_of_le_of_lt (Nat.div_le_self _ _) hless

/-- Sizing never rejects itself: under a budget, both ways to run are given workers and
buffers within it. -/
theorem Host.sizing_withinBudget (host : Host) (config : Config) {budget chunkCount : ℕ}
    (hlimit : config.ioBufferLimit = some budget) (hpos : 0 < budget) (hbudget : budget < 2 ^ 64)
    (hconcurrency : 1 ≤ host.concurrency config) (hchunks : 1 ≤ chunkCount)
    (hsqrt : 1 ≤ host.sixSqrt chunkCount) :
    let ioBufferLimit := host.resolveIoBufferLimit config
    let threadCount := host.resolveThreadCount config chunkCount ioBufferLimit
    let share := perThreadShare ioBufferLimit threadCount
    1 ≤ threadCount ∧ threadCount ≤ chunkCount ∧
      WithinBudget host.memory budget threadCount share
        (host.unbackedRingSettings share threadCount) ∧
      (∀ fileSize, (config.ioBackend = .ringBuf {} ∨
          config.ioBackend = .auto ∧ inMemoryFileSizeThreshold < fileSize) →
        ∃ ring, host.resolveIoBackend config fileSize share threadCount = .ringBuf ring ∧
          WithinBudget host.memory budget threadCount share ring) ∧
      WithinBudget host.memory budget 1 (perThreadShare ioBufferLimit 1)
        (host.streamRingSettings config) := by
  have hresolved : host.resolveIoBufferLimit config = some budget := by
    rw [resolveIoBufferLimit, hlimit]
    cases budget with
    | zero => omega
    | succ budget => rfl
  intro ioBufferLimit threadCount share
  have hthreads : threadCount = min (min (min (host.concurrency config) chunkCount)
      (host.sixSqrt chunkCount)) (max (budget / host.memory.granularity) 1) := by
    show host.resolveThreadCount config chunkCount (host.resolveIoBufferLimit config) = _
    rw [hresolved]
    rfl
  have hone : 1 ≤ threadCount := by omega
  have hwithin := host.withinBudget hbudget hone (by omega)
  have hstream := host.withinBudget hbudget (le_refl 1) (Nat.le_max_right _ _)
  rw [← hresolved] at hwithin hstream
  refine ⟨hone, by omega, hwithin, fun fileSize hbackend => ⟨_, ?_, hwithin⟩, hstream⟩
  rw [resolveIoBackend]
  rcases hbackend with hring | ⟨hauto, hlarge⟩
  · rw [hring]
  · simp only [hauto, if_neg (Nat.not_le.mpr hlarge)]
    rfl

/-- Eight cores and pages of four kilobytes. -/
def eightCores : Host where
  memory :=
    { granularity := 4096
      granularity_pow := ⟨12, rfl⟩
      allocatable := fun capacity => decide (capacity < 2 ^ 63)
      bounded := fun _ h => of_decide_eq_true h }
  availableParallelism := 8
  totalRam := none
  apple := false
  sixSqrt := fun chunkCount => 6 * chunkCount.sqrt.succ

theorem sizing_withinBudget_twoPages :
    WithinBudget eightCores.memory 8192 2 (some 4096)
      (eightCores.unbackedRingSettings (some 4096) 2) :=
  (eightCores.sizing_withinBudget { Config.default with ioBufferLimit := some 8192 } rfl
    (by decide) (by decide) (by decide) (show 1 ≤ 4 by decide) (by decide)).2.2.1

end Csveee.Scheduler
