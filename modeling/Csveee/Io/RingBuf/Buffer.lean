import Mathlib.Algebra.Group.Nat.Defs
import Csveee.Core.Config
import Csveee.Lib.Slice

/-!
# The buffer of the ring-buffer backend

Two buffer types share one interface, selected per target.  What they are for is a queue
of bytes of bounded length, and a type represents it if its operations do to the bytes in
view what the queue's do.
-/

namespace Csveee.RingBuf

/-- What the system says about memory: its allocation granularity, and whether a buffer of
some capacity can be had.  No allocation exceeds `isize::MAX` bytes. -/
structure Memory where
  granularity : ℕ
  granularity_pow : ∃ k, granularity = 2 ^ k
  allocatable : ℕ → Bool
  bounded : ∀ capacity, allocatable capacity = true → capacity < 2 ^ 63

/-- Why a buffer is not created, or does not grow. -/
inductive BufError
  /-- "ring buffer capacity (…) would exceed limit (…)" -/
  | capacityExceedsLimit (capacity limit : ℕ)
  /-- "ring buffer growth (…) would exceed limit (…)" -/
  | growthExceedsLimit (capacity limit : ℕ)
  | outOfMemory
  deriving DecidableEq, Repr

/-- `usize::next_power_of_two`; it wraps to zero where there is none. -/
def nextPowerOfTwo (n : ℕ) : ℕ :=
  (if n ≤ 1 then 1 else 2 ^ ((n - 1).log2 + 1)) % 2 ^ 64

def checkedCapacity (mem : Memory) (capacity : ℕ) (limit : Option ℕ) : Except BufError ℕ :=
  let capacity := max (nextPowerOfTwo capacity) mem.granularity
  match limit with
  | some limit =>
      if limit < capacity then .error (.capacityExceedsLimit capacity limit) else .ok capacity
  | none => .ok capacity

def grownCapacity (capacity : ℕ) (limit : Option ℕ) : Except BufError ℕ :=
  let newCapacity := capacity * 2
  match limit with
  | some limit =>
      if limit < newCapacity then .error (.growthExceedsLimit newCapacity limit)
      else .ok newCapacity
  | none => .ok newCapacity

/-- A capacity the system can allocate. -/
def allocate (mem : Memory) (capacity : ℕ) : Except BufError ℕ :=
  if mem.allocatable capacity then .ok capacity else .error .outOfMemory

/-- The interface of the buffer types. -/
class Buffer (B : Type) where
  new : Memory → ℕ → Option ℕ → Except BufError B
  capacity : B → ℕ
  readable : B → ℕ
  writable : B → ℕ
  data : B → Bytes
  /-- `data_mut()[i] = b` -/
  edit : B → ℕ → Byte → B
  /-- The buffer after `unused_mut()`, and the length of the slice. -/
  unusedMut : B → B × ℕ
  /-- Copy the bytes to the front of the slice `unused_mut()` returned, then `produce` them. -/
  receive : B → Bytes → B
  consume : B → ℕ → B
  grow : Memory → B → Except BufError B

/-- What a buffer is for: the bytes in view, at most `capacity` of them. -/
structure Queue where
  contents : Bytes
  capacity : ℕ
  limit : Option ℕ
  deriving DecidableEq

namespace Queue

def new (mem : Memory) (capacity : ℕ) (limit : Option ℕ) : Except BufError Queue := do
  let capacity ← checkedCapacity mem capacity limit
  let capacity ← allocate mem capacity
  return ⟨[], capacity, limit⟩

def grow (mem : Memory) (queue : Queue) : Except BufError Queue := do
  let capacity ← grownCapacity queue.capacity queue.limit
  let capacity ← allocate mem capacity
  return { queue with capacity := capacity }

instance : Buffer Queue where
  new := new
  capacity := capacity
  readable queue := queue.contents.length
  writable queue := queue.capacity - queue.contents.length
  data := contents
  edit queue i b := { queue with contents := queue.contents.set i b }
  unusedMut queue := (queue, queue.capacity - queue.contents.length)
  receive queue bytes := { queue with contents := queue.contents ++ bytes }
  consume queue n := { queue with contents := queue.contents.drop n }
  grow := grow

/-- What holds of every buffer. -/
structure Sound (mem : Memory) (queue : Queue) : Prop where
  power : ∃ k, queue.capacity = 2 ^ k
  granular : mem.granularity ≤ queue.capacity
  bounded : queue.capacity < 2 ^ 63
  within : ∀ limit, queue.limit = some limit → queue.capacity ≤ limit
  fits : queue.contents.length ≤ queue.capacity

/-- The queue without its bytes. -/
def reset (queue : Queue) : Queue := { queue with contents := [] }

theorem Sound.reset {mem : Memory} {queue : Queue} (h : queue.Sound mem) :
    queue.reset.Sound mem :=
  ⟨h.power, h.granular, h.bounded, h.within, Nat.zero_le _⟩

end Queue

/-- A buffer type whose buffers are emptied between two chunks. -/
class Resets (B : Type) extends Buffer B where
  reset : B → B

/-- Both succeed with values so related, or fail with the same error. -/
def Alike {α β : Type} (rel : α → β → Prop) : Except BufError α → Except BufError β → Prop
  | .ok a, .ok b => rel a b
  | .error err, .error err' => err = err'
  | _, _ => False

/-- The buffers of a type stand for queues, and do what these do. -/
structure Represents (mem : Memory) {B : Type} [Buffer B] (rep : B → Queue → Prop) : Prop where
  sound : ∀ {b q}, rep b q → q.Sound mem
  capacity : ∀ {b q}, rep b q → Buffer.capacity b = q.capacity
  readable : ∀ {b q}, rep b q → Buffer.readable b = q.contents.length
  writable : ∀ {b q}, rep b q → Buffer.writable b = q.capacity - q.contents.length
  data : ∀ {b q}, rep b q → Buffer.data b = q.contents
  new : ∀ capacity limit,
    Alike rep (Buffer.new mem capacity limit) (Queue.new mem capacity limit)
  edit : ∀ {b q i}, rep b q → i < q.contents.length → ∀ x,
    rep (Buffer.edit b i x) (Buffer.edit q i x)
  unusedMut : ∀ {b q}, rep b q → rep (Buffer.unusedMut b).1 q ∧
    (Buffer.unusedMut b).2 = (Buffer.unusedMut q).2
  receive : ∀ {b q bytes}, rep b q → q.contents.length + bytes.length ≤ q.capacity →
    rep (Buffer.receive (Buffer.unusedMut b).1 bytes) (Buffer.receive q bytes)
  consume : ∀ {b q n}, rep b q → n ≤ q.contents.length →
    rep (Buffer.consume b n) (Buffer.consume q n)
  grow : ∀ {b q}, rep b q → Alike rep (Buffer.grow mem b) (Queue.grow mem q)

theorem nextPowerOfTwo_pow (n : ℕ) : nextPowerOfTwo n = 0 ∨ ∃ k, nextPowerOfTwo n = 2 ^ k := by
  rw [nextPowerOfTwo]
  split_ifs
  · exact Or.inr ⟨0, rfl⟩
  · by_cases hbig : 64 ≤ (n - 1).log2 + 1
    · exact Or.inl (Nat.mod_eq_zero_of_dvd (Nat.pow_dvd_pow 2 hbig))
    · refine Or.inr ⟨(n - 1).log2 + 1, Nat.mod_eq_of_lt ?_⟩
      exact Nat.pow_lt_pow_right (by omega) (by omega)

theorem checkedCapacity_ok {mem : Memory} {capacity checked : ℕ} {limit : Option ℕ}
    (h : checkedCapacity mem capacity limit = .ok checked) :
    (∃ k, checked = 2 ^ k) ∧ mem.granularity ≤ checked ∧
      ∀ bound, limit = some bound → checked ≤ bound := by
  have hpow : ∃ k, max (nextPowerOfTwo capacity) mem.granularity = 2 ^ k := by
    rcases Nat.le_total (nextPowerOfTwo capacity) mem.granularity with hle | hle
    · rw [Nat.max_eq_right hle]
      exact mem.granularity_pow
    · rw [Nat.max_eq_left hle]
      obtain ⟨k, hk⟩ := mem.granularity_pow
      rcases nextPowerOfTwo_pow capacity with hzero | hpow
      · have hpos := Nat.two_pow_pos k
        omega
      · exact hpow
  simp only [checkedCapacity] at h
  cases limit with
  | none =>
      cases h
      exact ⟨hpow, Nat.le_max_right _ _, fun _ hfalse => by cases hfalse⟩
  | some bound =>
      simp only at h
      split_ifs at h with hlt
      cases h
      refine ⟨hpow, Nat.le_max_right _ _, fun bound' heq => ?_⟩
      cases heq
      exact Nat.not_lt.mp hlt

theorem nextPowerOfTwo_two_pow {k : ℕ} (hk : k < 64) : nextPowerOfTwo (2 ^ k) = 2 ^ k := by
  have hlt : 2 ^ k < 2 ^ 64 := Nat.pow_lt_pow_right (by omega) hk
  rw [nextPowerOfTwo]
  cases k with
  | zero => rfl
  | succ k =>
      have hpos := Nat.two_pow_pos k
      rw [Nat.pow_succ] at hlt ⊢
      have hlog : (2 ^ k * 2 - 1).log2 = k := by
        rw [Nat.log2_eq_iff (by omega), Nat.pow_succ]
        omega
      rw [if_neg (by omega), hlog, Nat.pow_succ, Nat.mod_eq_of_lt hlt]

/-- A power of two is its own capacity. -/
theorem checkedCapacity_pow {mem : Memory} {capacity k : ℕ} {limit : Option ℕ} (hk : k < 64)
    (hpow : capacity = 2 ^ k) (hgranular : mem.granularity ≤ capacity)
    (hlimit : ∀ bound, limit = some bound → capacity ≤ bound) :
    checkedCapacity mem capacity limit = .ok capacity := by
  have hnext : nextPowerOfTwo capacity = capacity := by
    rw [hpow, nextPowerOfTwo_two_pow hk]
  simp only [checkedCapacity, hnext, Nat.max_eq_left hgranular]
  cases limit with
  | none => rfl
  | some bound => exact if_neg (Nat.not_lt.mpr (hlimit bound rfl))

theorem grownCapacity_ok {capacity grown : ℕ} {limit : Option ℕ}
    (h : grownCapacity capacity limit = .ok grown) :
    grown = capacity * 2 ∧ ∀ bound, limit = some bound → grown ≤ bound := by
  simp only [grownCapacity] at h
  cases limit with
  | none =>
      cases h
      exact ⟨rfl, fun _ hfalse => by cases hfalse⟩
  | some bound =>
      simp only at h
      split_ifs at h with hlt
      cases h
      refine ⟨rfl, fun bound' heq => ?_⟩
      cases heq
      exact Nat.not_lt.mp hlt

theorem allocate_ok {mem : Memory} {capacity got : ℕ} (h : allocate mem capacity = .ok got) :
    got = capacity ∧ capacity < 2 ^ 63 := by
  rw [allocate] at h
  split_ifs at h with hfree
  cases h
  exact ⟨rfl, mem.bounded _ hfree⟩

theorem Queue.new_ok {mem : Memory} {capacity : ℕ} {limit : Option ℕ} {queue : Queue}
    (h : Queue.new mem capacity limit = .ok queue) :
    queue.contents = [] ∧ queue.limit = limit := by
  rw [Queue.new] at h
  cases hchecked : checkedCapacity mem capacity limit with
  | error err =>
      rw [hchecked] at h
      cases h
  | ok checked =>
      cases hgot : allocate mem checked with
      | error err =>
          simp only [hchecked, hgot, bind, Except.bind] at h
          cases h
      | ok got =>
          simp only [hchecked, hgot, bind, Except.bind] at h
          cases h
          exact ⟨rfl, rfl⟩

end Csveee.RingBuf
