import Csveee.Io.RingBuf.Buffer
import Mathlib.Logic.Function.Basic
import Mathlib.Tactic.NormNum

/-!
# The mirrored buffer

The same memory mapped twice back to back, so that bytes that wrap around its end are in
view in one piece: an array of `capacity` bytes, indexed modulo the capacity.  Producer and
consumer are counters that wrap at the width of a machine word.
-/

namespace Csveee.RingBuf

/-- One past `usize::MAX`. -/
abbrev wordSize : ℕ := 2 ^ 64

structure MirroredBuf where
  cells : ℕ → Byte
  capacity : ℕ
  limit : Option ℕ
  producer : ℕ
  consumer : ℕ

namespace MirroredBuf

def new (mem : Memory) (capacity : ℕ) (limit : Option ℕ) : Except BufError MirroredBuf := do
  let capacity ← checkedCapacity mem capacity limit
  let capacity ← allocate mem capacity
  return { cells := fun _ => 0, capacity := capacity, limit := limit, producer := 0, consumer := 0 }

/-- `producer.wrapping_sub(consumer)` -/
def readable (b : MirroredBuf) : ℕ := (b.producer + wordSize - b.consumer) % wordSize

def writable (b : MirroredBuf) : ℕ := b.capacity - b.readable

/-- The byte at an address of the doubled mapping. -/
def peek (b : MirroredBuf) (address : ℕ) : Byte := b.cells (address % b.capacity)

def poke (b : MirroredBuf) (address : ℕ) (x : Byte) : MirroredBuf :=
  { b with cells := Function.update b.cells (address % b.capacity) x }

def data (b : MirroredBuf) : Bytes :=
  let offset := b.consumer &&& (b.capacity - 1)
  (List.range b.readable).map fun i => b.peek (offset + i)

def edit (b : MirroredBuf) (i : ℕ) (x : Byte) : MirroredBuf :=
  b.poke ((b.consumer &&& (b.capacity - 1)) + i) x

def unusedMut (b : MirroredBuf) : MirroredBuf × ℕ := (b, b.writable)

/-- Copy bytes to the addresses from `address` on. -/
def copyFrom (b : MirroredBuf) (address : ℕ) : Bytes → MirroredBuf
  | [] => b
  | x :: rest => copyFrom (b.poke address x) (address + 1) rest

/-- `producer.wrapping_add(n)` -/
def produce (b : MirroredBuf) (n : ℕ) : MirroredBuf :=
  { b with producer := (b.producer + n) % wordSize }

/-- `unused_mut()[..n].copy_from_slice(bytes)`, then `produce(n)` -/
def receive (b : MirroredBuf) (bytes : Bytes) : MirroredBuf :=
  (b.copyFrom (b.producer &&& (b.capacity - 1)) bytes).produce bytes.length

/-- `consumer.wrapping_add(n)` -/
def consume (b : MirroredBuf) (n : ℕ) : MirroredBuf :=
  { b with consumer := (b.consumer + n) % wordSize }

def reset (b : MirroredBuf) : MirroredBuf := { b with producer := 0, consumer := 0 }

def grow (mem : Memory) (b : MirroredBuf) : Except BufError MirroredBuf := do
  let capacity ← grownCapacity b.capacity b.limit
  let fresh ← new mem capacity b.limit
  return if 0 < b.readable then fresh.receive b.data else fresh

instance : Buffer MirroredBuf where
  new := new
  capacity := capacity
  readable := readable
  writable := writable
  data := data
  edit := edit
  unusedMut := unusedMut
  receive := receive
  consume := consume
  grow := grow

instance instResets : Resets MirroredBuf where
  reset := reset

/-- The buffer holds the queue's bytes between the counters. -/
structure Rep (mem : Memory) (b : MirroredBuf) (q : Queue) : Prop where
  sound : q.Sound mem
  capacity : b.capacity = q.capacity
  limit : b.limit = q.limit
  consumer : b.consumer < wordSize
  producer : b.producer = (b.consumer + q.contents.length) % wordSize
  /-- The bytes in view lie at the addresses from the consumer on. -/
  cells : ∀ i x, q.contents[i]? = some x → b.peek (b.consumer + i) = x

section

variable {mem : Memory} {b : MirroredBuf} {q : Queue}

/-- A counter that wrapped is the same address. -/
theorem mod_wordSize_mod {capacity : ℕ} (hpow : ∃ k, capacity = 2 ^ k)
    (hbounded : capacity < 2 ^ 63) (n : ℕ) : n % wordSize % capacity = n % capacity := by
  obtain ⟨k, rfl⟩ := hpow
  have hk : k < 63 := (Nat.pow_lt_pow_iff_right (by omega)).mp hbounded
  exact Nat.mod_mod_of_dvd _ (Nat.pow_dvd_pow 2 (by omega))

theorem and_capacity {capacity : ℕ} (hpow : ∃ k, capacity = 2 ^ k) (n : ℕ) :
    n &&& (capacity - 1) = n % capacity := by
  obtain ⟨k, rfl⟩ := hpow
  exact Nat.and_two_pow_sub_one_eq_mod n k

theorem peek_congr {address address' : ℕ}
    (h : address % b.capacity = address' % b.capacity) : b.peek address = b.peek address' :=
  congrArg b.cells h

theorem poke_congr {address address' : ℕ}
    (h : address % b.capacity = address' % b.capacity) (x : Byte) :
    b.poke address x = b.poke address' x := by
  rw [poke, poke, h]

/-- Addresses less than a capacity apart are different cells. -/
theorem mod_ne_of_lt {capacity m n : ℕ} (hlt : m < n) (hnear : n < m + capacity) :
    n % capacity ≠ m % capacity := by
  intro heq
  have hzero := Nat.sub_mod_eq_zero_of_mod_eq heq
  rw [Nat.mod_eq_of_lt (by omega)] at hzero
  omega

theorem peek_poke_self (address : ℕ) (x : Byte) : (b.poke address x).peek address = x :=
  Function.update_self ..

theorem peek_poke_of_ne {address address' : ℕ} (x : Byte)
    (h : address' % b.capacity ≠ address % b.capacity) :
    (b.poke address x).peek address' = b.peek address' :=
  Function.update_of_ne h ..

theorem copyFrom_fields (b : MirroredBuf) (address : ℕ) (bytes : Bytes) :
    (b.copyFrom address bytes).capacity = b.capacity ∧
      (b.copyFrom address bytes).limit = b.limit ∧
      (b.copyFrom address bytes).producer = b.producer ∧
      (b.copyFrom address bytes).consumer = b.consumer := by
  induction bytes generalizing b address with
  | nil => exact ⟨rfl, rfl, rfl, rfl⟩
  | cons x rest ih => exact ih (b.poke address x) (address + 1)

theorem copyFrom_congr (b : MirroredBuf) {address address' : ℕ}
    (h : address % b.capacity = address' % b.capacity) (bytes : Bytes) :
    b.copyFrom address bytes = b.copyFrom address' bytes := by
  induction bytes generalizing b address address' with
  | nil => rfl
  | cons x rest ih =>
      rw [copyFrom, copyFrom, poke_congr h]
      refine ih (b.poke address' x) ?_
      change (address + 1) % b.capacity = (address' + 1) % b.capacity
      rw [Nat.add_mod, h, ← Nat.add_mod]

theorem peek_copyFrom_of_ne (b : MirroredBuf) {address a : ℕ} (bytes : Bytes)
    (h : ∀ j < bytes.length, a % b.capacity ≠ (address + j) % b.capacity) :
    (b.copyFrom address bytes).peek a = b.peek a := by
  induction bytes generalizing b address with
  | nil => rfl
  | cons x rest ih =>
      rw [copyFrom, ih (b.poke address x) fun j hj => ?_,
        peek_poke_of_ne x (by simpa using h 0 (Nat.succ_pos _))]
      have hj' := h (j + 1) (Nat.succ_lt_succ hj)
      rwa [Nat.add_assoc, Nat.add_comm 1 j]

theorem peek_copyFrom (b : MirroredBuf) {address : ℕ} {bytes : Bytes} {j : ℕ} {x : Byte}
    (hx : bytes[j]? = some x) (hfits : bytes.length ≤ b.capacity) :
    (b.copyFrom address bytes).peek (address + j) = x := by
  induction bytes generalizing b address j with
  | nil => cases hx
  | cons y rest ih =>
      rw [List.length_cons] at hfits
      rw [copyFrom]
      cases j with
      | zero =>
          rw [List.getElem?_cons_zero, Option.some.injEq] at hx
          rw [peek_copyFrom_of_ne _ rest fun j hj => ?_, Nat.add_zero, peek_poke_self, hx]
          change address % b.capacity ≠ (address + 1 + j) % b.capacity
          exact (mod_ne_of_lt (by omega) (by omega)).symm
      | succ j =>
          rw [show address + (j + 1) = address + 1 + j by omega]
          exact ih (b.poke address y) hx (by change rest.length ≤ b.capacity; omega)

theorem Rep.readable (h : Rep mem b q) : b.readable = q.contents.length := by
  have hfits := h.sound.fits
  have hbounded := h.sound.bounded
  have hconsumer := h.consumer
  rw [MirroredBuf.readable, h.producer]
  simp only [wordSize] at hconsumer ⊢
  omega

/-- An address in view, whichever way the counter is reduced. -/
theorem Rep.address (h : Rep mem b q) (n : ℕ) :
    ((b.consumer &&& (b.capacity - 1)) + n) % b.capacity = (b.consumer + n) % b.capacity := by
  have hpow := h.sound.power
  rw [← h.capacity] at hpow
  rw [and_capacity hpow, Nat.mod_add_mod]

theorem Rep.data (h : Rep mem b q) : b.data = q.contents := by
  apply List.ext_getElem?
  intro i
  rw [MirroredBuf.data, h.readable, List.getElem?_map]
  by_cases hi : i < q.contents.length
  · rw [List.getElem?_range hi, Option.map_some, peek_congr (h.address i),
      List.getElem?_eq_getElem hi, h.cells i _ (List.getElem?_eq_getElem hi)]
  · rw [List.getElem?_eq_none (by rw [List.length_range]; omega),
      List.getElem?_eq_none (Nat.not_lt.mp hi)]
    rfl

theorem Rep.edit (h : Rep mem b q) {i : ℕ} (hi : i < q.contents.length) (x : Byte) :
    Rep mem (b.edit i x) (Buffer.edit q i x) := by
  have hfits := h.sound.fits
  have hcapacity := h.capacity
  have hlength : (q.contents.set i x).length = q.contents.length := List.length_set ..
  refine ⟨?_, h.capacity, h.limit, h.consumer, ?_, fun j y hy => ?_⟩
  · exact ⟨h.sound.power, h.sound.granular, h.sound.bounded, h.sound.within,
      hlength.trans_le h.sound.fits⟩
  · exact h.producer.trans (by rw [← hlength]; rfl)
  · change (q.contents.set i x)[j]? = some y at hy
    have hj := (List.getElem?_eq_some_iff.mp hy).1
    rw [hlength] at hj
    rw [MirroredBuf.edit, poke_congr (h.address i)]
    change (b.poke (b.consumer + i) x).peek (b.consumer + j) = y
    by_cases heq : j = i
    · rw [heq, List.getElem?_set_self hi, Option.some.injEq] at hy
      rw [heq, peek_poke_self, hy]
    · rw [List.getElem?_set_ne (Ne.symm heq)] at hy
      rw [peek_poke_of_ne, h.cells j y hy]
      rcases Nat.lt_or_gt_of_ne heq with hlt | hlt
      · exact (mod_ne_of_lt (by omega) (by omega)).symm
      · exact mod_ne_of_lt (by omega) (by omega)

theorem Rep.receive (h : Rep mem b q) (bytes : Bytes)
    (hfits : q.contents.length + bytes.length ≤ q.capacity) :
    Rep mem (b.receive bytes) (Buffer.receive q bytes) := by
  have hcapacity := h.capacity
  have hpow := h.sound.power
  have hbounded := h.sound.bounded
  rw [← h.capacity] at hpow hbounded
  have haddress : (b.producer &&& (b.capacity - 1)) % b.capacity =
      (b.consumer + q.contents.length) % b.capacity := by
    rw [and_capacity hpow, Nat.mod_mod, h.producer, mod_wordSize_mod hpow hbounded]
  obtain ⟨hcap, hlim, hprod, hcons⟩ :=
    copyFrom_fields b (b.consumer + q.contents.length) bytes
  have hlength : (q.contents ++ bytes).length = q.contents.length + bytes.length :=
    List.length_append
  rw [MirroredBuf.receive, copyFrom_congr b haddress]
  refine ⟨?_, hcap.trans h.capacity, hlim.trans h.limit, hcons.trans_lt h.consumer, ?_,
    fun j y hy => ?_⟩
  · exact ⟨h.sound.power, h.sound.granular, h.sound.bounded, h.sound.within,
      hlength.trans_le hfits⟩
  · change ((b.copyFrom _ bytes).producer + bytes.length) % wordSize =
      ((b.copyFrom _ bytes).consumer + (q.contents ++ bytes).length) % wordSize
    rw [hprod, hcons, h.producer, hlength, Nat.mod_add_mod, Nat.add_assoc]
  · change (q.contents ++ bytes)[j]? = some y at hy
    change (b.copyFrom (b.consumer + q.contents.length) bytes).peek
      ((b.copyFrom (b.consumer + q.contents.length) bytes).consumer + j) = y
    rw [hcons]
    by_cases hj : j < q.contents.length
    · rw [List.getElem?_append_left hj] at hy
      rw [peek_copyFrom_of_ne b bytes fun k hk => ?_, h.cells j y hy]
      exact (mod_ne_of_lt (by omega) (by omega)).symm
    · rw [List.getElem?_append_right (Nat.not_lt.mp hj)] at hy
      rw [show b.consumer + j = b.consumer + q.contents.length + (j - q.contents.length) by omega]
      exact peek_copyFrom b hy (by omega)

theorem Rep.consume (h : Rep mem b q) {n : ℕ} (hn : n ≤ q.contents.length) :
    Rep mem (b.consume n) (Buffer.consume q n) := by
  have hpow := h.sound.power
  have hbounded := h.sound.bounded
  rw [← h.capacity] at hpow hbounded
  have hlength : (q.contents.drop n).length = q.contents.length - n := List.length_drop
  refine ⟨?_, h.capacity, h.limit, Nat.mod_lt _ (by norm_num), ?_, fun j y hy => ?_⟩
  · exact ⟨h.sound.power, h.sound.granular, h.sound.bounded, h.sound.within,
      hlength.trans_le ((Nat.sub_le _ _).trans h.sound.fits)⟩
  · change b.producer = ((b.consumer + n) % wordSize + (q.contents.drop n).length) % wordSize
    rw [h.producer, hlength, Nat.mod_add_mod, Nat.add_assoc, Nat.add_sub_cancel' hn]
  · change (q.contents.drop n)[j]? = some y at hy
    rw [List.getElem?_drop] at hy
    have hcell := h.cells (n + j) y hy
    rw [← hcell]
    refine congrArg b.cells ?_
    change ((b.consumer + n) % wordSize + j) % b.capacity = (b.consumer + (n + j)) % b.capacity
    rw [Nat.add_mod, mod_wordSize_mod hpow hbounded, ← Nat.add_mod, Nat.add_assoc]

theorem Rep.reset (h : Rep mem b q) : Rep mem b.reset q.reset where
  sound := h.sound.reset
  capacity := h.capacity
  limit := h.limit
  consumer := Nat.two_pow_pos 64
  producer := rfl
  cells := by
    intro i x hx
    cases hx

theorem alike_new (mem : Memory) (capacity : ℕ) (limit : Option ℕ) :
    Alike (Rep mem) (new mem capacity limit) (Queue.new mem capacity limit) := by
  rw [new, Queue.new]
  cases hchecked : checkedCapacity mem capacity limit with
  | error err => rfl
  | ok checked =>
      obtain ⟨hpow, hgranular, hlimit⟩ := checkedCapacity_ok hchecked
      cases hgot : allocate mem checked with
      | error err =>
          simp only [hgot, bind, Except.bind]
          rfl
      | ok got =>
          obtain ⟨rfl, hbounded⟩ := allocate_ok hgot
          simp only [hgot, bind, Except.bind]
          exact {
            sound := ⟨hpow, hgranular, hbounded, hlimit, Nat.zero_le _⟩
            capacity := rfl
            limit := rfl
            consumer := by norm_num
            producer := rfl
            cells := fun i x hx => by cases hx }

theorem Rep.grow (h : Rep mem b q) : Alike (Rep mem) (b.grow mem) (q.grow mem) := by
  obtain ⟨k, hk⟩ := h.sound.power
  have hbounded := h.sound.bounded
  have hgranular := h.sound.granular
  have hfits := h.sound.fits
  rw [MirroredBuf.grow, Queue.grow, h.capacity, h.limit]
  cases hgrown : grownCapacity q.capacity q.limit with
  | error err => rfl
  | ok grown =>
      obtain ⟨rfl, hlimit⟩ := grownCapacity_ok hgrown
      have hchecked : checkedCapacity mem (q.capacity * 2) q.limit = .ok (q.capacity * 2) := by
        have hpow : k + 1 < 64 := by
          rw [hk] at hbounded
          exact Nat.succ_lt_succ ((Nat.pow_lt_pow_iff_right (by omega)).mp hbounded)
        refine checkedCapacity_pow hpow (by rw [hk, Nat.pow_succ]) (by omega) hlimit
      simp only [bind, Except.bind, new, hchecked]
      cases hgot : allocate mem (q.capacity * 2) with
      | error err =>
          simp only
          rfl
      | ok got =>
          obtain ⟨rfl, hroom⟩ := allocate_ok hgot
          have hempty : Rep mem ⟨fun _ => 0, q.capacity * 2, q.limit, 0, 0⟩
              ⟨[], q.capacity * 2, q.limit⟩ := {
            sound := ⟨⟨k + 1, by simp only [hk, Nat.pow_succ]⟩, by simp only; omega, hroom, hlimit,
              Nat.zero_le _⟩
            capacity := rfl
            limit := rfl
            consumer := by norm_num
            producer := rfl
            cells := fun i x hx => by cases hx }
          simp only [pure, Except.pure]
          rw [h.readable, h.data]
          by_cases hsome : 0 < q.contents.length
          · rw [if_pos hsome]
            exact hempty.receive q.contents (by simp only [List.length_nil]; omega)
          · rw [if_neg hsome]
            have hnil : q.contents = [] := List.length_eq_zero_iff.mp (by omega)
            change Rep mem _ { q with capacity := q.capacity * 2 }
            rw [hnil]
            exact hempty

end

/-- A mirrored buffer is a queue. -/
theorem represents (mem : Memory) : Represents mem (Rep mem) where
  sound h := h.sound
  capacity h := h.capacity
  readable h := h.readable
  writable {b q} h := by
    change b.capacity - b.readable = _
    rw [h.readable, h.capacity]
  data h := h.data
  new := alike_new mem
  edit h hi x := h.edit hi x
  unusedMut {b q} h := ⟨h, by
    change b.capacity - b.readable = _
    rw [h.readable, h.capacity]
    rfl⟩
  receive h hfits := h.receive _ hfits
  consume h hn := h.consume hn
  grow h := h.grow

end MirroredBuf

end Csveee.RingBuf
