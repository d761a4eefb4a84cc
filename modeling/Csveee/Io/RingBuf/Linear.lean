import Csveee.Io.RingBuf.Buffer

/-!
# The linear buffer

A heap buffer that keeps its readable bytes contiguous by moving them to the front before
each write.
-/

namespace Csveee.RingBuf

structure LinearBuf where
  buf : Bytes
  head : ℕ
  tail : ℕ
  limit : Option ℕ

namespace LinearBuf

def new (mem : Memory) (capacity : ℕ) (limit : Option ℕ) : Except BufError LinearBuf := do
  let capacity ← checkedCapacity mem capacity limit
  let capacity ← allocate mem capacity
  return { buf := List.replicate capacity 0, head := 0, tail := 0, limit := limit }

def readable (b : LinearBuf) : ℕ := b.tail - b.head

def writable (b : LinearBuf) : ℕ := b.buf.length - b.readable

def data (b : LinearBuf) : Bytes := Slice.slice b.buf b.head (b.tail - b.head)

def edit (b : LinearBuf) (i : ℕ) (x : Byte) : LinearBuf :=
  { b with buf := b.buf.set (b.head + i) x }

def unusedMut (b : LinearBuf) : LinearBuf × ℕ :=
  let b := if b.head ≠ 0 then
      { b with buf := Slice.overlay b.buf 0 b.data, tail := b.tail - b.head, head := 0 }
    else b
  (b, b.buf.length - b.tail)

def produce (b : LinearBuf) (n : ℕ) : LinearBuf := { b with tail := b.tail + n }

/-- `buf[tail..][..n].copy_from_slice(bytes)`, then `produce(n)` -/
def receive (b : LinearBuf) (bytes : Bytes) : LinearBuf :=
  produce { b with buf := Slice.overlay b.buf b.tail bytes } bytes.length

def reset (b : LinearBuf) : LinearBuf := { b with head := 0, tail := 0 }

def consume (b : LinearBuf) (n : ℕ) : LinearBuf :=
  let b := { b with head := b.head + n }
  -- nothing left to move
  if b.head = b.tail then b.reset else b

/-- `Vec::resize` with zeroes. -/
def grow (mem : Memory) (b : LinearBuf) : Except BufError LinearBuf := do
  let capacity ← grownCapacity b.buf.length b.limit
  let capacity ← allocate mem capacity
  return { b with buf := b.buf ++ List.replicate (capacity - b.buf.length) 0 }

instance : Buffer LinearBuf where
  new := new
  capacity b := b.buf.length
  readable := readable
  writable := writable
  data := data
  edit := edit
  unusedMut := unusedMut
  receive := receive
  consume := consume
  grow := grow

instance instResets : Resets LinearBuf where
  reset := reset

/-- The buffer holds the queue's bytes between `head` and `tail`. -/
structure Rep (mem : Memory) (b : LinearBuf) (q : Queue) : Prop where
  sound : q.Sound mem
  data : b.data = q.contents
  capacity : b.buf.length = q.capacity
  limit : b.limit = q.limit
  ordered : b.head ≤ b.tail
  within : b.tail ≤ b.buf.length

section

variable {mem : Memory} {b : LinearBuf} {q : Queue}

theorem Rep.length (h : Rep mem b q) : b.tail - b.head = q.contents.length := by
  have hordered := h.ordered
  have hwithin := h.within
  rw [← h.data, LinearBuf.data, Slice.length_slice_of_le _ _ _ (by omega)]

theorem alike_new (mem : Memory) (capacity : ℕ) (limit : Option ℕ) :
    Alike (Rep mem) (new mem capacity limit) (Queue.new mem capacity limit) := by
  rw [new, Queue.new]
  cases hchecked : checkedCapacity mem capacity limit with
  | error err => rfl
  | ok checked =>
      obtain ⟨hpow, hgranular, hlimit⟩ := checkedCapacity_ok hchecked
      cases hgot : allocate mem checked with
      | error err =>
          simp only [hgot, bind, Except.bind]
          rfl
      | ok got =>
          obtain ⟨rfl, hbounded⟩ := allocate_ok hgot
          simp only [hgot, bind, Except.bind]
          exact {
            sound := ⟨hpow, hgranular, hbounded, hlimit, Nat.zero_le _⟩
            data := rfl
            capacity := List.length_replicate
            limit := rfl
            ordered := le_rfl
            within := Nat.zero_le _ }

theorem Rep.edit (h : Rep mem b q) (i : ℕ) (x : Byte) :
    Rep mem (b.edit i x) (Buffer.edit q i x) := by
  have hlength := h.length
  have hordered := h.ordered
  have hwithin := h.within
  refine ⟨?_, ?_, ?_, h.limit, h.ordered, ?_⟩
  · exact ⟨h.sound.power, h.sound.granular, h.sound.bounded, h.sound.within,
      (List.length_set ..).trans_le h.sound.fits⟩
  · have hdata := h.data
    rw [LinearBuf.data, Slice.slice] at hdata
    rw [LinearBuf.data, Slice.slice, LinearBuf.edit]
    simp only
    rw [List.drop_set, if_neg (by omega), List.take_set, Nat.add_sub_cancel_left, hdata]
    rfl
  · exact (List.length_set ..).trans h.capacity
  · exact h.within.trans_eq (List.length_set ..).symm

theorem Rep.unusedMut (h : Rep mem b q) :
    Rep mem b.unusedMut.1 q ∧ b.unusedMut.2 = q.capacity - q.contents.length ∧
      b.unusedMut.1.head = 0 := by
  have hlength := h.length
  have hordered := h.ordered
  have hwithin := h.within
  have hdata : b.data.length = b.tail - b.head := by rw [h.data, hlength]
  rw [LinearBuf.unusedMut]
  by_cases hhead : b.head ≠ 0
  · simp only [if_pos hhead]
    have hover : (Slice.overlay b.buf 0 b.data).length = b.buf.length :=
      Slice.length_overlay (by omega)
    refine ⟨⟨h.sound, ?_, hover.trans h.capacity, h.limit, Nat.zero_le _, ?_⟩, ?_, trivial⟩
    · rw [LinearBuf.data]
      simp only [Nat.sub_zero]
      rw [← hdata, Slice.slice_overlay_self (by omega), h.data]
    · simp only [hover]
      omega
    · simp only [hover]
      rw [h.capacity, ← hlength]
  · simp only [if_neg hhead]
    have hzero : b.head = 0 := not_not.mp hhead
    refine ⟨h, ?_, hzero⟩
    rw [h.capacity, ← hlength, hzero, Nat.sub_zero]

theorem Rep.receive (h : Rep mem b q) (hhead : b.head = 0) {bytes : Bytes}
    (hfits : q.contents.length + bytes.length ≤ q.capacity) :
    Rep mem (b.receive bytes) (Buffer.receive q bytes) := by
  have hlength := h.length
  have hcapacity := h.capacity
  have hover : (Slice.overlay b.buf b.tail bytes).length = b.buf.length :=
    Slice.length_overlay (by omega)
  refine ⟨?_, ?_, hover.trans h.capacity, h.limit, ?_, ?_⟩
  · refine ⟨h.sound.power, h.sound.granular, h.sound.bounded, h.sound.within, ?_⟩
    exact (List.length_append ..).trans_le hfits
  · have hdata := h.data
    rw [LinearBuf.data] at hdata
    rw [LinearBuf.data, LinearBuf.receive, produce]
    simp only
    rw [show b.tail + bytes.length - b.head = b.tail - b.head + bytes.length by omega,
      Slice.slice_overlay_append h.ordered (by omega), hdata]
    rfl
  · exact h.ordered.trans (Nat.le_add_right _ _)
  · rw [LinearBuf.receive, produce]
    simp only [hover]
    omega

theorem Rep.consume (h : Rep mem b q) {n : ℕ} (hn : n ≤ q.contents.length) :
    Rep mem (b.consume n) (Buffer.consume q n) := by
  have hlength := h.length
  have hordered := h.ordered
  have hsound : (Buffer.consume q n).Sound mem :=
    ⟨h.sound.power, h.sound.granular, h.sound.bounded, h.sound.within,
      (List.length_drop ..).trans_le ((Nat.sub_le _ _).trans h.sound.fits)⟩
  rw [LinearBuf.consume]
  simp only
  split_ifs with hempty
  · refine ⟨hsound, ?_, h.capacity, h.limit, le_rfl, Nat.zero_le _⟩
    have hnil : q.contents.drop n = [] := List.drop_eq_nil_of_le (by omega)
    exact (Slice.slice_zero _ _).trans hnil.symm
  · refine ⟨hsound, ?_, h.capacity, h.limit, by simp only; omega, h.within⟩
    have hdata := h.data
    rw [LinearBuf.data, Slice.slice] at hdata
    rw [LinearBuf.data, Slice.slice]
    simp only
    change _ = q.contents.drop n
    rw [← hdata, List.drop_take, List.drop_drop, Nat.sub_add_eq]

theorem Rep.reset (h : Rep mem b q) : Rep mem b.reset q.reset :=
  ⟨h.sound.reset, Slice.slice_zero _ _, h.capacity, h.limit, le_rfl, Nat.zero_le _⟩

theorem Rep.grow (h : Rep mem b q) : Alike (Rep mem) (b.grow mem) (q.grow mem) := by
  rw [LinearBuf.grow, Queue.grow, h.capacity, h.limit]
  cases hgrown : grownCapacity q.capacity q.limit with
  | error err => rfl
  | ok grown =>
      obtain ⟨rfl, hlimit⟩ := grownCapacity_ok hgrown
      cases hgot : allocate mem (q.capacity * 2) with
      | error err =>
          simp only [hgot, bind, Except.bind]
          rfl
      | ok got =>
          obtain ⟨rfl, hbounded⟩ := allocate_ok hgot
          simp only [hgot, bind, Except.bind]
          obtain ⟨k, hk⟩ := h.sound.power
          have hgranular := h.sound.granular
          have hfits := h.sound.fits
          have hordered := h.ordered
          have hwithin := h.within
          refine ⟨⟨⟨k + 1, by simp only [hk, Nat.pow_succ]⟩, by simp only; omega, hbounded, hlimit,
            by simp only; omega⟩, ?_, ?_, rfl, h.ordered, ?_⟩
          · rw [LinearBuf.data]
            simp only
            rw [Slice.slice_append_of_le _ _ _ _ (by omega)]
            exact h.data
          · simp only [List.length_append, List.length_replicate, h.capacity]
            omega
          · simp only [List.length_append]
            omega

end

/-- A linear buffer is a queue. -/
theorem represents (mem : Memory) : Represents mem (Rep mem) where
  sound h := h.sound
  capacity h := h.capacity
  readable h := h.length
  writable {b q} h := by
    change b.buf.length - (b.tail - b.head) = _
    rw [h.length, h.capacity]
  data h := h.data
  new := alike_new mem
  edit h _ x := h.edit _ x
  unusedMut h := ⟨h.unusedMut.1, h.unusedMut.2.1⟩
  receive h hfits := h.unusedMut.1.receive h.unusedMut.2.2 hfits
  consume h hn := h.consume hn
  grow h := h.grow

end LinearBuf

end Csveee.RingBuf
