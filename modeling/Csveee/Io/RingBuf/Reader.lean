import Csveee.Core.Error
import Csveee.Io.RingBuf.Linear
import Csveee.Io.RingBuf.Mirrored

/-!
# The ring-buffer reader

A chunk reader over a buffer and a byte source that reads short.  Over either buffer type
it shows the same window onto the source.
-/

namespace Csveee.RingBuf

/-- A byte source: the bytes that are left, and how many each `read` is willing to return,
or the error it fails with. -/
structure Source where
  rest : Bytes
  willing : ℕ → Except IoError ℕ

/-- `read` into a slice of `len > 0` bytes: at least one byte until the end, then none.
A call that fails has read nothing. -/
def Source.read (src : Source) (len : ℕ) : Source × Except IoError Bytes :=
  let later := fun call => src.willing (call + 1)
  match src.willing 0 with
  | .error err => (⟨src.rest, later⟩, .error err)
  | .ok willing =>
      let n := min (max 1 willing) len
      (⟨src.rest.drop n, later⟩, .ok (src.rest.take n))

theorem Source.length_read_le {src later : Source} {len : ℕ} {bytes : Bytes}
    (h : src.read len = (later, .ok bytes)) : bytes.length ≤ len := by
  rw [read] at h
  cases hwilling : src.willing 0 <;> rw [hwilling] at h <;> cases h
  rw [List.length_take]
  omega

/-- Why a `fill` fails. -/
inductive FillError
  | buf (err : BufError)
  | read (err : IoError)
  deriving DecidableEq

/-- A failed `fill`, as the I/O error it is reported as. -/
def FillError.toIoError (report : BufError → IoError) : FillError → IoError
  | .buf err => report err
  | .read err => err

structure RingBufChunkReader (B : Type) where
  buf : B
  src : Source
  /-- Bytes left in the source, `none` if unknown. -/
  fileRemaining : Option ℕ
  chunkRemaining : ℕ
  /-- Maximum bytes per `read` call. -/
  readCap : ℕ

/-- What is done with a reader. -/
inductive Op
  | fill (n : ℕ)
  | consume (n : ℕ)
  /-- `buffer_mut()[i] = b` -/
  | edit (i : ℕ) (b : Byte)
  deriving DecidableEq, Repr

/-- What is seen of a reader after an operation. -/
structure Observation where
  result : Except FillError Unit
  buffer : Bytes
  remaining : ℕ
  capacity : ℕ
  deriving DecidableEq

namespace RingBufChunkReader

section

variable {B : Type} [Buffer B] (mem : Memory)

def readIntoBuf (reader : RingBufChunkReader B) : RingBufChunkReader B × Except IoError ℕ :=
  let (buf, len) := Buffer.unusedMut reader.buf
  let toRead := min len reader.readCap
  let toRead := match reader.fileRemaining with
    | some left => min toRead left
    | none => toRead
  if toRead = 0 then ({ reader with buf := buf }, .ok 0)
  else
    match reader.src.read toRead with
    | (src, .error err) => ({ reader with buf := buf, src := src }, .error err)
    | (src, .ok bytes) =>
        ({ reader with
          buf := Buffer.receive buf bytes
          src := src
          fileRemaining := reader.fileRemaining.map (· - bytes.length) }, .ok bytes.length)

def buffer (reader : RingBufChunkReader B) : Bytes := Buffer.data reader.buf

/-- The loop of `fill`.  Each iteration reads a byte at least, so the request bounds
them. -/
def fillLoop (n : ℕ) : ℕ → RingBufChunkReader B → RingBufChunkReader B × Except FillError Unit
  | 0, reader => (reader, .ok ())
  | fuel + 1, reader =>
      if Buffer.readable reader.buf < n ∧ reader.fileRemaining.all (0 < ·) then
        match if Buffer.writable reader.buf = 0 then Buffer.grow mem reader.buf
          else .ok reader.buf with
        | .error err => (reader, .error (.buf err))
        | .ok buf =>
            match readIntoBuf { reader with buf := buf } with
            | (reader, .error err) => (reader, .error (.read err))
            | (reader, .ok read) =>
                if read = 0 then (reader, .ok ()) else fillLoop n fuel reader
      else (reader, .ok ())

/-- `fill`: the reader it leaves behind, also where it fails. -/
def fill (reader : RingBufChunkReader B) (n : ℕ) :
    RingBufChunkReader B × Except FillError Unit :=
  reader.fillLoop mem n n

def consume (reader : RingBufChunkReader B) (n : ℕ) : RingBufChunkReader B :=
  { reader with
    chunkRemaining := reader.chunkRemaining - n
    buf := Buffer.consume reader.buf n }

def remainingInChunk (reader : RingBufChunkReader B) : ℕ := reader.chunkRemaining

def step (reader : RingBufChunkReader B) : Op → RingBufChunkReader B × Except FillError Unit
  | .fill n => reader.fill mem n
  | .consume n => (reader.consume n, .ok ())
  | .edit i b => ({ reader with buf := Buffer.edit reader.buf i b }, .ok ())

/-- The operation keeps to the bytes in view. -/
def Allows (reader : RingBufChunkReader B) : Op → Prop
  | .fill _ => True
  | .consume n => n ≤ reader.buffer.length
  | .edit i _ => i < reader.buffer.length

/-- The operations keep to the bytes in view, one after the other. -/
def AllowsAll (reader : RingBufChunkReader B) : List Op → Prop
  | [] => True
  | op :: ops => reader.Allows op ∧ AllowsAll (reader.step mem op).1 ops

def after (reader : RingBufChunkReader B) : List Op → RingBufChunkReader B
  | [] => reader
  | op :: ops => after (reader.step mem op).1 ops

def observe (reader : RingBufChunkReader B) : List Op → List Observation
  | [] => []
  | op :: ops =>
      let (next, result) := reader.step mem op
      ⟨result, next.buffer, next.remainingInChunk, Buffer.capacity next.buf⟩ :: observe next ops

end

/-- Two readers that differ in the buffer only, which one represents with the other. -/
structure Same {B : Type} (rep : B → Queue → Prop) (reader : RingBufChunkReader B)
    (spec : RingBufChunkReader Queue) : Prop where
  buf : rep reader.buf spec.buf
  src : reader.src = spec.src
  fileRemaining : reader.fileRemaining = spec.fileRemaining
  chunkRemaining : reader.chunkRemaining = spec.chunkRemaining
  readCap : reader.readCap = spec.readCap

section

variable {B : Type} [Buffer B] {mem : Memory} {rep : B → Queue → Prop}
  {reader : RingBufChunkReader B} {spec : RingBufChunkReader Queue}

theorem readIntoBuf_same (hrep : Represents mem rep) (h : Same rep reader spec) :
    reader.readIntoBuf.2 = spec.readIntoBuf.2 ∧
      Same rep reader.readIntoBuf.1 spec.readIntoBuf.1 := by
  obtain ⟨hunused, hlen⟩ := hrep.unusedMut h.buf
  have hfits := (hrep.sound h.buf).fits
  have hspec : (Buffer.unusedMut spec.buf).1 = spec.buf := rfl
  have hspecLen : (Buffer.unusedMut spec.buf).2 = spec.buf.capacity - spec.buf.contents.length :=
    rfl
  simp only [readIntoBuf, h.src, h.fileRemaining, h.readCap, hlen, hspec, hspecLen]
  generalize htoRead : (match spec.fileRemaining with
    | some left => min (min (spec.buf.capacity - spec.buf.contents.length) spec.readCap) left
    | none => min (spec.buf.capacity - spec.buf.contents.length) spec.readCap) = toRead
  by_cases hzero : toRead = 0
  · simp only [if_pos hzero]
    exact ⟨trivial, hunused, rfl, rfl, h.chunkRemaining, rfl⟩
  · simp only [if_neg hzero]
    rcases hread : spec.src.read toRead with ⟨src, err | bytes⟩
    · exact ⟨rfl, hunused, rfl, rfl, h.chunkRemaining, rfl⟩
    · refine ⟨rfl, ?_, rfl, rfl, h.chunkRemaining, rfl⟩
      refine hrep.receive h.buf ?_
      have hbytes := Source.length_read_le hread
      have hle : toRead ≤ spec.buf.capacity - spec.buf.contents.length := by
        rw [← htoRead]
        split <;> omega
      omega

theorem grow_same (hrep : Represents mem rep) (h : Same rep reader spec) :
    Alike rep
      (if Buffer.writable reader.buf = 0 then Buffer.grow mem reader.buf else .ok reader.buf)
      (if Buffer.writable spec.buf = 0 then Buffer.grow mem spec.buf else .ok spec.buf) := by
  have hwritable : Buffer.writable reader.buf = Buffer.writable spec.buf := hrep.writable h.buf
  rw [hwritable]
  split_ifs
  · exact hrep.grow h.buf
  · exact h.buf

theorem fillLoop_same (hrep : Represents mem rep) (h : Same rep reader spec) (n fuel : ℕ) :
    (reader.fillLoop mem n fuel).2 = (spec.fillLoop mem n fuel).2 ∧
      Same rep (reader.fillLoop mem n fuel).1 (spec.fillLoop mem n fuel).1 := by
  induction fuel generalizing reader spec with
  | zero => exact ⟨rfl, h⟩
  | succ fuel ih =>
      have hreadable : Buffer.readable reader.buf = Buffer.readable spec.buf :=
        hrep.readable h.buf
      have hgrow := grow_same hrep h
      rw [fillLoop, fillLoop, hreadable, h.fileRemaining]
      by_cases hmore : Buffer.readable spec.buf < n ∧ spec.fileRemaining.all (0 < ·)
      · rw [if_pos hmore, if_pos hmore]
        generalize hleft : (if Buffer.writable reader.buf = 0 then Buffer.grow mem reader.buf
          else .ok reader.buf) = left at hgrow ⊢
        generalize hright : (if Buffer.writable spec.buf = 0 then Buffer.grow mem spec.buf
          else .ok spec.buf) = right at hgrow ⊢
        cases left with
        | error err =>
            cases right with
            | error err' => exact ⟨congrArg (Except.error ∘ FillError.buf) hgrow, h⟩
            | ok buf' => exact hgrow.elim
        | ok buf =>
            cases right with
            | error err' => exact hgrow.elim
            | ok buf' =>
                have hgrown : Same rep { reader with buf := buf } { spec with buf := buf' } :=
                  ⟨hgrow, h.src, h.fileRemaining, h.chunkRemaining, h.readCap⟩
                obtain ⟨hread, hnext⟩ := readIntoBuf_same hrep hgrown
                simp only [h.fileRemaining] at hread hnext ⊢
                rcases hright : readIntoBuf { spec with buf := buf' } with ⟨specNext, result⟩
                generalize ({ reader with buf := buf, fileRemaining := spec.fileRemaining } :
                  RingBufChunkReader B) = mid at hread hnext ⊢
                rcases hmid : mid.readIntoBuf with ⟨next, midResult⟩
                rw [hright, hmid] at hread hnext
                cases hread
                cases result with
                | error err => exact ⟨rfl, hnext⟩
                | ok read =>
                    simp only
                    split_ifs
                    · exact ⟨rfl, hnext⟩
                    · exact ih hnext
      · rw [if_neg hmore, if_neg hmore]
        exact ⟨rfl, h⟩

theorem step_same (hrep : Represents mem rep) (h : Same rep reader spec) {op : Op}
    (hallows : spec.Allows op) :
    (reader.step mem op).2 = (spec.step mem op).2 ∧
      Same rep (reader.step mem op).1 (spec.step mem op).1 := by
  cases op with
  | fill n => exact fillLoop_same hrep h n n
  | consume n =>
      refine ⟨rfl, hrep.consume h.buf hallows, h.src, h.fileRemaining, ?_, h.readCap⟩
      exact congrArg (· - n) h.chunkRemaining
  | edit i b =>
      exact ⟨rfl, hrep.edit h.buf hallows b, h.src, h.fileRemaining, h.chunkRemaining, h.readCap⟩

theorem buffer_same (hrep : Represents mem rep) (h : Same rep reader spec) :
    reader.buffer = spec.buffer := hrep.data h.buf

theorem allows_same (hrep : Represents mem rep) (h : Same rep reader spec) (op : Op) :
    reader.Allows op ↔ spec.Allows op := by
  cases op <;> simp only [Allows, buffer_same hrep h]

/-- The same operations are allowed on both, and the same is seen of them. -/
theorem run_same (hrep : Represents mem rep) (h : Same rep reader spec) (ops : List Op) :
    (reader.AllowsAll mem ops ↔ spec.AllowsAll mem ops) ∧
      (spec.AllowsAll mem ops → reader.observe mem ops = spec.observe mem ops ∧
        Same rep (reader.after mem ops) (spec.after mem ops)) := by
  induction ops generalizing reader spec with
  | nil => exact ⟨Iff.rfl, fun _ => ⟨rfl, h⟩⟩
  | cons op ops ih =>
      simp only [AllowsAll, observe, after]
      rw [allows_same hrep h op]
      constructor
      · refine and_congr_right fun hallows => ?_
        exact (ih (step_same hrep h hallows).2).1
      · rintro ⟨hallows, hrest⟩
        obtain ⟨hresult, hnext⟩ := step_same hrep h hallows
        obtain ⟨hseen, hafter⟩ := (ih hnext).2 hrest
        refine ⟨?_, hafter⟩
        rw [hseen, hresult, buffer_same hrep hnext,
          show Buffer.capacity (reader.step mem op).1.buf =
            Buffer.capacity (spec.step mem op).1.buf from hrep.capacity hnext.buf,
          remainingInChunk, remainingInChunk, hnext.chunkRemaining]

end

/-- The source with the edits, and how much of it was consumed. -/
def track : Bytes × ℕ → Op → Bytes × ℕ
  | (source, consumed), .fill _ => (source, consumed)
  | (source, consumed), .consume n => (source, consumed + n)
  | (source, consumed), .edit i b => (source.set (consumed + i) b, consumed)

/-- The buffer and what is left of the source make up the rest of the edited source. -/
structure Window (mem : Memory) (limit : Option ℕ) (chunkLength : ℕ) (tracked : Bytes × ℕ)
    (spec : RingBufChunkReader Queue) : Prop where
  sound : spec.buf.Sound mem
  limit : spec.buf.limit = limit
  pending : spec.buf.contents ++ spec.src.rest = tracked.1.drop tracked.2
  file : spec.fileRemaining = none ∨ spec.fileRemaining = some spec.src.rest.length
  remaining : spec.chunkRemaining = chunkLength - tracked.2
  readCap : 0 < spec.readCap

section

variable {mem : Memory} {limit : Option ℕ} {chunkLength : ℕ} {tracked : Bytes × ℕ}
  {spec : RingBufChunkReader Queue}

/-- A read with room in the buffer takes a byte unless the source is exhausted; one that fails
takes none. -/
theorem Window.readIntoBuf (h : Window mem limit chunkLength tracked spec)
    (hroom : spec.buf.contents.length < spec.buf.capacity)
    (hleft : spec.fileRemaining.all (0 < ·) = true) :
    Window mem limit chunkLength tracked spec.readIntoBuf.1 ∧
      spec.buf.contents <+: spec.readIntoBuf.1.buf.contents ∧
      ∀ read, spec.readIntoBuf.2 = .ok read →
        (read = 0 → spec.readIntoBuf.1.src.rest = []) ∧
          spec.readIntoBuf.1.buf.contents.length = spec.buf.contents.length + read := by
  have hreadCap := h.readCap
  have hunused : Buffer.unusedMut spec.buf =
      (spec.buf, spec.buf.capacity - spec.buf.contents.length) := rfl
  simp only [RingBufChunkReader.readIntoBuf, hunused]
  generalize htoRead : (match spec.fileRemaining with
    | some left => min (min (spec.buf.capacity - spec.buf.contents.length) spec.readCap) left
    | none => min (spec.buf.capacity - spec.buf.contents.length) spec.readCap) = toRead
  have hpos : 0 < toRead ∧ toRead ≤ spec.buf.capacity - spec.buf.contents.length := by
    rw [← htoRead]
    cases hfile : spec.fileRemaining with
    | none =>
        simp only
        omega
    | some left =>
        rw [hfile, Option.all_some, decide_eq_true_eq] at hleft
        simp only
        omega
  simp only [if_neg (Nat.pos_iff_ne_zero.mp hpos.1), Source.read]
  cases hwilling : spec.src.willing 0 with
  | error err =>
      refine ⟨?_, List.prefix_rfl, fun read hread => ?_⟩
      · exact ⟨h.sound, h.limit, h.pending, h.file, h.remaining, h.readCap⟩
      · cases hread
  | ok willing =>
      simp only
      set count := min (max 1 willing) toRead with hcount
      have hlength : (spec.src.rest.take count).length = min count spec.src.rest.length :=
        List.length_take
      refine ⟨?_, List.prefix_append _ _, fun read hread => ?_⟩
      · refine ⟨?_, h.limit, ?_, ?_, h.remaining, h.readCap⟩
        · refine ⟨h.sound.power, h.sound.granular, h.sound.bounded, h.sound.within, ?_⟩
          change (spec.buf.contents ++ spec.src.rest.take count).length ≤ spec.buf.capacity
          rw [List.length_append]
          omega
        · rw [← h.pending]
          change spec.buf.contents ++ spec.src.rest.take count ++ spec.src.rest.drop count = _
          rw [List.append_assoc, List.take_append_drop]
        · refine h.file.imp (fun hfile => by rw [hfile]; rfl) fun hfile => ?_
          rw [hfile, Option.map_some, hlength, List.length_drop, Option.some.injEq]
          omega
      · cases hread
        refine ⟨fun hnone => ?_, List.length_append⟩
        have hempty : spec.src.rest = [] := List.length_eq_zero_iff.mp (by omega)
        rw [hempty, List.drop_nil]

theorem Window.grow (h : Window mem limit chunkLength tracked spec) {buf : Queue}
    (hgrow : (if Buffer.writable spec.buf = 0 then Buffer.grow mem spec.buf
      else .ok spec.buf) = .ok buf) :
    Window mem limit chunkLength tracked { spec with buf := buf } ∧
      buf.contents = spec.buf.contents ∧ buf.contents.length < buf.capacity := by
  have hfits := h.sound.fits
  have hwritable : Buffer.writable spec.buf = spec.buf.capacity - spec.buf.contents.length := rfl
  split_ifs at hgrow with hfull
  · change Queue.grow mem spec.buf = .ok buf at hgrow
    rw [Queue.grow] at hgrow
    cases hgrown : grownCapacity spec.buf.capacity spec.buf.limit with
    | error err =>
        rw [hgrown] at hgrow
        cases hgrow
    | ok grown =>
        obtain ⟨rfl, hlimit⟩ := grownCapacity_ok hgrown
        cases hgot : allocate mem (spec.buf.capacity * 2) with
        | error err =>
            simp only [hgrown, hgot, bind, Except.bind] at hgrow
            cases hgrow
        | ok got =>
            obtain ⟨rfl, hbounded⟩ := allocate_ok hgot
            simp only [hgrown, hgot, bind, Except.bind] at hgrow
            cases hgrow
            obtain ⟨k, hk⟩ := h.sound.power
            have hgranular := h.sound.granular
            have hpos := Nat.two_pow_pos k
            refine ⟨⟨⟨⟨k + 1, by simp only [hk, Nat.pow_succ]⟩, by simp only; omega, hbounded,
              hlimit, by simp only; omega⟩, h.limit, h.pending, h.file, h.remaining, h.readCap⟩,
              rfl, ?_⟩
            simp only
            omega
  · cases hgrow
    exact ⟨h, rfl, by omega⟩

theorem Window.fillLoop (h : Window mem limit chunkLength tracked spec) (n fuel : ℕ)
    (hfuel : n ≤ fuel + spec.buf.contents.length) :
    Window mem limit chunkLength tracked (spec.fillLoop mem n fuel).1 ∧
      spec.buf.contents <+: (spec.fillLoop mem n fuel).1.buf.contents ∧
      ((spec.fillLoop mem n fuel).2 = .ok () →
        n ≤ (spec.fillLoop mem n fuel).1.buf.contents.length ∨
          (spec.fillLoop mem n fuel).1.src.rest = []) := by
  have hreadable : Buffer.readable spec.buf = spec.buf.contents.length := rfl
  induction fuel generalizing spec with
  | zero =>
      rw [Nat.zero_add] at hfuel
      exact ⟨h, List.prefix_rfl, fun _ => Or.inl hfuel⟩
  | succ fuel ih =>
      rw [RingBufChunkReader.fillLoop, hreadable]
      by_cases hmore : spec.buf.contents.length < n ∧ spec.fileRemaining.all (0 < ·)
      · rw [if_pos hmore]
        generalize hgrow : (if Buffer.writable spec.buf = 0 then Buffer.grow mem spec.buf
          else .ok spec.buf) = grown
        cases grown with
        | error err => exact ⟨h, List.prefix_rfl, fun hok => by cases hok⟩
        | ok buf =>
            obtain ⟨hgrown, hcontents, hroom⟩ := h.grow hgrow
            obtain ⟨hread, hprefix, htaken⟩ := hgrown.readIntoBuf hroom hmore.2
            rw [show ({ spec with buf := buf } : RingBufChunkReader Queue).buf.contents =
              spec.buf.contents from hcontents] at hprefix htaken
            rcases hresult : RingBufChunkReader.readIntoBuf { spec with buf := buf } with
              ⟨next, err | read⟩ <;> rw [hresult] at hread hprefix htaken <;> simp only [hresult]
            · exact ⟨hread, hprefix, fun hok => by cases hok⟩
            · obtain ⟨hend, hlength⟩ := htaken read rfl
              split_ifs with hnone
              · exact ⟨hread, hprefix, fun _ => Or.inr (hend hnone)⟩
              · obtain ⟨hwindow, hmorePrefix, hdone⟩ := ih hread (by omega) rfl
                exact ⟨hwindow, hprefix.trans hmorePrefix, hdone⟩
      · rw [if_neg hmore]
        refine ⟨h, List.prefix_rfl, fun _ => ?_⟩
        by_cases hshort : spec.buf.contents.length < n
        · refine Or.inr ?_
          change spec.src.rest = []
          rcases h.file with hfile | hfile
          · rw [hfile] at hmore
            exact absurd ⟨hshort, rfl⟩ hmore
          · rw [hfile, Option.all_some, decide_eq_true_eq] at hmore
            exact List.length_eq_zero_iff.mp (by omega)
        · exact Or.inl (Nat.not_lt.mp hshort)

theorem Window.step (h : Window mem limit chunkLength tracked spec) {op : Op}
    (hallows : spec.Allows op) :
    Window mem limit chunkLength (track tracked op) (spec.step mem op).1 := by
  cases op with
  | fill n => exact (h.fillLoop n n (Nat.le_add_right _ _)).1
  | consume n =>
      have hn : n ≤ spec.buf.contents.length := hallows
      refine ⟨?_, h.limit, ?_, h.file, ?_, h.readCap⟩
      · refine ⟨h.sound.power, h.sound.granular, h.sound.bounded, h.sound.within, ?_⟩
        exact (List.length_drop ..).trans_le ((Nat.sub_le _ _).trans h.sound.fits)
      · change spec.buf.contents.drop n ++ spec.src.rest = tracked.1.drop (tracked.2 + n)
        rw [← List.drop_drop, ← h.pending, List.drop_append_of_le_length hn]
      · change spec.chunkRemaining - n = chunkLength - (tracked.2 + n)
        rw [h.remaining, Nat.sub_sub]
  | edit i b =>
      have hi : i < spec.buf.contents.length := hallows
      refine ⟨?_, h.limit, ?_, h.file, h.remaining, h.readCap⟩
      · refine ⟨h.sound.power, h.sound.granular, h.sound.bounded, h.sound.within, ?_⟩
        exact (List.length_set ..).trans_le h.sound.fits
      · change spec.buf.contents.set i b ++ spec.src.rest =
          (tracked.1.set (tracked.2 + i) b).drop tracked.2
        rw [List.drop_set, if_neg (by omega), Nat.add_sub_cancel_left, ← h.pending,
          List.set_append_left i b hi]

theorem Window.after (h : Window mem limit chunkLength tracked spec) {ops : List Op}
    (hallows : spec.AllowsAll mem ops) :
    Window mem limit chunkLength (ops.foldl track tracked) (spec.after mem ops) := by
  induction ops generalizing spec tracked with
  | nil => exact h
  | cons op ops ih => exact ih (h.step hallows.1) hallows.2

end

/-- The reader shows the edited source from the consumed offset on, knows what is left of
its chunk, keeps its capacity a power of two within the limit, and fills as it should: a
`fill` that succeeds leaves what was asked for or the whole rest of the source, and one
that fails, on growth or on a read, loses nothing. -/
structure Faithful {B : Type} [Buffer B] (mem : Memory) (limit : Option ℕ) (chunkLength : ℕ)
    (tracked : Bytes × ℕ) (reader : RingBufChunkReader B) : Prop where
  buffer : reader.buffer = (tracked.1.drop tracked.2).take reader.buffer.length
  remaining : reader.remainingInChunk = chunkLength - tracked.2
  power : ∃ k, Buffer.capacity reader.buf = 2 ^ k
  within : ∀ bound, limit = some bound → Buffer.capacity reader.buf ≤ bound
  fill_ok : ∀ n, (reader.fill mem n).2 = .ok () →
    n ≤ (reader.fill mem n).1.buffer.length ∨
      (reader.fill mem n).1.buffer = tracked.1.drop tracked.2
  fill_prefix : ∀ n, reader.buffer <+: (reader.fill mem n).1.buffer

theorem Window.faithful {B : Type} [Buffer B] {mem : Memory} {rep : B → Queue → Prop}
    (hrep : Represents mem rep) {limit : Option ℕ} {chunkLength : ℕ} {tracked : Bytes × ℕ}
    {reader : RingBufChunkReader B} {spec : RingBufChunkReader Queue}
    (hsame : Same rep reader spec) (h : Window mem limit chunkLength tracked spec) :
    Faithful mem limit chunkLength tracked reader := by
  have hbuffer := buffer_same hrep hsame
  have hcapacity := hrep.capacity hsame.buf
  have hfill : ∀ n, (reader.fill mem n).2 = (spec.fill mem n).2 ∧
      (reader.fill mem n).1.buffer = (spec.fill mem n).1.buffer := fun n => by
    obtain ⟨hresult, hfilled⟩ := fillLoop_same hrep hsame n n
    exact ⟨hresult, buffer_same hrep hfilled⟩
  have hspec : ∀ n, _ := fun n => h.fillLoop n n (Nat.le_add_right _ _)
  refine ⟨?_, hsame.chunkRemaining.trans h.remaining, ?_, ?_, fun n hok => ?_, fun n => ?_⟩
  · rw [hbuffer, ← h.pending]
    exact List.take_left.symm
  · rw [hcapacity]
    exact h.sound.power
  · intro bound hbound
    rw [hcapacity]
    exact h.sound.within bound (h.limit.trans hbound)
  · obtain ⟨hwindow, -, hdone⟩ := hspec n
    rw [(hfill n).1] at hok
    rw [(hfill n).2]
    refine (hdone hok).imp_right fun hend => ?_
    rw [← hwindow.pending, hend, List.append_nil]
    rfl
  · rw [hbuffer, (hfill n).2]
    exact (hspec n).2.1

end RingBufChunkReader

open RingBufChunkReader

/-- Over both buffer types, created alike, the same operations are allowed, the same is seen
of them, and the window on the source is faithful after each of them. -/
theorem readers_faithful (mem : Memory) (capacity : ℕ) (limit : Option ℕ) (src : Source)
    {fileRemaining : Option ℕ}
    (hfile : fileRemaining = none ∨ fileRemaining = some src.rest.length) (chunkLength : ℕ)
    {readCap : ℕ} (hreadCap : 0 < readCap) (ops : List Op) :
    Alike (fun mirrored linear =>
      let overMirrored : RingBufChunkReader MirroredBuf :=
        ⟨mirrored, src, fileRemaining, chunkLength, readCap⟩
      let overLinear : RingBufChunkReader LinearBuf :=
        ⟨linear, src, fileRemaining, chunkLength, readCap⟩
      (overMirrored.AllowsAll mem ops ↔ overLinear.AllowsAll mem ops) ∧
        (overMirrored.AllowsAll mem ops →
          overMirrored.observe mem ops = overLinear.observe mem ops ∧
          Faithful mem limit chunkLength (ops.foldl track (src.rest, 0))
            (overMirrored.after mem ops) ∧
          Faithful mem limit chunkLength (ops.foldl track (src.rest, 0))
            (overLinear.after mem ops)))
      (MirroredBuf.new mem capacity limit) (LinearBuf.new mem capacity limit) := by
  have hmirrored := MirroredBuf.alike_new mem capacity limit
  have hlinear := LinearBuf.alike_new mem capacity limit
  cases hqueue : Queue.new mem capacity limit with
  | error err =>
      rw [hqueue] at hmirrored hlinear
      cases hm : MirroredBuf.new mem capacity limit with
      | ok mirrored =>
          rw [hm] at hmirrored
          exact hmirrored.elim
      | error errMirrored =>
          cases hl : LinearBuf.new mem capacity limit with
          | ok linear =>
              rw [hl] at hlinear
              exact hlinear.elim
          | error errLinear =>
              rw [hm] at hmirrored
              rw [hl] at hlinear
              exact (show errMirrored = err from hmirrored).trans
                (show errLinear = err from hlinear).symm
  | ok queue =>
      rw [hqueue] at hmirrored hlinear
      cases hm : MirroredBuf.new mem capacity limit with
      | error err =>
          rw [hm] at hmirrored
          exact hmirrored.elim
      | ok mirrored =>
          cases hl : LinearBuf.new mem capacity limit with
          | error err =>
              rw [hl] at hlinear
              exact hlinear.elim
          | ok linear =>
              rw [hm] at hmirrored
              rw [hl] at hlinear
              have hrepM : MirroredBuf.Rep mem mirrored queue := hmirrored
              have hrepL : LinearBuf.Rep mem linear queue := hlinear
              obtain ⟨hempty, hlimit⟩ := Queue.new_ok hqueue
              have hwindow : Window mem limit chunkLength (src.rest, 0)
                  ⟨queue, src, fileRemaining, chunkLength, readCap⟩ :=
                ⟨hrepM.sound, hlimit, by simp [hempty], hfile, rfl, hreadCap⟩
              obtain ⟨hallowsM, hrunM⟩ := run_same (MirroredBuf.represents mem)
                (Same.mk hrepM rfl rfl rfl rfl :
                  Same (MirroredBuf.Rep mem) ⟨mirrored, src, fileRemaining, chunkLength, readCap⟩
                    ⟨queue, src, fileRemaining, chunkLength, readCap⟩) ops
              obtain ⟨hallowsL, hrunL⟩ := run_same (LinearBuf.represents mem)
                (Same.mk hrepL rfl rfl rfl rfl :
                  Same (LinearBuf.Rep mem) ⟨linear, src, fileRemaining, chunkLength, readCap⟩
                    ⟨queue, src, fileRemaining, chunkLength, readCap⟩) ops
              refine ⟨hallowsM.trans hallowsL.symm, fun hallows => ?_⟩
              have hspec := hallowsM.mp hallows
              obtain ⟨hseenM, hafterM⟩ := hrunM hspec
              obtain ⟨hseenL, hafterL⟩ := hrunL hspec
              have hafter := hwindow.after hspec
              exact ⟨hseenM.trans hseenL.symm,
                hafter.faithful (MirroredBuf.represents mem) hafterM,
                hafter.faithful (LinearBuf.represents mem) hafterL⟩

/-- A system that gives out multiples of four bytes, up to a gigabyte. -/
def smallMemory : Memory where
  granularity := 4
  granularity_pow := ⟨2, rfl⟩
  allocatable capacity := decide (capacity ≤ 2 ^ 30)
  bounded capacity h := lt_of_le_of_lt (of_decide_eq_true h) (by norm_num)

/-- A mirrored and a linear buffer of four bytes show the same of six. -/
theorem readers_faithful_growing :
    (RingBufChunkReader.mk (B := MirroredBuf) ⟨fun _ => 0, 4, none, 0, 0⟩
        ⟨[97, 98, 99, 100, 101, 102], fun _ => .ok 1⟩ none 6 4).observe smallMemory
          [.fill 3, .consume 2, .edit 0 120, .fill 4] =
      (RingBufChunkReader.mk (B := LinearBuf) ⟨[0, 0, 0, 0], 0, 0, none⟩
        ⟨[97, 98, 99, 100, 101, 102], fun _ => .ok 1⟩ none 6 4).observe smallMemory
          [.fill 3, .consume 2, .edit 0 120, .fill 4] := by
  have h := readers_faithful smallMemory 4 none ⟨[97, 98, 99, 100, 101, 102], fun _ => .ok 1⟩
    (Or.inl rfl) 6 (show 0 < 4 by decide) [.fill 3, .consume 2, .edit 0 120, .fill 4]
  have hmirrored : MirroredBuf.new smallMemory 4 none = .ok ⟨fun _ => 0, 4, none, 0, 0⟩ := rfl
  have hlinear : LinearBuf.new smallMemory 4 none = .ok ⟨[0, 0, 0, 0], 0, 0, none⟩ := rfl
  rw [hmirrored, hlinear] at h
  exact (h.2 ⟨trivial, Nat.le_of_ble_eq_true rfl, Nat.le_of_ble_eq_true rfl, trivial, trivial⟩).1

/-- A `fill` of five bytes fails on a limit of four, and leaves four in view that were not
before. -/
theorem fill_fails_extended :
    ((RingBufChunkReader.mk (B := LinearBuf) ⟨[0, 0, 0, 0], 0, 0, some 4⟩
        ⟨[97, 98, 99, 100, 101], fun _ => .ok 4⟩ none 5 4).observe smallMemory [.fill 0, .fill 5]) =
      [⟨.ok (), [], 5, 4⟩, ⟨.error (.buf (.growthExceedsLimit 8 4)), [97, 98, 99, 100], 5, 4⟩] := by
  decide +kernel

end Csveee.RingBuf
