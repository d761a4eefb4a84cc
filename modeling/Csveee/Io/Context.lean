import Csveee.Io.ChunkReader
import Csveee.Io.RingBuf.Reader
import Csveee.Lib.Component

/-!
# The readers behind the trait

Three types of readers stand behind the `ChunkReader` trait: over a file read to its end,
over a private mapping of it, and over a ring buffer.  Each shows the source from its
position on, and fills as the trait asks, so whatever is seen of it is seen of a reader
with some refill schedule.
-/

namespace Csveee

open RingBuf

/-- The `ChunkReader` trait. -/
structure Reads (R : Type) where
  buffer : R → Bytes
  /-- `buffer_mut()[i] = b` -/
  edit : R → ℕ → Byte → R
  /-- The reader it leaves behind, also where it fails. -/
  fill : R → ℕ → R × Except IoError Unit
  consume : R → ℕ → R
  remainingInChunk : R → ℕ

namespace Reads

variable {R : Type} (reads : Reads R)

/-- A reader as its user has it. -/
def component : Component Op IoError (Bytes × ℕ) R where
  allows reader
    | .fill _ => true
    | .consume n => decide (n ≤ (reads.buffer reader).length)
    | .edit i _ => decide (i < (reads.buffer reader).length)
  step reader
    | .fill n => reads.fill reader n
    | .consume n => (reads.consume reader n, .ok ())
    | .edit i b => (reads.edit reader i b, .ok ())
  view reader := (reads.buffer reader, reads.remainingInChunk reader)

/-- What the trait asks of its readers, with what a reader has left of its source and of its
chunk. -/
structure Lawful (shows : R → Bytes → ℕ → Prop) : Prop where
  buffer : ∀ {reader pending left}, shows reader pending left →
    reads.buffer reader <+: pending
  remainingInChunk : ∀ {reader pending left}, shows reader pending left →
    reads.remainingInChunk reader = left
  edit : ∀ {reader pending left i}, shows reader pending left →
    i < (reads.buffer reader).length → ∀ b,
      shows (reads.edit reader i b) (pending.set i b) left ∧
        reads.buffer (reads.edit reader i b) = (reads.buffer reader).set i b
  fill : ∀ {reader pending left} n, shows reader pending left →
    shows (reads.fill reader n).1 pending left ∧
      reads.buffer reader <+: reads.buffer (reads.fill reader n).1 ∧
      ((reads.fill reader n).2 = .ok () → n ≤ (reads.buffer (reads.fill reader n).1).length ∨
        reads.buffer (reads.fill reader n).1 = pending)
  consume : ∀ {reader pending left n}, shows reader pending left →
    n ≤ (reads.buffer reader).length →
      shows (reads.consume reader n) (pending.drop n) (left - n) ∧
        reads.buffer (reads.consume reader n) = (reads.buffer reader).drop n

end Reads

namespace Schedule

def cons (event : FillEvent) (schedule : Schedule) : Schedule
  | 0 => event
  | call + 1 => schedule call

theorem tail_cons (event : FillEvent) (schedule : Schedule) :
    (cons event schedule).tail = schedule := by
  funext call
  rfl

end Schedule

namespace ChunkReader

/-- A reader with a schedule, behind the trait. -/
def reads : Reads ChunkReader where
  buffer := buffer
  edit reader i b := reader.setBuffer (reader.buffer.set i b)
  fill reader n :=
    match reader.fill n with
    | .ok filled => (filled, .ok ())
    | .error err => (reader, .error err)
  consume := consume
  remainingInChunk := remainingInChunk

/-- The readers that have this left, whatever their schedule. -/
def showing (pending : Bytes) (available left : ℕ) : Set ChunkReader :=
  {reader | reader.pending = pending ∧ reader.available = available ∧
    reader.chunkRemaining = left}

variable {pending : Bytes} {available left : ℕ}

theorem buffer_showing {reader : ChunkReader} (h : reader ∈ showing pending available left) :
    reader.buffer = pending.take available := by
  rw [buffer, h.1, h.2.1]

/-- A schedule for a `fill` call that leaves a reader as it is to be. -/
theorem exists_fill {later : ChunkReader} {n shown : ℕ} (misalign : Fin 64)
    (hlater : later ∈ showing pending shown left) (hshown : shown ≤ pending.length)
    (hgrows : available ≤ shown) (hn : n ≤ shown ∨ shown = pending.length) :
    ∃ schedule, fill ⟨pending, available, left, misalign, schedule⟩ n = .ok later := by
  obtain ⟨hpending, havailable, hleft⟩ := hlater
  have hevent : min pending.length (max available n + (shown - max available n)) = shown := by
    omega
  refine ⟨.cons (.exposes (shown - max available n) later.misalign) later.schedule, ?_⟩
  simp only [fill, Schedule.cons, hevent, Schedule.tail_cons]
  rw [← hpending, ← havailable, ← hleft]

end ChunkReader

namespace Reads

variable {R : Type} {reads : Reads R} {shows : R → Bytes → ℕ → Prop}

/-- The readers with a schedule that a reader stands for. -/
def StandsFor (reads : Reads R) (shows : R → Bytes → ℕ → Prop) (reader : R)
    (options : Set ChunkReader) : Prop :=
  ∃ pending left, shows reader pending left ∧
    options = ChunkReader.showing pending (reads.buffer reader).length left

theorem Lawful.take_length (h : reads.Lawful shows) {reader : R} {pending : Bytes} {left : ℕ}
    (hshows : shows reader pending left) :
    pending.take (reads.buffer reader).length = reads.buffer reader :=
  (List.prefix_iff_eq_take.mp (h.buffer hshows)).symm

theorem Lawful.view_eq (h : reads.Lawful shows) {reader : R} {pending : Bytes} {left : ℕ}
    (hshows : shows reader pending left) {option : ChunkReader}
    (hmem : option ∈ ChunkReader.showing pending (reads.buffer reader).length left) :
    ChunkReader.reads.component.view option = reads.component.view reader := by
  have hbuffer := (ChunkReader.buffer_showing hmem).trans (h.take_length hshows)
  exact Prod.ext hbuffer (hmem.2.2.trans (h.remainingInChunk hshows).symm)

theorem Lawful.allows_eq (h : reads.Lawful shows) {reader : R} {pending : Bytes} {left : ℕ}
    (hshows : shows reader pending left) {option : ChunkReader}
    (hmem : option ∈ ChunkReader.showing pending (reads.buffer reader).length left) (op : Op) :
    ChunkReader.reads.component.allows option op = reads.component.allows reader op := by
  have hbuffer := (ChunkReader.buffer_showing hmem).trans (h.take_length hshows)
  cases op with
  | fill n => rfl
  | consume n => exact congrArg (fun buf : Bytes => decide (n ≤ buf.length)) hbuffer
  | edit i b => exact congrArg (fun buf : Bytes => decide (i < buf.length)) hbuffer

theorem Lawful.step (h : reads.Lawful shows) {reader : R} {pending : Bytes} {left : ℕ}
    (hshows : shows reader pending left) {op : Op}
    (hallows : reads.component.allows reader op = true) :
    ∃ pending left, shows (reads.component.step reader op).1 pending left := by
  cases op with
  | fill n => exact ⟨_, _, (h.fill n hshows).1⟩
  | consume n => exact ⟨_, _, (h.consume hshows (of_decide_eq_true hallows)).1⟩
  | edit i b => exact ⟨_, _, (h.edit hshows (of_decide_eq_true hallows) b).1⟩

/-- Whatever a lawful reader does, a reader with a schedule does. -/
theorem Lawful.foretells (h : reads.Lawful shows) :
    Component.Foretells reads.component ChunkReader.reads.component (StandsFor reads shows) where
  inhabited := by
    rintro reader options ⟨pending, left, hshows, rfl⟩
    exact ⟨⟨pending, _, left, 0, .exact⟩, rfl, rfl, rfl⟩
  breaks := by
    rintro reader options op ⟨pending, left, hshows, rfl⟩ hallows
    have hmem : (⟨pending, (reads.buffer reader).length, left, 0, .exact⟩ : ChunkReader) ∈
      ChunkReader.showing pending (reads.buffer reader).length left := ⟨rfl, rfl, rfl⟩
    exact ⟨_, hmem, (h.allows_eq hshows hmem op).trans hallows⟩
  fails := by
    rintro reader options op next err ⟨pending, left, hshows, rfl⟩ hallows hstep
    cases op with
    | fill n =>
        refine ⟨⟨pending, (reads.buffer reader).length, left, 0, fun _ => .fails err⟩,
          ⟨rfl, rfl, rfl⟩, rfl, _, rfl⟩
    | consume n => cases hstep
    | edit i b => cases hstep
  succeeds := by
    rintro reader options op next ⟨pending, left, hshows, rfl⟩ hallows hstep
    cases op with
    | fill n =>
        obtain ⟨hnext, hgrows, hfilled⟩ := h.fill n hshows
        change reads.fill reader n = (next, .ok ()) at hstep
        rw [hstep] at hnext hgrows hfilled
        refine ⟨_, ⟨pending, left, hnext, rfl⟩, fun later hlater =>
          ⟨h.view_eq hnext hlater, ?_⟩⟩
        obtain ⟨schedule, hfill⟩ := @ChunkReader.exists_fill pending
          (reads.buffer reader).length left later n _ 0 hlater (h.buffer hnext).length_le
          hgrows.length_le ((hfilled rfl).imp_right (congrArg List.length))
        refine ⟨⟨pending, _, left, 0, schedule⟩, ⟨rfl, rfl, rfl⟩, rfl, ?_⟩
        change ChunkReader.reads.fill _ n = _
        rw [ChunkReader.reads]
        simp only [hfill]
    | consume n =>
        have hn : n ≤ (reads.buffer reader).length := of_decide_eq_true hallows
        obtain ⟨hnext, hbuffer⟩ := h.consume hshows hn
        cases hstep
        refine ⟨_, ⟨pending.drop n, left - n, hnext, rfl⟩, fun later hlater =>
          ⟨h.view_eq hnext hlater, ?_⟩⟩
        have hmem : (⟨pending, (reads.buffer reader).length, left, later.misalign,
          later.schedule⟩ : ChunkReader) ∈
            ChunkReader.showing pending (reads.buffer reader).length left := ⟨rfl, rfl, rfl⟩
        refine ⟨_, hmem, (h.allows_eq hshows hmem (.consume n)).trans hallows, ?_⟩
        obtain ⟨hpending, havailable, hleft⟩ := hlater
        rw [hbuffer, List.length_drop] at havailable
        obtain ⟨_, _, _, misalign, schedule⟩ := later
        cases hpending
        cases havailable
        cases hleft
        rfl
    | edit i b =>
        have hi : i < (reads.buffer reader).length := of_decide_eq_true hallows
        obtain ⟨hnext, hbuffer⟩ := h.edit hshows hi b
        cases hstep
        refine ⟨_, ⟨pending.set i b, left, hnext, rfl⟩, fun later hlater =>
          ⟨h.view_eq hnext hlater, ?_⟩⟩
        have hmem : (⟨pending, (reads.buffer reader).length, left, later.misalign,
          later.schedule⟩ : ChunkReader) ∈
            ChunkReader.showing pending (reads.buffer reader).length left := ⟨rfl, rfl, rfl⟩
        refine ⟨_, hmem, (h.allows_eq hshows hmem (.edit i b)).trans hallows, ?_⟩
        obtain ⟨hpending, havailable, hleft⟩ := hlater
        rw [hbuffer, List.length_set] at havailable
        have hedited : (pending.take (reads.buffer reader).length).set i b ++
            pending.drop (reads.buffer reader).length = pending.set i b := by
          rw [← List.set_append_left i b, List.take_append_drop]
          rw [h.take_length hshows]
          exact hi
        have hsame : ChunkReader.reads.edit ⟨pending, (reads.buffer reader).length, left,
            later.misalign, later.schedule⟩ i b = later := by
          change ChunkReader.mk ((pending.take (reads.buffer reader).length).set i b ++
            pending.drop (reads.buffer reader).length) _ _ _ _ = later
          rw [hedited, ← hpending, ← havailable, ← hleft]
        exact congrArg (·, Except.ok ()) hsame

/-- A use is one of a reader that shows as much to begin with. -/
theorem Lawful.trace_showing (h : reads.Lawful shows) {reader : R} {pending : Bytes} {left : ℕ}
    (hshows : shows reader pending left) (ops : List Op) :
    ∃ available ≤ pending.length, ∃ option ∈ ChunkReader.showing pending available left,
      reads.component.trace reader ops = ChunkReader.reads.component.trace option ops := by
  obtain ⟨option, hmem, htrace⟩ := h.foretells.trace_eq ⟨pending, left, hshows, rfl⟩ ops
  exact ⟨_, (h.buffer hshows).length_le, option, hmem, htrace⟩

/-- A use that opens with a `fill` is one of a reader that showed nothing before. -/
theorem Lawful.trace_fresh (h : reads.Lawful shows) {reader : R} {pending : Bytes} {left : ℕ}
    (hshows : shows reader pending left) (n : ℕ) (ops : List Op) :
    ∃ schedule, reads.component.trace reader (.fill n :: ops) =
      ChunkReader.reads.component.trace ⟨pending, 0, left, 0, schedule⟩ (.fill n :: ops) := by
  have hallows : reads.component.allows reader (.fill n) = true := rfl
  rcases hstep : reads.component.step reader (.fill n) with ⟨next, err | _⟩
  · refine ⟨fun _ => .fails err, ?_⟩
    rw [Component.trace_error ops hallows hstep, Component.trace_error ops rfl rfl]
  · obtain ⟨hnext, -, hfilled⟩ := h.fill n hshows
    change reads.fill reader n = (next, .ok ()) at hstep
    rw [hstep] at hnext hfilled
    obtain ⟨later, hlater, htrace⟩ := h.foretells.trace_eq ⟨pending, left, hnext, rfl⟩ ops
    obtain ⟨schedule, hfill⟩ := @ChunkReader.exists_fill pending 0 left later n _ 0 hlater
      (h.buffer hnext).length_le (Nat.zero_le _)
      ((hfilled rfl).imp_right (congrArg List.length))
    refine ⟨schedule, ?_⟩
    have hspec : ChunkReader.reads.component.step ⟨pending, 0, left, 0, schedule⟩ (.fill n) =
        (later, .ok ()) := by
      change ChunkReader.reads.fill _ n = _
      rw [ChunkReader.reads]
      simp only [hfill]
    rw [Component.trace_ok ops hallows hstep, Component.trace_ok ops rfl hspec,
      h.view_eq hnext hlater, htrace]

end Reads

/-- A reader with the whole rest of the source in view. -/
structure FlatReader where
  data : Bytes
  pos : ℕ
  /-- Where the chunk ends in the data. -/
  chunkEnd : ℕ

namespace FlatReader

def reads : Reads FlatReader where
  buffer reader := reader.data.drop reader.pos
  edit reader i b := { reader with data := reader.data.set (reader.pos + i) b }
  fill reader _ := (reader, .ok ())
  consume reader n := { reader with pos := reader.pos + n }
  remainingInChunk reader := reader.chunkEnd - reader.pos

/-- All that is left is in view. -/
def Shows (reader : FlatReader) (pending : Bytes) (left : ℕ) : Prop :=
  reader.data.drop reader.pos = pending ∧ reader.chunkEnd - reader.pos = left

theorem lawful : reads.Lawful Shows where
  buffer := by
    rintro reader pending left ⟨rfl, -⟩
    exact List.prefix_rfl
  remainingInChunk h := h.2
  edit := by
    rintro reader pending left i ⟨rfl, rfl⟩ hi b
    have hset : (reader.data.set (reader.pos + i) b).drop reader.pos =
        (reader.data.drop reader.pos).set i b := by
      rw [List.drop_set, if_neg (Nat.not_lt.mpr (Nat.le_add_right _ _)), Nat.add_sub_cancel_left]
    exact ⟨⟨hset, rfl⟩, hset⟩
  fill n h := ⟨h, List.prefix_rfl, fun _ => Or.inr h.1⟩
  consume := by
    rintro reader pending left n ⟨rfl, rfl⟩ -
    have hdrop : reader.data.drop (reader.pos + n) = (reader.data.drop reader.pos).drop n :=
      List.drop_drop.symm
    exact ⟨⟨hdrop, Nat.sub_add_eq ..⟩, hdrop⟩

end FlatReader

/-- `InMemoryChunkReader`, whose data is the rest of the file. -/
abbrev InMemoryChunkReader := FlatReader

def InMemoryChunkReader.new (data : Bytes) (chunkLen : ℕ) : InMemoryChunkReader :=
  ⟨data, 0, chunkLen⟩

/-- `MmapChunkReader`, whose data is the whole file. -/
abbrev MmapChunkReader := FlatReader

def MmapChunkReader.new (data : Bytes) (chunkStart chunkEnd : ℕ) : MmapChunkReader :=
  ⟨data, chunkStart, chunkEnd⟩

namespace RingBuf.RingBufChunkReader

variable {B : Type} [Buffer B] (mem : Memory) (report : BufError → IoError)

def reads : Reads (RingBufChunkReader B) where
  buffer := buffer
  edit reader i b := { reader with buf := Buffer.edit reader.buf i b }
  fill reader n :=
    ((reader.fill mem n).1, (reader.fill mem n).2.mapError (FillError.toIoError report))
  consume := consume
  remainingInChunk := remainingInChunk

/-- The buffer and the source make up what is left. -/
def Shows (mem : Memory) (rep : B → Queue → Prop) (limit : Option ℕ)
    (reader : RingBufChunkReader B) (pending : Bytes) (left : ℕ) : Prop :=
  ∃ spec, Same rep reader spec ∧ Window mem limit left (pending, 0) spec

variable {mem} {rep : B → Queue → Prop} {limit : Option ℕ}

theorem Window.contents_append {left : ℕ} {pending : Bytes} {spec : RingBufChunkReader Queue}
    (h : Window mem limit left (pending, 0) spec) :
    spec.buf.contents ++ spec.src.rest = pending := h.pending

theorem lawful (hrep : Represents mem rep) : (reads mem report).Lawful (Shows mem rep limit) where
  buffer := by
    rintro reader pending left ⟨spec, hsame, hwindow⟩
    exact ⟨spec.src.rest, by
      rw [← hwindow.contents_append]
      exact congrArg (· ++ spec.src.rest) (buffer_same hrep hsame)⟩
  remainingInChunk := by
    rintro reader pending left ⟨spec, hsame, hwindow⟩
    exact hsame.chunkRemaining.trans hwindow.remaining
  edit := by
    rintro reader pending left i ⟨spec, hsame, hwindow⟩ hi b
    have hbuffer := buffer_same hrep hsame
    have hin : i < spec.buffer.length := hi.trans_eq (congrArg List.length hbuffer)
    have hnext := (step_same hrep hsame (show spec.Allows (.edit i b) from hin)).2
    have hlater := hwindow.step (show spec.Allows (.edit i b) from hin)
    refine ⟨⟨_, hnext, ?_⟩, (buffer_same hrep hnext).trans ?_⟩
    · rw [track, Nat.zero_add] at hlater
      exact hlater
    · exact congrArg (·.set i b) hbuffer.symm
  fill := by
    rintro reader pending left n ⟨spec, hsame, hwindow⟩
    obtain ⟨hresult, hnext⟩ := fillLoop_same hrep hsame n n
    obtain ⟨hlater, hgrows, hfilled⟩ := hwindow.fillLoop n n (Nat.le_add_right _ _)
    have hbuffer := buffer_same hrep hnext
    refine ⟨⟨_, hnext, hlater⟩, ?_, fun hok => ?_⟩
    · change reader.buffer <+: (reader.fillLoop mem n n).1.buffer
      rw [buffer_same hrep hsame, hbuffer]
      exact hgrows
    · change n ≤ (reader.fillLoop mem n n).1.buffer.length ∨
        (reader.fillLoop mem n n).1.buffer = pending
      have hspec : (spec.fillLoop mem n n).2 = .ok () := by
        rw [← hresult]
        change ((reader.fillLoop mem n n).2).mapError (FillError.toIoError report) = .ok () at hok
        cases hres : (reader.fillLoop mem n n).2 with
        | error err =>
            rw [hres] at hok
            cases hok
        | ok _ => rfl
      rw [hbuffer]
      refine (hfilled hspec).imp_right fun hrest => ?_
      rw [← hlater.contents_append, hrest, List.append_nil]
      rfl
  consume := by
    rintro reader pending left n ⟨spec, hsame, hwindow⟩ hn
    have hbuffer := buffer_same hrep hsame
    have hin : n ≤ spec.buffer.length := hn.trans_eq (congrArg List.length hbuffer)
    have hnext := (step_same hrep hsame (show spec.Allows (.consume n) from hin)).2
    have hlater := hwindow.step (show spec.Allows (.consume n) from hin)
    refine ⟨⟨_, hnext, ?_⟩, (buffer_same hrep hnext).trans ?_⟩
    · rw [track, Nat.zero_add] at hlater
      exact ⟨hlater.sound, hlater.limit, hlater.pending, hlater.file, hlater.remaining,
        hlater.readCap⟩
    · exact congrArg (·.drop n) hbuffer.symm

end RingBuf.RingBufChunkReader

end Csveee
