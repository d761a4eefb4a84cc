import Csveee.Io.Context
import Csveee.Scheduler.Run

/-!
# I/O contexts

A worker opens one reader after the other on the context it owns, for every assumption it
tries and every chunk it takes.  A pass writes to the bytes it reads, and the context keeps
its buffer or its mapping: still no reader sees what was done before, and on every kind of
context it is seen as the reader of the model over the file.
-/

namespace Csveee

open RingBuf

/-- The bytes of a chunk. -/
structure ChunkSpan (file : Bytes) where
  start : ℕ
  stop : ℕ
  ordered : start ≤ stop
  within : stop ≤ file.length

theorem ChunkSpan.length_drop {file : Bytes} (span : ChunkSpan file) :
    span.stop - span.start ≤ (file.drop span.start).length := by
  rw [List.length_drop]
  exact Nat.sub_le_sub_right span.within _

/-- What the system calls of a context come to, in call order. -/
abbrev SysCalls := ℕ → Option IoError

structure InMemoryIo where
  file : Bytes
  fileSize : ℕ
  data : Bytes
  seeks : SysCalls
  /-- What each `read_to_end` comes to: an error after some of the bytes, or all of them. -/
  reads : ℕ → Option (IoError × ℕ)

namespace InMemoryIo

def new (file : Bytes) (seeks : SysCalls) (reads : ℕ → Option (IoError × ℕ)) : InMemoryIo :=
  ⟨file, file.length, [], seeks, reads⟩

/-- `chunk_reader`: the file is read to its end. -/
def chunkReader (io : InMemoryIo) (chunkStart chunkEnd : ℕ) :
    InMemoryIo × Except IoError InMemoryChunkReader :=
  let sought := { io with data := [], seeks := fun call => io.seeks (call + 1) }
  match io.seeks 0 with
  | some err => (sought, .error err)
  | none =>
      let tail := (io.file.drop chunkStart).take (io.fileSize - chunkStart)
      let reads := fun call => io.reads (call + 1)
      match io.reads 0 with
      | some (err, n) => ({ sought with data := tail.take n, reads := reads }, .error err)
      | none =>
          ({ sought with data := tail, reads := reads },
            .ok (.new tail (min (chunkEnd - chunkStart) tail.length)))

def resource (file : Bytes) :
    Resource (ChunkSpan file) Op IoError (Bytes × ℕ) InMemoryIo InMemoryChunkReader where
  component := FlatReader.reads.component
  acquire io span := io.chunkReader span.start span.stop
  release io reader := { io with data := reader.data }

end InMemoryIo

/-- What the system does for a private mapping. -/
structure PrivateMapping where
  /-- What the mapping of a file shows. -/
  map : Bytes → Bytes
  /-- What a mapping shows once `madvise(MADV_DONTNEED)` discarded its modifications, or it
  was mapped anew at its address, from the file and from what it showed before. -/
  restore : Bytes → Bytes → Bytes

/-- A mapping shows its file, and again once it is restored. -/
structure PrivateMapping.Documented (system : PrivateMapping) : Prop where
  map : ∀ file, system.map file = file
  restore : ∀ file mapped, mapped.length = file.length → system.restore file mapped = file

structure MmapIo where
  file : Bytes
  mapped : Bytes
  sys : SysCalls

namespace MmapIo

variable (system : PrivateMapping)

/-- `MmapFile::open`, where it succeeds.  Nothing is mapped of an empty file. -/
def new (file : Bytes) (sys : SysCalls) : MmapIo :=
  ⟨file, if file = [] then [] else system.map file, sys⟩

/-- `MmapFile::reset`; there is nothing to reset where nothing is mapped. -/
def reset (io : MmapIo) : MmapIo × Except IoError Unit :=
  if io.file = [] then (io, .ok ())
  else
    let sys := fun call => io.sys (call + 1)
    match io.sys 0 with
    | some err => ({ io with sys := sys }, .error err)
    | none => ({ io with mapped := system.restore io.file io.mapped, sys := sys }, .ok ())

def chunkReader (io : MmapIo) (chunkStart chunkEnd : ℕ) :
    MmapIo × Except IoError MmapChunkReader :=
  match io.reset system with
  | (io, .error err) => (io, .error err)
  | (io, .ok ()) => (io, .ok (.new io.mapped chunkStart chunkEnd))

def resource (file : Bytes) :
    Resource (ChunkSpan file) Op IoError (Bytes × ℕ) MmapIo MmapChunkReader where
  component := FlatReader.reads.component
  acquire io span := io.chunkReader system span.start span.stop
  release io reader := { io with mapped := reader.data }

end MmapIo

/-- A ring buffer, and the source its readers are opened on. -/
structure RingBufIo (B : Type) where
  buf : B
  file : Bytes
  fileSize : ℕ
  readCap : ℕ
  /-- How many bytes each `read` is willing to return, or the error it fails with. -/
  willing : ℕ → Except IoError ℕ
  sys : SysCalls

namespace RingBufIo

variable {B : Type} [Resets B] (mem : Memory) (report : BufError → IoError)

def new (settings : RingBufSettings) (file : Bytes) (willing : ℕ → Except IoError ℕ)
    (sys : SysCalls) :
    Except BufError (RingBufIo B) := do
  let buf ← Buffer.new mem settings.bufferSize settings.bufferLimit
  return ⟨buf, file, file.length, settings.bufferSize, willing, sys⟩

/-- The reader over the emptied buffer, once the source is at the start of the chunk. -/
def reader (io : RingBufIo B) (chunkStart chunkEnd : ℕ) : RingBufChunkReader B where
  buf := Resets.reset io.buf
  src := ⟨io.file.drop chunkStart, io.willing⟩
  fileRemaining := some (io.fileSize - chunkStart)
  chunkRemaining := chunkEnd - chunkStart
  readCap := io.readCap

/-- `chunk_reader`: the buffer is emptied, and the file position set. -/
def chunkReader (io : RingBufIo B) (chunkStart chunkEnd : ℕ) :
    RingBufIo B × Except IoError (RingBufChunkReader B) :=
  let left := { io with buf := Resets.reset io.buf, sys := fun call => io.sys (call + 1) }
  match io.sys 0 with
  | some err => (left, .error err)
  | none => (left, .ok (io.reader chunkStart chunkEnd))

def resource (file : Bytes) :
    Resource (ChunkSpan file) Op IoError (Bytes × ℕ) (RingBufIo B) (RingBufChunkReader B) where
  component := (RingBufChunkReader.reads mem report).component
  acquire io span := io.chunkReader span.start span.stop
  release io reader := { io with buf := reader.buf, willing := reader.src.willing }

end RingBufIo

/-- `SliceIo`: a cursor over the slice stands in for the file.  It reads as much as it is
asked for, and no call of it fails. -/
abbrev SliceIo := RingBufIo

namespace SliceIo

variable {B : Type} [Resets B] (mem : Memory)

def new (settings : RingBufSettings) (data : Bytes) : Except BufError (SliceIo B) :=
  RingBufIo.new mem settings data (fun _ => .ok data.length) fun _ => none

end SliceIo

/-- What is seen of one use of a context. -/
abbrev Seen := Except IoError (List (Component.Seen IoError (Bytes × ℕ)))

/-- A use of the context is seen as one of the model's reader over the file, under some refill
schedule. -/
structure Pristine (file : Bytes) (use : ChunkSpan file × List Op) (seen : Seen) : Prop where
  /-- The reader may show some of the chunk from the start. -/
  shown : ∀ trace, seen = .ok trace →
    ∃ available ≤ (file.drop use.1.start).length,
      ∃ reader ∈ ChunkReader.showing (file.drop use.1.start) available
          (use.1.stop - use.1.start),
        trace = ChunkReader.reads.component.trace reader use.2
  /-- A use that begins with a `fill`, as every pass does, is one of the slice's reader. -/
  filled : ∀ trace n ops, seen = .ok trace → use.2 = .fill n :: ops →
    ∃ schedule, trace = ChunkReader.reads.component.trace
      (Scheduler.sliceReader file schedule use.1.start use.1.stop) use.2

/-- The reader is at the start of the chunk. -/
def Fresh {R : Type} (shows : R → Bytes → ℕ → Prop) (file : Bytes) (span : ChunkSpan file)
    (reader : R) : Prop :=
  shows reader (file.drop span.start) (span.stop - span.start)

theorem Reads.Lawful.pristine {R κ : Type} {reads : Reads R} {shows : R → Bytes → ℕ → Prop}
    (hreads : reads.Lawful shows) {file : Bytes}
    {resource : Resource (ChunkSpan file) Op IoError (Bytes × ℕ) κ R} {idle : κ → Prop}
    {lent : κ → R → Prop} (hcomponent : resource.component = reads.component)
    (h : resource.Restores idle lent (Fresh shows file)) {io : κ} (hidle : idle io)
    (uses : List (ChunkSpan file × List Op)) :
    List.Forall₂ (Pristine file) uses (resource.uses io uses) := by
  refine (h.uses_fresh hidle uses).imp fun use seen hfresh => ⟨fun trace hseen => ?_,
    fun trace n ops hseen hopens => ?_⟩
  · obtain ⟨reader, hreader, htrace⟩ := hfresh trace hseen
    obtain ⟨available, hle, option, hmem, hsame⟩ := hreads.trace_showing hreader use.2
    refine ⟨available, hle, option, hmem, ?_⟩
    rw [htrace, hcomponent, hsame]
  · obtain ⟨reader, hreader, htrace⟩ := hfresh trace hseen
    obtain ⟨schedule, hschedule⟩ := hreads.trace_fresh hreader n ops
    refine ⟨schedule, ?_⟩
    rw [htrace, hcomponent, hopens]
    exact hschedule

theorem InMemoryIo.restores (file : Bytes) :
    (resource file).Restores (fun io => io.file = file ∧ io.fileSize = file.length)
      (fun io _ => io.file = file ∧ io.fileSize = file.length)
      (Fresh FlatReader.Shows file) where
  acquired := by
    intro io span left opened hidle hacquire
    change io.chunkReader span.start span.stop = _ at hacquire
    have htail : (file.drop span.start).take (file.length - span.start) =
        file.drop span.start := by
      rw [← List.length_drop, List.take_length]
    simp only [chunkReader, hidle.1, hidle.2, htail] at hacquire
    split at hacquire
    · cases hacquire
    · split at hacquire <;> cases hacquire
      exact ⟨⟨rfl, rfl⟩, rfl, Nat.min_eq_left span.length_drop⟩
  refused := by
    intro io span left err hidle hacquire
    change io.chunkReader span.start span.stop = _ at hacquire
    simp only [chunkReader] at hacquire
    split at hacquire
    · cases hacquire
      exact hidle
    · split at hacquire <;> cases hacquire
      exact hidle
  step h _ := h
  released h := h

namespace MmapIo

/-- The mapping is as long as the file, whatever was written to it. -/
def Idle (file : Bytes) (io : MmapIo) : Prop :=
  io.file = file ∧ io.mapped.length = file.length

variable {system : PrivateMapping}

theorem Idle.new (hsystem : system.Documented) (file : Bytes) (sys : SysCalls) :
    (MmapIo.new system file sys).Idle file := by
  refine ⟨rfl, ?_⟩
  change (if file = [] then [] else system.map file).length = file.length
  split_ifs with hempty
  · rw [hempty]
  · rw [hsystem.map]

/-- A mapping that is reset shows the file. -/
theorem Idle.reset {file : Bytes} {io next : MmapIo} {result : Except IoError Unit}
    (hsystem : system.Documented) (h : io.Idle file) (hreset : io.reset system = (next, result)) :
    next.Idle file ∧ (result = .ok () → next.mapped = file) := by
  rw [MmapIo.reset, h.1] at hreset
  split_ifs at hreset with hempty
  · cases hreset
    refine ⟨h, fun _ => ?_⟩
    rw [hempty]
    exact List.length_eq_zero_iff.mp (h.2.trans (congrArg List.length hempty))
  · split at hreset <;> cases hreset
    · exact ⟨⟨rfl, h.2⟩, fun hok => by cases hok⟩
    · have hrestored := hsystem.restore file io.mapped h.2
      exact ⟨⟨rfl, congrArg List.length hrestored⟩, fun _ => hrestored⟩

theorem restores (hsystem : system.Documented) (file : Bytes) :
    (resource system file).Restores (Idle file)
      (fun io reader => io.file = file ∧ reader.data.length = file.length)
      (Fresh FlatReader.Shows file) where
  acquired := by
    intro io span left opened hidle hacquire
    change io.chunkReader system span.start span.stop = _ at hacquire
    rw [chunkReader] at hacquire
    rcases hreset : io.reset system with ⟨next, err | _⟩ <;> rw [hreset] at hacquire <;>
      cases hacquire
    obtain ⟨hnext, hshown⟩ := hidle.reset hsystem hreset
    exact ⟨hnext, congrArg (List.drop span.start) (hshown rfl), rfl⟩
  refused := by
    intro io span left err hidle hacquire
    change io.chunkReader system span.start span.stop = _ at hacquire
    rw [chunkReader] at hacquire
    rcases hreset : io.reset system with ⟨next, err | _⟩ <;> rw [hreset] at hacquire <;>
      cases hacquire
    exact (hidle.reset hsystem hreset).1
  step := by
    intro io reader op hlent _
    cases op with
    | fill n => exact hlent
    | consume n => exact hlent
    | edit i b => exact ⟨hlent.1, List.length_set.trans hlent.2⟩
  released h := h

end MmapIo

namespace RingBufIo

variable {B : Type} [Resets B] {mem : Memory} {rep : B → Queue → Prop}

/-- What the context keeps of the file and of its buffer. -/
structure Idle (rep : B → Queue → Prop) (limit : Option ℕ) (file : Bytes)
    (io : RingBufIo B) : Prop where
  source : io.file = file ∧ io.fileSize = file.length
  readCap : 0 < io.readCap
  buf : ∃ queue, rep io.buf queue ∧ queue.limit = limit

/-- While a reader is open, it has the buffer. -/
structure Lent (mem : Memory) (rep : B → Queue → Prop) (limit : Option ℕ) (file : Bytes)
    (io : RingBufIo B) (reader : RingBufChunkReader B) : Prop where
  source : io.file = file ∧ io.fileSize = file.length
  readCap : 0 < io.readCap
  shows : ∃ pending left, RingBufChunkReader.Shows mem rep limit reader pending left

theorem Idle.new {settings : RingBufSettings} {file : Bytes} {willing : ℕ → Except IoError ℕ}
    {sys : SysCalls}
    {io : RingBufIo B} (hrep : Represents mem rep) (hsize : 0 < settings.bufferSize)
    (h : RingBufIo.new mem settings file willing sys = .ok io) :
    io.Idle rep settings.bufferLimit file := by
  have halike := hrep.new settings.bufferSize settings.bufferLimit
  rw [RingBufIo.new] at h
  cases hbuf : (Buffer.new mem settings.bufferSize settings.bufferLimit : Except BufError B) with
  | error err =>
      rw [hbuf] at h
      cases h
  | ok buf =>
      rw [hbuf] at h halike
      cases h
      cases hqueue : Queue.new mem settings.bufferSize settings.bufferLimit with
      | error err =>
          rw [hqueue] at halike
          exact halike.elim
      | ok queue =>
          rw [hqueue] at halike
          exact ⟨⟨rfl, rfl⟩, hsize, queue, halike, (Queue.new_ok hqueue).2⟩

theorem Idle.fresh {limit : Option ℕ} {file : Bytes} {io : RingBufIo B}
    (h : io.Idle rep limit file) (hrep : Represents mem rep)
    (hreset : ∀ {b q}, rep b q → rep (Resets.reset b) q.reset) (span : ChunkSpan file) :
    Fresh (RingBufChunkReader.Shows mem rep limit) file span (io.reader span.start span.stop) := by
  obtain ⟨queue, hbuf, hlimit⟩ := h.buf
  have hsound := (hrep.sound hbuf).reset
  refine ⟨⟨queue.reset, ⟨file.drop span.start, io.willing⟩,
    some (file.drop span.start).length, span.stop - span.start, io.readCap⟩, ?_, ?_⟩
  · refine ⟨hreset hbuf, ?_, ?_, rfl, rfl⟩
    · rw [reader, h.source.1]
    · rw [reader, h.source.2, List.length_drop]
  · exact ⟨hsound, hlimit, rfl, Or.inr rfl, rfl, h.readCap⟩

theorem restores (report : BufError → IoError) (hrep : Represents mem rep)
    (hreset : ∀ {b q}, rep b q → rep (Resets.reset b) q.reset) (limit : Option ℕ)
    (file : Bytes) :
    (resource mem report file).Restores (Idle rep limit file) (Lent mem rep limit file)
      (Fresh (RingBufChunkReader.Shows mem rep limit) file) where
  acquired := by
    intro io span left opened hidle hacquire
    change io.chunkReader span.start span.stop = _ at hacquire
    rw [chunkReader] at hacquire
    cases hsys : io.sys 0 <;> rw [hsys] at hacquire <;> cases hacquire
    have hfresh := hidle.fresh hrep hreset span
    exact ⟨⟨hidle.source, hidle.readCap, _, _, hfresh⟩, hfresh⟩
  refused := by
    intro io span left err hidle hacquire
    change io.chunkReader span.start span.stop = _ at hacquire
    rw [chunkReader] at hacquire
    cases hsys : io.sys 0 <;> rw [hsys] at hacquire <;> cases hacquire
    obtain ⟨queue, hbuf, hlimit⟩ := hidle.buf
    exact ⟨hidle.source, hidle.readCap, queue.reset, hreset hbuf, hlimit⟩
  step := by
    intro io reader op hlent hallows
    obtain ⟨pending, left, hshows⟩ := hlent.shows
    exact ⟨hlent.source, hlent.readCap,
      (RingBufChunkReader.lawful report hrep).step hshows hallows⟩
  released := by
    intro io reader hlent
    obtain ⟨pending, left, spec, hsame, hwindow⟩ := hlent.shows
    exact ⟨hlent.source, hlent.readCap, spec.buf, hsame.buf, hwindow.limit⟩

theorem pristine {settings : RingBufSettings} {file : Bytes} {willing : ℕ → Except IoError ℕ}
    {sys : SysCalls} {io : RingBufIo B} (report : BufError → IoError) (hrep : Represents mem rep)
    (hreset : ∀ {b q}, rep b q → rep (Resets.reset b) q.reset) (hsize : 0 < settings.bufferSize)
    (hnew : RingBufIo.new mem settings file willing sys = .ok io)
    (uses : List (ChunkSpan file × List Op)) :
    List.Forall₂ (Pristine file) uses ((resource mem report file).uses io uses) :=
  (RingBufChunkReader.lawful report hrep).pristine rfl
    (restores report hrep hreset settings.bufferLimit file) (.new hrep hsize hnew) uses

end RingBufIo

/-- On a context of any kind, whatever the passes before wrote and whichever system calls
fail, every pass finds the file as it is. -/
theorem contexts_pristine (mem : Memory) (report : BufError → IoError)
    {system : PrivateMapping} (hsystem : system.Documented) (file : Bytes) (sys : SysCalls)
    (reads : ℕ → Option (IoError × ℕ)) (willing : ℕ → Except IoError ℕ)
    {settings : RingBufSettings} (hsize : 0 < settings.bufferSize)
    (uses : List (ChunkSpan file × List Op)) :
    List.Forall₂ (Pristine file) uses
        ((InMemoryIo.resource file).uses (.new file sys reads) uses) ∧
      List.Forall₂ (Pristine file) uses
        ((MmapIo.resource system file).uses (.new system file sys) uses) ∧
      (∀ io : RingBufIo LinearBuf, RingBufIo.new mem settings file willing sys = .ok io →
        List.Forall₂ (Pristine file) uses ((RingBufIo.resource mem report file).uses io uses)) ∧
      (∀ io : RingBufIo MirroredBuf, RingBufIo.new mem settings file willing sys = .ok io →
        List.Forall₂ (Pristine file) uses ((RingBufIo.resource mem report file).uses io uses)) ∧
      (∀ io : SliceIo LinearBuf, SliceIo.new mem settings file = .ok io →
        List.Forall₂ (Pristine file) uses ((RingBufIo.resource mem report file).uses io uses)) ∧
      ∀ io : SliceIo MirroredBuf, SliceIo.new mem settings file = .ok io →
        List.Forall₂ (Pristine file) uses ((RingBufIo.resource mem report file).uses io uses) := by
  have hlinear := LinearBuf.represents mem
  have hmirrored := MirroredBuf.represents mem
  refine ⟨?_, ?_, fun io hnew => ?_, fun io hnew => ?_, fun io hnew => ?_, fun io hnew => ?_⟩
  · exact FlatReader.lawful.pristine rfl (InMemoryIo.restores file) ⟨rfl, rfl⟩ uses
  · exact FlatReader.lawful.pristine rfl (MmapIo.restores hsystem file)
      (.new hsystem file sys) uses
  · exact RingBufIo.pristine report hlinear LinearBuf.Rep.reset hsize hnew uses
  · exact RingBufIo.pristine report hmirrored MirroredBuf.Rep.reset hsize hnew uses
  · exact RingBufIo.pristine report hlinear LinearBuf.Rep.reset hsize hnew uses
  · exact RingBufIo.pristine report hmirrored MirroredBuf.Rep.reset hsize hnew uses

/-- Two bytes in one chunk. -/
def twoBytes : ChunkSpan [97, 98] := ⟨0, 2, Nat.zero_le _, Nat.le_refl _⟩

/-- A pass over two bytes writes to the buffer, the next one fails on a read; the third reads
the file. -/
def rewriting : List (ChunkSpan [97, 98] × List Op) :=
  [(twoBytes, [.fill 2, .edit 0 120]), (twoBytes, [.fill 2]), (twoBytes, [.fill 2])]

def secondRead (call : ℕ) : Except IoError ℕ := if call = 1 then .error ⟨5⟩ else .ok 4

/-- On a mapping, where no `fill` reads, and in a ring buffer. -/
theorem contexts_pristine_rewritten :
    List.Forall₂ (Pristine [97, 98]) rewriting
        [.ok [.shows ([97, 98], 2), .shows ([120, 98], 2)], .ok [.shows ([97, 98], 2)],
          .ok [.shows ([97, 98], 2)]] ∧
      List.Forall₂ (Pristine [97, 98]) rewriting
        [.ok [.shows ([97, 98], 2), .shows ([120, 98], 2)], .ok [.fails ⟨5⟩],
          .ok [.shows ([97, 98], 2)]] := by
  obtain ⟨-, hmapped, hbuffered, -⟩ := contexts_pristine smallMemory (fun _ => ⟨0⟩)
    (⟨fun _ => rfl, fun _ _ _ => rfl⟩ : PrivateMapping.Documented ⟨id, fun file _ => file⟩)
    [97, 98] (fun _ => none) (fun _ => none) secondRead
    (show 0 < (⟨4, none⟩ : RingBufSettings).bufferSize by decide) rewriting
  have hbuffered := hbuffered
    ⟨⟨[0, 0, 0, 0], 0, 0, none⟩, [97, 98], 2, 4, secondRead, fun _ => none⟩ rfl
  have hmappedSeen : (MmapIo.resource ⟨id, fun file _ => file⟩ [97, 98]).uses
      (.new ⟨id, fun file _ => file⟩ [97, 98] fun _ => none) rewriting =
      [.ok [.shows ([97, 98], 2), .shows ([120, 98], 2)], .ok [.shows ([97, 98], 2)],
        .ok [.shows ([97, 98], 2)]] := by
    decide +kernel
  have hbufferedSeen : (RingBufIo.resource smallMemory (fun _ => ⟨0⟩) [97, 98]).uses
      (⟨⟨[0, 0, 0, 0], 0, 0, none⟩, [97, 98], 2, 4, secondRead, fun _ => none⟩ :
        RingBufIo LinearBuf) rewriting =
      [.ok [.shows ([97, 98], 2), .shows ([120, 98], 2)], .ok [.fails ⟨5⟩],
        .ok [.shows ([97, 98], 2)]] := by
    decide +kernel
  rw [hmappedSeen] at hmapped
  rw [hbufferedSeen] at hbuffered
  exact ⟨hmapped, hbuffered⟩

end Csveee
