import Mathlib.Data.List.Basic
import Mathlib.Tactic.Common

/-!
# Parser configuration

The dialect bytes and execution settings of a parse, and the consistency check
every configuration passes before a parser is built from it.  The check is what
makes the transition table and the vector masks well defined: no two control
bytes coincide, except that quote and escape may.
-/

namespace Csveee

abbrev Byte := UInt8
abbrev Bytes := List Byte

abbrev lineFeed : Byte := 10

abbrev carriageReturn : Byte := 13

inductive RecordTerminator
  | byte (b : Byte)
  | crlf
  deriving DecidableEq, Repr

/-- The terminator byte set: the primary byte plus an optional second one. -/
def RecordTerminator.bytes : RecordTerminator → Byte × Option Byte
  | .byte b => (b, none)
  | .crlf => (lineFeed, some carriageReturn)

/-- Per-thread ring-buffer settings; `0` and `some 0` are auto sentinels. -/
structure RingBufSettings where
  bufferSize : ℕ := 0
  bufferLimit : Option ℕ := some 0
  deriving DecidableEq, Repr

inductive IoBackend
  | auto
  | mmap
  | ringBuf (settings : RingBufSettings)
  | inMemory
  deriving DecidableEq, Repr

inductive QuoteHandling
  | toggle
  | strict
  | literal
  deriving DecidableEq, Repr

inductive ParserBackend
  | auto
  | dfa
  | simd
  deriving DecidableEq, Repr

/-- The texts of `Error::InvalidConfig`. -/
inductive Rejection
  /-- "ring buffer buffer_size must be <= its buffer_limit" -/
  | bufferSizeExceedsBufferLimit
  /-- "io_buffer_limit is a total across threads and must leave room for at
  least one ring buffer" -/
  | bufferSizeExceedsIoBufferLimit
  /-- "delimiter, terminator, quote, escape, and comment must be distinct" -/
  | controlBytesNotDistinct
  /-- "quote must be set when escape is set" -/
  | escapeWithoutQuote
  /-- "delimiter, terminator, quote, escape, and comment must be ASCII in text
  mode; use `ParserBuilder::bytes` for non-UTF-8 encodings" -/
  | controlBytesNotAscii
  /-- "SIMD parser supports at most 63 fields per record" -/
  | simdTooManyFields
  /-- "SIMD parser requires a fixed field count (Arity mode)" -/
  | simdNeedsFieldCount
  /-- "SIMD parser does not support `trim`" -/
  | simdTrim
  /-- "SIMD parser does not support `flexible` (variable field count)" -/
  | simdFlexible
  /-- "SIMD parser does not support comment lines" -/
  | simdComment
  /-- "SIMD parser only supports `QuoteHandling::Toggle`" -/
  | simdQuoteHandling
  /-- "SIMD parser does not yet support escape characters distinct from
  quote" -/
  | simdDistinctEscape
  deriving DecidableEq, Repr

structure Config where
  delimiter : Byte
  terminator : RecordTerminator
  quote : Option Byte
  escape : Option Byte
  comment : Option Byte
  hasHeaders : Bool
  concurrency : ℕ
  chunkSize : ℕ
  ioBufferLimit : Option ℕ
  quoteHandling : QuoteHandling
  flexible : Bool
  fieldCount : Option ℕ
  trim : Bool
  ioBackend : IoBackend
  parserBackend : ParserBackend
  deriving DecidableEq, Repr

namespace Config

def default : Config where
  delimiter := 44
  terminator := .crlf
  quote := some 34
  escape := some 34
  comment := none
  hasHeaders := true
  concurrency := 0
  chunkSize := 0
  ioBufferLimit := some 0
  quoteHandling := .toggle
  flexible := false
  fieldCount := none
  trim := false
  ioBackend := .auto
  parserBackend := .auto

inductive ControlByte
  | delimiter
  | terminator
  | quote
  | escape
  | comment
  deriving DecidableEq, Repr

/-- The control bytes that must be distinct, in the order `validate` lists
them. -/
def controlBytes (config : Config) : List (ControlByte × Option Byte) :=
  [(.delimiter, some config.delimiter),
    (.terminator, some config.terminator.bytes.1),
    (.terminator, config.terminator.bytes.2),
    (.quote, config.quote),
    (.escape, config.escape),
    (.comment, config.comment)]

/-- Both bytes are set and equal, and they are not the quote and escape byte of
doubled quoting. -/
def collides (left right : ControlByte × Option Byte) : Bool :=
  match left.2, right.2 with
  | some a, some b => a == b && !(left.1 == .quote && right.1 == .escape)
  | _, _ => false

/-- Some pair of entries, in list order, collides. -/
def anyCollision : List (ControlByte × Option Byte) → Bool
  | [] => false
  | entry :: entries => entries.any (collides entry) || anyCollision entries

/-- A set, non-sentinel limit lies below the ring buffer's stated size. -/
def exceeds (bufferSize : ℕ) : Option ℕ → Bool
  | some limit => limit != 0 && decide (limit < bufferSize)
  | none => false

def validate (config : Config) : Except Rejection Unit :=
  let ringRejection : Option Rejection :=
    match config.ioBackend with
    | .ringBuf ring =>
        if exceeds ring.bufferSize ring.bufferLimit then
          some .bufferSizeExceedsBufferLimit
        else if exceeds ring.bufferSize config.ioBufferLimit then
          some .bufferSizeExceedsIoBufferLimit
        else none
    | _ => none
  match ringRejection with
  | some rejection => .error rejection
  | none =>
      if anyCollision config.controlBytes then .error .controlBytesNotDistinct
      else if config.escape.isSome && config.quote.isNone then
        .error .escapeWithoutQuote
      else .ok ()

def validateAsciiControlBytes (config : Config) : Except Rejection Unit :=
  if config.controlBytes.any fun entry => entry.2.any fun b => decide (128 ≤ b) then
    .error .controlBytesNotAscii
  else .ok ()

/-- `escape == quote`: a quote inside a quoted field is written twice. -/
def doubledQuotes (config : Config) : Bool :=
  match config.quote, config.escape with
  | some q, some e => q == e
  | _, _ => false

/-- Membership in the terminator byte set. -/
def isTerminator (config : Config) (b : Byte) : Bool :=
  b == config.terminator.bytes.1 || config.terminator.bytes.2 == some b

/-- The control bytes of a validated configuration do not coincide, except that
quote and escape may. -/
structure Distinct (config : Config) : Prop where
  delimiter : config.isTerminator config.delimiter = false
  quote : ∀ q, config.quote = some q → q ≠ config.delimiter ∧ config.isTerminator q = false
  escape : ∀ e, config.escape = some e → e ≠ config.delimiter ∧ config.isTerminator e = false
  comment : ∀ c, config.comment = some c → c ≠ config.delimiter ∧
    config.isTerminator c = false ∧ config.quote ≠ some c ∧ config.escape ≠ some c
  escape_quote : config.escape.isSome = true → config.quote.isSome = true

theorem pairwise_of_anyCollision {entries : List (ControlByte × Option Byte)}
    (h : anyCollision entries = false) :
    entries.Pairwise fun left right => collides left right = false := by
  induction entries with
  | nil => exact .nil
  | cons entry entries ih =>
      rw [anyCollision, Bool.or_eq_false_iff, List.any_eq_false] at h
      exact .cons (fun right hright => eq_false_of_ne_true (h.1 right hright))
        (ih h.2)

/-- Entries that do not collide hold different bytes, unless they are the quote and
the escape. -/
theorem ne_of_not_collides {left right : ControlByte} {a b : Option Byte} {c : Byte}
    (h : collides (left, a) (right, b) = false)
    (hexempt : left ≠ .quote ∨ right ≠ .escape) (ha : a = some c) : b ≠ some c := by
  rintro rfl
  subst ha
  simp only [collides, beq_self_eq_true, Bool.true_and, Bool.not_eq_false',
    Bool.and_eq_true, beq_iff_eq] at h
  rcases hexempt with hexempt | hexempt
  · exact hexempt h.1
  · exact hexempt h.2

theorem isTerminator_eq_false {config : Config} {b : Byte}
    (first : some config.terminator.bytes.1 ≠ some b)
    (second : config.terminator.bytes.2 ≠ some b) : config.isTerminator b = false := by
  rw [isTerminator, Bool.or_eq_false_iff, beq_eq_false_iff_ne, beq_eq_false_iff_ne]
  exact ⟨fun heq => first (congrArg some heq.symm), second⟩

theorem distinct_of_validate {config : Config} (h : config.validate = .ok ()) :
    config.Distinct := by
  simp only [validate] at h
  split at h
  · cases h
  · split_ifs at h with hcollision hescape
    have hpairs := pairwise_of_anyCollision (eq_false_of_ne_true hcollision)
    simp only [controlBytes, List.pairwise_cons, List.mem_cons, List.not_mem_nil, or_false,
      forall_eq_or_imp, forall_eq] at hpairs
    obtain ⟨⟨dt1, dt2, dq, de, dc⟩, ⟨-, t1q, t1e, t1c⟩, ⟨t2q, t2e, t2c⟩, ⟨-, qc⟩, ec, -⟩ :=
      hpairs
    have differ := @ne_of_not_collides
    exact {
      delimiter := isTerminator_eq_false
        (differ dt1 (by simp) rfl) (differ dt2 (by simp) rfl)
      quote := fun q hq => ⟨fun heq => differ dq (by simp) (congrArg some heq.symm) hq,
        isTerminator_eq_false (fun heq => differ t1q (by simp) heq hq)
          (fun heq => differ t2q (by simp) heq hq)⟩
      escape := fun e he => ⟨fun heq => differ de (by simp) (congrArg some heq.symm) he,
        isTerminator_eq_false (fun heq => differ t1e (by simp) heq he)
          (fun heq => differ t2e (by simp) heq he)⟩
      comment := fun c hc => ⟨fun heq => differ dc (by simp) (congrArg some heq.symm) hc,
        isTerminator_eq_false (fun heq => differ t1c (by simp) heq hc)
          (fun heq => differ t2c (by simp) heq hc),
        fun heq => differ qc (by simp) heq hc,
        fun heq => differ ec (by simp) heq hc⟩
      escape_quote := fun he => by
        simp only [he, Bool.true_and, Option.isNone_iff_eq_none] at hescape
        cases hq : config.quote with
        | none => simp [hq] at hescape
        | some q => rfl }

end Config

/-- A configuration that passed `Config::validate`.  Every parser holds one:
`try_from_config` is the only constructor, and the field count pinned
afterwards is not among the validated fields. -/
structure ValidConfig where
  config : Config
  valid : config.validate = .ok ()

theorem ValidConfig.distinct (config : ValidConfig) : config.config.Distinct :=
  Config.distinct_of_validate config.valid

end Csveee
