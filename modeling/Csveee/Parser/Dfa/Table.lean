import Csveee.Parser.Dfa.Needles

/-!
# The transition table

The CSV state machine as data.  All of the dialect is baked into the table;
cells that are an error only under strict quoting keep their lenient successor
and carry a flag that the boundary scan's strict probe reads.
-/

namespace Csveee

/-- The interior states, then the action states. -/
inductive State
  | inField
  | inQuotedField
  | recordStart
  | fieldStart
  | afterClosingQuote
  | inEscapedQuote
  | inComment
  | fieldEnd
  | recordEnd
  | error
  deriving DecidableEq, Repr

/-- `state as u8 >= FIRST_ACTION` -/
def State.isAction : State → Bool
  | .fieldEnd | .recordEnd | .error => true
  | _ => false

structure Transition where
  next : State
  hasOutput : Bool
  strictError : Bool := false
  deriving DecidableEq, Repr

def Transition.withStrictError (t : Transition) : Transition :=
  { t with strictError := true }

structure Dfa where
  table : State → Byte → Transition
  /-- The terminator bytes that self-loop in `recordStart` are the others. -/
  recordStartStructural : Byte → Bool
  inFieldNeedles : StructuralNeedles
  inQuotedNeedles : StructuralNeedles
  endian : Endian

def Dfa.transition (dfa : Dfa) (state : State) (b : Byte) : Transition :=
  dfa.table state b

namespace Dfa

section Rows

variable (config : Config) (b : Byte)

def fieldStartRow : Transition :=
  if config.quote = some b then ⟨.inQuotedField, false, false⟩
  else if b = config.delimiter then ⟨.fieldEnd, false, false⟩
  else if config.isTerminator b then ⟨.recordEnd, false, false⟩
  else ⟨.inField, true, false⟩

/-- The cell, and whether the byte is structural in this state. -/
def inFieldRow : Transition × Bool :=
  if b = config.delimiter then (⟨.fieldEnd, false, false⟩, true)
  else if config.isTerminator b then (⟨.recordEnd, false, false⟩, true)
  else if config.quote = some b then
    (match config.quoteHandling with
      | .toggle => (Transition.mk .inQuotedField false false).withStrictError
      | .literal => (Transition.mk .inField true false).withStrictError
      | .strict => ⟨.error, false, false⟩,
      config.quoteHandling != .literal)
  else (⟨.inField, true, false⟩, false)

def inQuotedFieldRow : Transition × Bool :=
  if config.escape = some b ∧ config.doubledQuotes = false then
    (⟨.inEscapedQuote, false, false⟩, true)
  else if config.quote = some b then (⟨.afterClosingQuote, false, false⟩, true)
  else (⟨.inQuotedField, true, false⟩, false)

def afterClosingQuoteRow : Transition :=
  if config.doubledQuotes = true ∧ config.quote = some b then
    ⟨.inQuotedField, true, false⟩
  else if b = config.delimiter then ⟨.fieldEnd, false, false⟩
  else if config.isTerminator b then ⟨.recordEnd, false, false⟩
  else if config.quoteHandling = .strict then ⟨.error, false, false⟩
  else if config.quoteHandling = .toggle ∧ config.quote = some b then
    -- every quote toggles
    (Transition.mk .inQuotedField false false).withStrictError
  else (Transition.mk .inField true false).withStrictError

def inEscapedQuoteRow : Transition := ⟨.inQuotedField, true, false⟩

def inCommentRow : Transition :=
  if b = lineFeed ∨ (config.terminator = .crlf ∧ b = carriageReturn) then
    ⟨.recordStart, false, false⟩
  else ⟨.inComment, false, false⟩

/-- `recordStart` is `fieldStart` but for blank lines and comments. -/
def recordStartRow : Transition :=
  if config.isTerminator b then ⟨.recordStart, false, false⟩
  else if config.comment = some b then ⟨.inComment, false, false⟩
  else fieldStartRow config b

end Rows

end Dfa

def Dfa.new (endian : Endian) (config : Config) : Dfa where
  table
    | .fieldStart, b => Dfa.fieldStartRow config b
    | .inField, b => (Dfa.inFieldRow config b).1
    | .inQuotedField, b => (Dfa.inQuotedFieldRow config b).1
    | .afterClosingQuote, b => Dfa.afterClosingQuoteRow config b
    | .inEscapedQuote, _ => Dfa.inEscapedQuoteRow
    | .inComment, b => Dfa.inCommentRow config b
    | .recordStart, b => Dfa.recordStartRow config b
    | .fieldEnd, _ | .recordEnd, _ | .error, _ => ⟨.error, false, false⟩
  recordStartStructural b := !config.isTerminator b
  inFieldNeedles := .fromMask endian fun b => (Dfa.inFieldRow config b).2
  inQuotedNeedles := .fromMask endian fun b => (Dfa.inQuotedFieldRow config b).2
  endian := endian

end Csveee
