import Csveee.Parser.Simd.Bitmask

/-!
# The cross-vector scanner

Field ends and removals of one vector depend on bit 0 of the next vector's
masks, so the scanner holds every vector back by one step.  It owns that lag and
the carries that flow forward.
-/

namespace Csveee.Simd

structure ScannerConfig where
  delim : Byte
  term : Byte
  termB : Option Byte
  quote : Option Byte
  /-- `escape == quote`. -/
  doubledQuotes : Bool
  deriving DecidableEq, Repr

structure VectorOutput where
  /-- Field beginnings. -/
  b : Mask
  /-- Field ends. -/
  e : Mask
  /-- Chars to remove. -/
  r : Mask
  /-- Out-of-quotes delimiters and terminator-run ends, for the verifier. -/
  dStruct : Mask
  /-- The terminator subset of `dStruct`. -/
  term : Mask
  deriving DecidableEq, Repr

/-- Raw masks of the previous vector, awaiting the next vector's lowest bits. -/
structure Pending where
  structural : Structural
  m : Mask
  deriving DecidableEq, Repr

/-- What a pending vector resolves against. -/
structure Lookahead where
  delimOoq : Mask
  termOoq : Mask
  quote : Mask
  deriving DecidableEq, Repr

structure Scanner where
  config : ScannerConfig
  inQuotesCarry : Bool := false
  beginsCarry : BeginsCarry := {}
  endsCarry : Bool := false
  prevTermMsb : Bool := false
  pending : Option Pending := none
  deriving DecidableEq, Repr

/-- Bit 0 of the next vector's `B`. -/
def deriveBLsb (carry : BeginsCarry) (nextQuoteLsb : Bool) : Bool :=
  (carry.dStructMsb && !nextQuoteLsb) || carry.qbMsb

namespace Scanner

def resolveUnquoted (scanner : Scanner) (prev : Pending) (nextTermLsb : Bool) :
    Scanner × VectorOutput :=
  let pDelimOoq := prev.structural.delim
  let pTermOoq := prev.structural.term
  let runEnd := terminatorRunEnds pTermOoq nextTermLsb
  let runStart := terminatorRunStarts pTermOoq scanner.prevTermMsb
  let dStructB := pDelimOoq ||| runEnd
  let dStructE := pDelimOoq ||| runStart
  let b := ((dStructB <<< 1) ||| bit scanner.beginsCarry.dStructMsb) |||
    bit scanner.beginsCarry.qbMsb
  let e := dStructE &&& ~~~bit scanner.endsCarry
  ({ scanner with
      beginsCarry := { dStructMsb := msb dStructB, qbMsb := false }
      endsCarry := false
      prevTermMsb := msb pTermOoq },
    { b := b, e := e, r := 0, dStruct := dStructB, term := runEnd })

/-- `Scanner::resolve`: finish the held vector against the next one, `none` at
end of input. -/
def resolve (scanner : Scanner) (prev : Pending) (next : Option Lookahead) :
    Scanner × VectorOutput :=
  if prev.structural.quote = 0 ∧ prev.m = 0 then
    scanner.resolveUnquoted prev (next.any fun n => lsb n.termOoq)
  else
    let pDelimOoq := prev.structural.delim &&& ~~~prev.m
    let pTermOoq := prev.structural.term &&& ~~~prev.m
    let (nextDelimOoq, nextTermOoq, nextQuote) : Mask × Mask × Mask :=
      match next with
      | some n => (n.delimOoq, n.termOoq, n.quote)
      | none => (0, 0, 0)
    -- `B` keys off a run's end, `E` off its start
    let runEnd := terminatorRunEnds pTermOoq (lsb nextTermOoq)
    let runStart := terminatorRunStarts pTermOoq scanner.prevTermMsb
    let dStructB := pDelimOoq ||| runEnd
    let dStructE := pDelimOoq ||| runStart
    let (b, beginsCarry) :=
      computeFieldBegins dStructB prev.structural.quote scanner.beginsCarry
    let nextRunStart0 := lsb nextTermOoq && !msb pTermOoq
    let nextDLsb := lsb nextDelimOoq || nextRunStart0
    let (e, qeMsb) := computeFieldEnds dStructE prev.structural.quote prev.m
      nextDLsb scanner.endsCarry
    let nextBLsb := next.isSome && deriveBLsb beginsCarry (lsb nextQuote)
    let r := computeCharsToRemove prev.structural.quote prev.m b e nextBLsb
      (lsb nextQuote) scanner.config.doubledQuotes
    ({ scanner with
        beginsCarry := beginsCarry
        endsCarry := qeMsb
        prevTermMsb := msb pTermOoq },
      { b := b, e := e, r := r, dStruct := dStructB, term := runEnd })

/-- `Scanner::step`: consume one vector, return the previous one's output. -/
def step (scanner : Scanner) (v : Bytes) : Scanner × Option VectorOutput :=
  let cfg := scanner.config
  let s := matchStructural v cfg.delim cfg.term cfg.termB cfg.quote
  let (m, carryOut) := computeInQuotes s.quote scanner.inQuotesCarry
  let next : Lookahead :=
    { delimOoq := s.delim &&& ~~~m, termOoq := s.term &&& ~~~m, quote := s.quote }
  let hold (scanner : Scanner) : Scanner :=
    { scanner with
      pending := some { structural := s, m := m }
      inQuotesCarry := carryOut }
  match scanner.pending with
  | none => (hold scanner, none)
  | some prev =>
      let (scanner, out) := scanner.resolve prev (some next)
      (hold scanner, some out)

/-- `Scanner::finalize`: drain the pending vector. -/
def finalize (scanner : Scanner) : Scanner × Option VectorOutput :=
  match scanner.pending with
  | none => (scanner, none)
  | some prev =>
      let (scanner, out) := { scanner with pending := none }.resolve prev none
      (scanner, some out)

def inQuotes (scanner : Scanner) : Bool := scanner.inQuotesCarry

end Scanner

end Csveee.Simd
