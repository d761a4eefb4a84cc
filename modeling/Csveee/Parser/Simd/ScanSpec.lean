import Csveee.Parser.Simd.Scan
import Csveee.Parser.Simd.Windows

/-!
# What the scanner computes

The masks of a whole text as streams of flags.  The scanner, fed the text vector by
vector, holds the windows of these streams and hands them out one vector late.
-/

namespace Csveee.Simd

/-- Where the structural bytes of a text lie. -/
structure Marks where
  delim : ℕ → Bool
  term : ℕ → Bool
  quote : ℕ → Bool

namespace Marks

section

variable (marks : Marks)

/-- Whether the quotes up to and with a byte are odd in number: it lies in quotes, an
opening quote included, a closing one not. -/
def inQuotes : ℕ → Bool := parity marks.quote

def delimOoq (i : ℕ) : Bool := marks.delim i && !marks.inQuotes i

def termOoq (i : ℕ) : Bool := marks.term i && !marks.inQuotes i

/-- The last byte of a maximal run of terminators out of quotes. -/
def runEnd (i : ℕ) : Bool := marks.termOoq i && !lead marks.termOoq i

/-- The first byte of such a run. -/
def runStart (i : ℕ) : Bool := marks.termOoq i && !lag marks.termOoq i

/-- The boundaries: delimiters out of quotes, and the ends of runs. -/
def dStruct (i : ℕ) : Bool := marks.delimOoq i || marks.runEnd i

/-- The bytes that end a field: delimiters out of quotes, and the starts of runs. -/
def stops (i : ℕ) : Bool := marks.delimOoq i || marks.runStart i

/-- A quote directly after a boundary. -/
def opens (i : ℕ) : Bool := lag marks.dStruct i && marks.quote i

/-- The byte after a boundary, or the one after that if it is a quote. -/
def b (i : ℕ) : Bool := (lag marks.dStruct i && !marks.opens i) || lag marks.opens i

/-- A closing quote directly before the end of its field. -/
def closes (i : ℕ) : Bool := (marks.quote i && !marks.inQuotes i) && lead marks.stops i

/-- The byte that ends a field, moved back onto a closing quote before it. -/
def e (i : ℕ) : Bool := (marks.stops i && !lag marks.closes i) || marks.closes i

/-- The quotes, but for one that opens a field, one that ends it, and one of each pair
if quotes are doubled. -/
def r (doubledQuotes : Bool) (i : ℕ) : Bool :=
  marks.quote i && !(marks.inQuotes i && lead marks.b i) && !marks.e i &&
    !(doubledQuotes && !marks.inQuotes i && lead marks.quote i)

end

def structural (marks : Marks) (j : ℕ) : Structural where
  delim := window marks.delim j
  term := window marks.term j
  quote := window marks.quote j

/-- What the scanner is to hand out for the `j`-th vector. -/
def output (marks : Marks) (doubledQuotes : Bool) (j : ℕ) : VectorOutput where
  b := window marks.b j
  e := window marks.e j
  r := window (marks.r doubledQuotes) j
  dStruct := window marks.dStruct j
  term := window marks.runEnd j

end Marks

section Operations

variable (marks : Marks) (j : ℕ)

theorem terminatorRunEnds_window :
    terminatorRunEnds (window marks.termOoq j) (marks.termOoq (64 * (j + 1))) =
      window marks.runEnd j := by
  rw [terminatorRunEnds, window_lead, window_and_not]
  rfl

theorem terminatorRunStarts_window :
    terminatorRunStarts (window marks.termOoq j) (lag marks.termOoq (64 * j)) =
      window marks.runStart j := by
  rw [terminatorRunStarts, window_lag, window_and_not]
  rfl

theorem computeInQuotes_window :
    computeInQuotes (window marks.quote j) (lag marks.inQuotes (64 * j)) =
      (window marks.inQuotes j, lag marks.inQuotes (64 * (j + 1))) := by
  have hparity : ∀ i < 64, (computeInQuotes (window marks.quote j)
      (lag marks.inQuotes (64 * j))).1.getLsbD i = marks.inQuotes (64 * j + i) := by
    intro i hi
    rw [getLsbD_computeInQuotes _ _ hi, Marks.inQuotes, parity_add]
    exact congrArg _ (parity_congr fun k hk => getLsbD_window_of_lt _ _ (by omega))
  refine Prod.ext (eq_window hparity) ?_
  rw [computeInQuotes_carry, hparity 63 (by omega),
    show 64 * (j + 1) = 64 * j + 63 + 1 by omega, lag_succ]

theorem computeFieldBegins_window :
    computeFieldBegins (window marks.dStruct j) (window marks.quote j)
        ⟨lag marks.dStruct (64 * j), lag marks.opens (64 * j)⟩ =
      (window marks.b j,
        ⟨lag marks.dStruct (64 * (j + 1)), lag marks.opens (64 * (j + 1))⟩) := by
  have hopens : window (lag marks.dStruct) j &&& window marks.quote j = window marks.opens j :=
    window_and _ _ j
  simp only [computeFieldBegins, window_lag, hopens, window_and_not, msb_window]
  rw [BitVec.or_assoc, window_lag, window_or]
  rfl

theorem computeFieldEnds_window :
    computeFieldEnds (window marks.stops j) (window marks.quote j) (window marks.inQuotes j)
        (marks.stops (64 * (j + 1))) (lag marks.closes (64 * j)) =
      (window marks.e j, lag marks.closes (64 * (j + 1))) := by
  have hcloses : window (fun i => marks.quote i && !marks.inQuotes i) j &&&
      window (lead marks.stops) j = window marks.closes j := window_and _ _ j
  simp only [computeFieldEnds, window_and_not, window_lead, hcloses, window_lag, window_or,
    msb_window]
  rfl

/-- The neighbour's bit of `B` matters to an opening quote in the last lane only. -/
theorem computeCharsToRemove_window (doubledQuotes : Bool) {nextB : Bool}
    (hnext : nextB = marks.b (64 * (j + 1)) ∨ marks.inQuotes (64 * j + 63) = false) :
    computeCharsToRemove (window marks.quote j) (window marks.inQuotes j) (window marks.b j)
        (window marks.e j) nextB (marks.quote (64 * (j + 1))) doubledQuotes =
      window (marks.r doubledQuotes) j := by
  have hout : ∀ i, marks.e i = true → marks.inQuotes i = false := by
    intro i
    simp only [Marks.e, Marks.stops, Marks.closes, Marks.delimOoq, Marks.runStart, Marks.termOoq]
    cases marks.inQuotes i <;> simp
  have hopeners : window (fun i => marks.quote i && marks.inQuotes i) j &&&
      ~~~((window marks.b j >>> 1) ||| (bit nextB <<< 63)) =
        window (fun i => (marks.quote i && marks.inQuotes i) && !lead marks.b i) j := by
    rcases hnext with rfl | hlast
    · rw [window_lead, window_and_not]
    · refine eq_window fun i hi => ?_
      rw [BitVec.getLsbD_and, BitVec.getLsbD_not, BitVec.getLsbD_or, BitVec.getLsbD_ushiftRight,
        BitVec.getLsbD_shiftLeft, getLsbD_bit, getLsbD_window_of_lt _ _ hi, getLsbD_window]
      by_cases h63 : i = 63
      · rw [h63, hlast]
        simp
      · rw [decide_eq_true hi, decide_eq_true (show 1 + i < 64 by omega),
          decide_eq_true (show i < 63 by omega), show 64 * j + (1 + i) = 64 * j + i + 1 by omega]
        simp [lead]
  refine eq_window fun i hi => ?_
  have he := hout (64 * j + i)
  simp only [computeCharsToRemove, window_and, hopeners, window_and_not, window_lead]
  cases doubledQuotes with
  | false =>
      simp only [Bool.false_eq_true, if_false, window_or, getLsbD_window_of_lt _ _ hi, Marks.r]
      cases hq : marks.inQuotes (64 * j + i) <;> cases hd : marks.e (64 * j + i) <;> simp_all
  | true =>
      simp only [if_true, window_or, getLsbD_window_of_lt _ _ hi, Marks.r]
      cases hq : marks.inQuotes (64 * j + i) <;> cases hd : marks.e (64 * j + i) <;> simp_all

end Operations

namespace Scanner

/-- `Scanner::resolve` without its shortcut. -/
def resolveQuoted (scanner : Scanner) (prev : Pending) (next : Option Lookahead) :
    Scanner × VectorOutput :=
  let pDelimOoq := prev.structural.delim &&& ~~~prev.m
  let pTermOoq := prev.structural.term &&& ~~~prev.m
  let (nextDelimOoq, nextTermOoq, nextQuote) : Mask × Mask × Mask :=
    match next with
    | some n => (n.delimOoq, n.termOoq, n.quote)
    | none => (0, 0, 0)
  let runEnd := terminatorRunEnds pTermOoq (lsb nextTermOoq)
  let runStart := terminatorRunStarts pTermOoq scanner.prevTermMsb
  let dStructB := pDelimOoq ||| runEnd
  let dStructE := pDelimOoq ||| runStart
  let (b, beginsCarry) :=
    computeFieldBegins dStructB prev.structural.quote scanner.beginsCarry
  let nextRunStart0 := lsb nextTermOoq && !msb pTermOoq
  let nextDLsb := lsb nextDelimOoq || nextRunStart0
  let (e, qeMsb) := computeFieldEnds dStructE prev.structural.quote prev.m
    nextDLsb scanner.endsCarry
  let nextBLsb := next.isSome && deriveBLsb beginsCarry (lsb nextQuote)
  let r := computeCharsToRemove prev.structural.quote prev.m b e nextBLsb
    (lsb nextQuote) scanner.config.doubledQuotes
  ({ scanner with
      beginsCarry := beginsCarry
      endsCarry := qeMsb
      prevTermMsb := msb pTermOoq },
    { b := b, e := e, r := r, dStruct := dStructB, term := runEnd })

/-- The shortcut hands out what the long way does, whatever it carries. -/
theorem resolveUnquoted_eq (scanner : Scanner) {prev : Pending} (hquote : prev.structural.quote = 0)
    (hm : prev.m = 0) (next : Option Lookahead) :
    scanner.resolveUnquoted prev (next.any fun n => lsb n.termOoq) =
      scanner.resolveQuoted prev next := by
  have hnot (m : Mask) : m &&& ~~~0 = m := by
    rw [show ~~~(0 : Mask) = BitVec.allOnes 64 from BitVec.not_zero, BitVec.and_allOnes]
  have hand (m : Mask) : m &&& 0 = 0 := BitVec.and_zero
  have hzero_and (m : Mask) : 0 &&& m = 0 := BitVec.zero_and
  have hor (m : Mask) : m ||| 0 = m := BitVec.or_zero
  have hzero_or (m : Mask) : 0 ||| m = m := BitVec.zero_or
  have hshift : (0 : Mask) <<< 1 = 0 := by decide
  have hmsb : msb 0 = false := by decide
  have hlsb : lsb 0 = false := by decide
  cases next <;>
    simp only [resolveUnquoted, resolveQuoted, computeFieldBegins, computeFieldEnds,
      computeCharsToRemove, hquote, hm, hnot, hand, hzero_and, hor, hzero_or, hshift, hmsb, hlsb,
      ite_self, Option.any_none, Option.any_some]

theorem resolve_eq (scanner : Scanner) (prev : Pending) (next : Option Lookahead) :
    scanner.resolve prev next = scanner.resolveQuoted prev next := by
  change (if prev.structural.quote = 0 ∧ prev.m = 0 then _
    else scanner.resolveQuoted prev next) = _
  split_ifs with hplain
  · exact scanner.resolveUnquoted_eq hplain.1 hplain.2 next
  · rfl

end Scanner

namespace Marks

section

variable (marks : Marks)

/-- What the vector before the `j`-th resolves against. -/
def lookahead (j : ℕ) : Lookahead where
  delimOoq := window marks.delimOoq j
  termOoq := window marks.termOoq j
  quote := window marks.quote j

/-- The vector behind the `j`-th is the next one of the text, or the text ends out of
quotes. -/
def Follows (j : ℕ) : Option Lookahead → Prop
  | some next => next = marks.lookahead (j + 1)
  | none => marks.delim (64 * (j + 1)) = false ∧ marks.term (64 * (j + 1)) = false ∧
      marks.quote (64 * (j + 1)) = false ∧ lag marks.inQuotes (64 * (j + 1)) = false

/-- The scanner ahead of the `j`-th vector. -/
def scannerAt (config : ScannerConfig) (j : ℕ) : Scanner where
  config := config
  inQuotesCarry := lag marks.inQuotes (64 * j)
  beginsCarry := ⟨lag marks.dStruct (64 * (j - 1)), lag marks.opens (64 * (j - 1))⟩
  endsCarry := lag marks.closes (64 * (j - 1))
  prevTermMsb := lag marks.termOoq (64 * (j - 1))
  pending := match j with
    | 0 => none
    | j + 1 => some ⟨marks.structural j, window marks.inQuotes j⟩

theorem scannerAt_zero (config : ScannerConfig) :
    marks.scannerAt config 0 = { config := config } := rfl

/-- The carries ahead of the resolution of the `j`-th vector. -/
structure Carries (j : ℕ) (scanner : Scanner) : Prop where
  begins : scanner.beginsCarry = ⟨lag marks.dStruct (64 * j), lag marks.opens (64 * j)⟩
  ends : scanner.endsCarry = lag marks.closes (64 * j)
  prevTerm : scanner.prevTermMsb = lag marks.termOoq (64 * j)

variable {marks} {j : ℕ}

/-- A vector resolved with nothing behind it: but for the removals, all is as it would be. -/
theorem Carries.resolve_none {scanner : Scanner} (h : marks.Carries j scanner)
    (hnoDelim : marks.delim (64 * (j + 1)) = false) (hnoTerm : marks.term (64 * (j + 1)) = false) :
    scanner.resolve ⟨marks.structural j, window marks.inQuotes j⟩ none =
      ({ scanner with
          beginsCarry := ⟨lag marks.dStruct (64 * (j + 1)), lag marks.opens (64 * (j + 1))⟩
          endsCarry := lag marks.closes (64 * (j + 1))
          prevTermMsb := lag marks.termOoq (64 * (j + 1)) },
        { marks.output scanner.config.doubledQuotes j with
          r := computeCharsToRemove (window marks.quote j) (window marks.inQuotes j)
            (window marks.b j) (window marks.e j) false false scanner.config.doubledQuotes }) := by
  have hdelim : window marks.delim j &&& ~~~window marks.inQuotes j = window marks.delimOoq j :=
    window_and_not _ _ j
  have hterm : window marks.term j &&& ~~~window marks.inQuotes j = window marks.termOoq j :=
    window_and_not _ _ j
  have hbegin : window marks.delimOoq j ||| window marks.runEnd j = window marks.dStruct j :=
    window_or _ _ j
  have hend : window marks.delimOoq j ||| window marks.runStart j = window marks.stops j :=
    window_or _ _ j
  have hnoTermOoq : marks.termOoq (64 * (j + 1)) = false := by
    rw [termOoq, hnoTerm, Bool.false_and]
  have hnoStop : marks.stops (64 * (j + 1)) = false := by
    rw [stops, delimOoq, hnoDelim, runStart, hnoTermOoq]
    rfl
  have hlsb : lsb 0 = false := by decide
  have hends := computeFieldEnds_window marks j
  have hruns := terminatorRunEnds_window marks j
  rw [hnoStop] at hends
  rw [hnoTermOoq] at hruns
  rw [Scanner.resolve_eq]
  simp only [Scanner.resolveQuoted, structural, hdelim, hterm, h.begins, h.ends,
    h.prevTerm, hlsb, msb_window, hruns, terminatorRunStarts_window, hbegin, hend,
    computeFieldBegins_window, Bool.false_and, Bool.or_self, hends, Option.isSome_none]
  rfl

theorem Carries.resolve {scanner : Scanner} (h : marks.Carries j scanner)
    {next : Option Lookahead} (hnext : marks.Follows j next) :
    scanner.resolve ⟨marks.structural j, window marks.inQuotes j⟩ next =
      ({ scanner with
          beginsCarry := ⟨lag marks.dStruct (64 * (j + 1)), lag marks.opens (64 * (j + 1))⟩
          endsCarry := lag marks.closes (64 * (j + 1))
          prevTermMsb := lag marks.termOoq (64 * (j + 1)) },
        marks.output scanner.config.doubledQuotes j) := by
  have hdelim : window marks.delim j &&& ~~~window marks.inQuotes j = window marks.delimOoq j :=
    window_and_not _ _ j
  have hterm : window marks.term j &&& ~~~window marks.inQuotes j = window marks.termOoq j :=
    window_and_not _ _ j
  have hbegin : window marks.delimOoq j ||| window marks.runEnd j = window marks.dStruct j :=
    window_or _ _ j
  have hend : window marks.delimOoq j ||| window marks.runStart j = window marks.stops j :=
    window_or _ _ j
  cases next with
  | some next =>
      have hstops : (marks.delimOoq (64 * (j + 1)) ||
          (marks.termOoq (64 * (j + 1)) && !lag marks.termOoq (64 * (j + 1)))) =
            marks.stops (64 * (j + 1)) := rfl
      have hb : deriveBLsb ⟨lag marks.dStruct (64 * (j + 1)), lag marks.opens (64 * (j + 1))⟩
          (marks.quote (64 * (j + 1))) = marks.b (64 * (j + 1)) := by
        rw [deriveBLsb, Marks.b, Marks.opens]
        cases lag marks.dStruct (64 * (j + 1)) <;> simp
      rw [Scanner.resolve_eq, show next = marks.lookahead (j + 1) from hnext]
      simp only [Scanner.resolveQuoted, lookahead, structural, hdelim, hterm, h.begins, h.ends,
        h.prevTerm, lsb_window, msb_window, terminatorRunEnds_window, terminatorRunStarts_window,
        hbegin, hend, computeFieldBegins_window, hstops, computeFieldEnds_window,
        Option.isSome_some, Bool.true_and, hb]
      rw [computeCharsToRemove_window marks j _ (Or.inl rfl)]
      rfl
  | none =>
      obtain ⟨hnoDelim, hnoTerm, hnoQuote, hlast⟩ := hnext
      have hlast' : marks.inQuotes (64 * j + 63) = false := by
        rw [← hlast, show 64 * (j + 1) = 64 * j + 63 + 1 by omega, lag_succ]
      have hremove := @computeCharsToRemove_window marks j scanner.config.doubledQuotes false
        (Or.inr hlast')
      rw [hnoQuote] at hremove
      rw [h.resolve_none hnoDelim hnoTerm, hremove]
      rfl

theorem carries_scannerAt (marks : Marks) (config : ScannerConfig) (j : ℕ) :
    marks.Carries j (marks.scannerAt config (j + 1)) := ⟨rfl, rfl, rfl⟩

end

end Marks

namespace Scanner

/-- A vector that is the next one of the text. -/
def Reads (config : ScannerConfig) (marks : Marks) (j : ℕ) (v : Bytes) : Prop :=
  matchStructural v config.delim config.term config.termB config.quote = marks.structural j

/-- One step hands out the vector before. -/
theorem step_scannerAt {config : ScannerConfig} {marks : Marks} {j : ℕ} {v : Bytes}
    (hv : Reads config marks j v) :
    (marks.scannerAt config j).step v = (marks.scannerAt config (j + 1),
      match j with
      | 0 => none
      | j + 1 => some (marks.output config.doubledQuotes j)) := by
  rw [Reads] at hv
  have hquotes : computeInQuotes (marks.structural j).quote (lag marks.inQuotes (64 * j)) =
      (window marks.inQuotes j, lag marks.inQuotes (64 * (j + 1))) := computeInQuotes_window marks j
  cases j with
  | zero =>
      simp only [step, Marks.scannerAt, hv, hquotes]
  | succ j =>
      have hnext : marks.Follows j (some (marks.lookahead (j + 1))) := rfl
      have hresolve := (marks.carries_scannerAt config j).resolve hnext
      have hahead : (⟨(marks.structural (j + 1)).delim &&& ~~~window marks.inQuotes (j + 1),
          (marks.structural (j + 1)).term &&& ~~~window marks.inQuotes (j + 1),
          (marks.structural (j + 1)).quote⟩ : Lookahead) = marks.lookahead (j + 1) := by
        rw [Marks.lookahead, Marks.structural, window_and_not, window_and_not]
        rfl
      simp only [Marks.scannerAt, Nat.add_sub_cancel] at hresolve
      simp only [step, Marks.scannerAt, Nat.add_sub_cancel, hv, hquotes, hahead, hresolve]

/-- At the end of the input the last vector is handed out. -/
theorem finalize_scannerAt {config : ScannerConfig} {marks : Marks} {j : ℕ}
    (hend : marks.Follows j none) :
    ((marks.scannerAt config (j + 1)).finalize).2 =
      some (marks.output config.doubledQuotes j) := by
  have hresolve := (⟨rfl, rfl, rfl⟩ : marks.Carries j
    { marks.scannerAt config (j + 1) with pending := none }).resolve hend
  have hpending : (marks.scannerAt config (j + 1)).pending =
      some ⟨marks.structural j, window marks.inQuotes j⟩ := rfl
  simp only [finalize, hpending, hresolve]
  rfl

/-- At the end of any input its boundaries are. -/
theorem finalize_scannerAt_open {config : ScannerConfig} {marks : Marks} {j : ℕ}
    (hdelim : marks.delim (64 * (j + 1)) = false) (hterm : marks.term (64 * (j + 1)) = false) :
    ∃ r, ((marks.scannerAt config (j + 1)).finalize).2 =
      some { marks.output config.doubledQuotes j with r := r } := by
  have hresolve := (⟨rfl, rfl, rfl⟩ : marks.Carries j
    { marks.scannerAt config (j + 1) with pending := none }).resolve_none hdelim hterm
  have hpending : (marks.scannerAt config (j + 1)).pending =
      some ⟨marks.structural j, window marks.inQuotes j⟩ := rfl
  simp only [finalize, hpending, hresolve]
  exact ⟨_, rfl⟩

/-- Draining leaves the parity of the quotes as it is. -/
theorem inQuotes_finalize (scanner : Scanner) :
    scanner.finalize.1.inQuotes = scanner.inQuotesCarry := by
  rw [finalize]
  split
  · rfl
  · simp only [resolve_eq]
    rfl

/-- Feed vectors, and collect what comes back. -/
def feed : Scanner → List Bytes → Scanner × List VectorOutput
  | scanner, [] => (scanner, [])
  | scanner, v :: vs =>
      let (scanner, out) := scanner.step v
      let (scanner, outs) := scanner.feed vs
      (scanner, out.toList ++ outs)

/-- What a scanner hands out for the vectors of a whole text. -/
def outputs (config : ScannerConfig) (vectors : List Bytes) : List VectorOutput :=
  let (scanner, outs) := ({ config := config } : Scanner).feed vectors
  outs ++ scanner.finalize.2.toList

theorem feed_scannerAt {config : ScannerConfig} {marks : Marks} (vectors : List Bytes) (j : ℕ)
    (hreads : ∀ i v, vectors[i]? = some v → Reads config marks (j + 1 + i) v) :
    (marks.scannerAt config (j + 1)).feed vectors =
      (marks.scannerAt config (j + 1 + vectors.length),
        (List.range' j vectors.length).map (marks.output config.doubledQuotes)) := by
  induction vectors generalizing j with
  | nil => rfl
  | cons v vs ih =>
      have hrest : ∀ i v, vs[i]? = some v → Reads config marks (j + 1 + 1 + i) v := by
        intro i v hi
        rw [show j + 1 + 1 + i = j + 1 + (i + 1) by omega]
        exact hreads (i + 1) v hi
      rw [feed, step_scannerAt (hreads 0 v rfl)]
      simp only [ih (j + 1) hrest, List.length_cons, List.range'_succ, List.map_cons,
        Option.toList_some, List.singleton_append]
      rw [show j + 1 + 1 + vs.length = j + 1 + (vs.length + 1) by omega]

/-- One output comes back for each vector: the masks of the whole text. -/
theorem outputs_eq {config : ScannerConfig} {marks : Marks} (vectors : List Bytes)
    (hreads : ∀ i v, vectors[i]? = some v → Reads config marks i v)
    (hend : ∀ j, vectors.length = j + 1 → marks.Follows j none) :
    outputs config vectors =
      (List.range vectors.length).map (marks.output config.doubledQuotes) := by
  cases vectors with
  | nil => rfl
  | cons v vs =>
      have hfirst := step_scannerAt (hreads 0 v rfl)
      have hrest : ∀ i v, vs[i]? = some v → Reads config marks (0 + 1 + i) v := by
        intro i v hi
        rw [Nat.add_comm]
        exact hreads (i + 1) v hi
      rw [outputs, ← marks.scannerAt_zero, feed, hfirst]
      simp only [feed_scannerAt vs 0 hrest, Nat.add_comm (0 + 1) vs.length,
        finalize_scannerAt (hend vs.length rfl), List.length_cons, List.range_eq_range',
        Option.toList_none, Option.toList_some, List.nil_append]
      rw [List.range'_concat]
      simp

end Scanner

/-- Neither delimiter, terminator nor quote. -/
def ScannerConfig.Neutral (config : ScannerConfig) (c : Byte) : Prop :=
  c ≠ config.delim ∧ c ≠ config.term ∧ config.termB ≠ some c ∧ config.quote ≠ some c

namespace Marks

/-- Where the structural bytes of a text lie. -/
def of (config : ScannerConfig) (text : Bytes) : Marks where
  delim i := text[i]? == some config.delim
  term i := text[i]? == some config.term || config.termB.any fun t => text[i]? == some t
  quote i := config.quote.any fun q => text[i]? == some q

/-- The marks of a text that begins a byte later. -/
def shifted (marks : Marks) : Marks where
  delim := lag marks.delim
  term := lag marks.term
  quote := lag marks.quote

section

variable (marks : Marks)

theorem inQuotes_shifted : marks.shifted.inQuotes = lag marks.inQuotes := by
  funext i
  induction i with
  | zero => rfl
  | succ i ih =>
      change (marks.shifted.inQuotes i ^^ marks.quote i) = marks.inQuotes i
      rw [ih, inQuotes]
      exact (parity_eq marks.quote i).symm

theorem delimOoq_shifted : marks.shifted.delimOoq = lag marks.delimOoq := by
  funext i
  rw [delimOoq, inQuotes_shifted]
  cases i <;> rfl

theorem termOoq_shifted : marks.shifted.termOoq = lag marks.termOoq := by
  funext i
  rw [termOoq, inQuotes_shifted]
  cases i <;> rfl

theorem runEnd_shifted : marks.shifted.runEnd = lag marks.runEnd := by
  funext i
  rw [runEnd, termOoq_shifted]
  cases i <;> rfl

theorem runStart_shifted : marks.shifted.runStart = lag marks.runStart := by
  funext i
  rw [runStart, termOoq_shifted]
  cases i <;> rfl

theorem dStruct_shifted : marks.shifted.dStruct = lag marks.dStruct := by
  funext i
  rw [dStruct, delimOoq_shifted, runEnd_shifted]
  cases i <;> rfl

theorem stops_shifted : marks.shifted.stops = lag marks.stops := by
  funext i
  rw [stops, delimOoq_shifted, runStart_shifted]
  cases i <;> rfl

theorem opens_shifted : marks.shifted.opens = lag marks.opens := by
  funext i
  rw [opens, dStruct_shifted]
  cases i <;> rfl

theorem b_shifted : marks.shifted.b = lag marks.b := by
  funext i
  rw [b, dStruct_shifted, opens_shifted]
  cases i <;> rfl

theorem closes_shifted : marks.shifted.closes = lag marks.closes := by
  funext i
  rw [closes, inQuotes_shifted, stops_shifted]
  cases i <;> rfl

theorem e_shifted : marks.shifted.e = lag marks.e := by
  funext i
  rw [e, stops_shifted, closes_shifted]
  cases i <;> rfl

theorem r_shifted (doubledQuotes : Bool) :
    marks.shifted.r doubledQuotes = lag (marks.r doubledQuotes) := by
  funext i
  rw [r, inQuotes_shifted, b_shifted, e_shifted]
  cases i <;> rfl

end

theorem of_cons {config : ScannerConfig} {c : Byte} (hneutral : config.Neutral c) (text : Bytes) :
    of config (c :: text) = (of config text).shifted := by
  obtain ⟨hdelim, hterm, htermB, hquote⟩ := hneutral
  rw [shifted, of, of, Marks.mk.injEq]
  refine ⟨?_, ?_, ?_⟩
  · funext i
    cases i with
    | zero => simpa using hdelim
    | succ i => rfl
  · funext i
    cases i with
    | zero =>
        cases h : config.termB with
        | none => simpa using hterm
        | some t =>
            have hne : c ≠ t := fun heq => htermB (heq ▸ h)
            simp [hterm, hne]
    | succ i => rfl
  · funext i
    cases i with
    | zero =>
        cases h : config.quote with
        | none => rfl
        | some q =>
            have hne : c ≠ q := fun heq => hquote (heq ▸ h)
            simp [hne]
    | succ i => rfl

theorem of_append {config : ScannerConfig} {tail : Bytes}
    (hneutral : ∀ c ∈ tail, config.Neutral c) (text : Bytes) :
    of config (text ++ tail) = of config text := by
  have hsame : ∀ (i : ℕ) (b : Byte), (∀ c ∈ tail, c ≠ b) →
      ((text ++ tail : Bytes)[i]? == some b) = (text[i]? == some b) := by
    intro i b hb
    rcases Nat.lt_or_ge i text.length with hi | hi
    · rw [List.getElem?_append_left hi]
    · rw [List.getElem?_append_right hi, List.getElem?_eq_none hi, Bool.eq_iff_iff, beq_iff_eq]
      constructor
      · intro htail
        exact absurd rfl (hb b (List.mem_of_getElem? htail))
      · intro hnone
        cases hnone
  rw [of, of, Marks.mk.injEq]
  refine ⟨funext fun i => ?_, funext fun i => ?_, funext fun i => ?_⟩
  · exact hsame i _ fun c hc => (hneutral c hc).1
  · rw [hsame i _ fun c hc => (hneutral c hc).2.1]
    cases hterm : config.termB with
    | none => rfl
    | some t =>
        rw [Option.any_some, Option.any_some, hsame i t fun c hc heq =>
          (hneutral c hc).2.2.1 (heq ▸ hterm)]
  · cases hquote : config.quote with
    | none => rfl
    | some q => exact hsame i q fun c hc heq => (hneutral c hc).2.2.2 (heq ▸ hquote)

theorem of_past {config : ScannerConfig} {text : Bytes} {i : ℕ} (hi : text.length ≤ i) :
    (of config text).delim i = false ∧ (of config text).term i = false ∧
      (of config text).quote i = false := by
  have hnone : text[i]? = none := List.getElem?_eq_none hi
  refine ⟨?_, ?_, ?_⟩
  · simp [of, hnone]
  · cases h : config.termB <;> simp [of, hnone, h]
  · cases h : config.quote <;> simp [of, hnone, h]

end Marks

namespace Scanner

/-- The consecutive vectors of a text. -/
def vectorsOf (text : Bytes) : List Bytes :=
  (List.range (text.length / 64)).map fun j => (text.drop (64 * j)).take 64

theorem reads_vector (config : ScannerConfig) {text v : Bytes} {j : ℕ}
    (hv : ∀ i < 64, v[i]? = text[64 * j + i]?) : Reads config (.of config text) j v := by
  have hmask : ∀ b, eqMask v b = window (fun i => text[i]? == some b) j := by
    intro b
    refine eq_window fun i hi => ?_
    rw [eqMask, getLsbD_maskOf, decide_eq_true hi, Bool.true_and, hv i hi]
  simp only [Reads, matchStructural, Marks.structural, Marks.of, Structural.mk.injEq]
  refine ⟨hmask _, ?_, ?_⟩
  · cases config.termB with
    | none =>
        simp only [Option.any_none, Bool.or_false]
        exact hmask _
    | some t =>
        simp only [Option.any_some, hmask, window_or]
  · cases config.quote with
    | none => exact ((window_eq_zero _ _).mpr fun _ _ => rfl).symm
    | some q => exact hmask q

/-- The masks of a text, moved behind as many bytes of padding. -/
def rebased (marks : Marks) (doubledQuotes : Bool) (padding j : ℕ) : VectorOutput where
  b := window (delayed padding marks.b) j
  e := window (delayed padding marks.e) j
  r := window (delayed padding (marks.r doubledQuotes)) j
  dStruct := window (delayed padding marks.dStruct) j
  term := window (delayed padding marks.runEnd) j

/-- The streams of a padded text are the text's. -/
theorem streams_padded {config : ScannerConfig} {head : Bytes}
    (hneutral : ∀ c ∈ head, config.Neutral c) (text : Bytes) (doubledQuotes : Bool) :
    (Marks.of config (head ++ text)).b = delayed head.length (Marks.of config text).b ∧
      (Marks.of config (head ++ text)).e = delayed head.length (Marks.of config text).e ∧
      (Marks.of config (head ++ text)).r doubledQuotes =
        delayed head.length ((Marks.of config text).r doubledQuotes) ∧
      (Marks.of config (head ++ text)).dStruct =
        delayed head.length (Marks.of config text).dStruct ∧
      (Marks.of config (head ++ text)).runEnd =
        delayed head.length (Marks.of config text).runEnd := by
  induction head with
  | nil => exact ⟨rfl, rfl, rfl, rfl, rfl⟩
  | cons c head ih =>
      rw [List.forall_mem_cons] at hneutral
      obtain ⟨hb, he, hr, hd, hterm⟩ := ih hneutral.2
      rw [List.cons_append, Marks.of_cons hneutral.1, Marks.b_shifted, Marks.e_shifted,
        Marks.r_shifted, Marks.dStruct_shifted, Marks.runEnd_shifted, hb, he, hr, hd, hterm,
        List.length_cons, delayed_succ, delayed_succ, delayed_succ, delayed_succ, delayed_succ]
      exact ⟨rfl, rfl, rfl, rfl, rfl⟩

theorem output_of_padded {config : ScannerConfig} {head : Bytes}
    (hneutral : ∀ c ∈ head, config.Neutral c) (text : Bytes) (doubledQuotes : Bool) :
    (Marks.of config (head ++ text)).output doubledQuotes =
      rebased (.of config text) doubledQuotes head.length := by
  obtain ⟨hb, he, hr, hd, hterm⟩ := streams_padded hneutral text doubledQuotes
  funext j
  rw [Marks.output, rebased, hb, he, hr, hd, hterm]

theorem term_padded {config : ScannerConfig} {head : Bytes}
    (hneutral : ∀ c ∈ head, config.Neutral c) (text : Bytes) :
    (Marks.of config (head ++ text)).term = delayed head.length (Marks.of config text).term := by
  induction head with
  | nil => rfl
  | cons c head ih =>
      rw [List.forall_mem_cons] at hneutral
      rw [List.cons_append, Marks.of_cons hneutral.1, List.length_cons, delayed_succ,
        ← ih hneutral.2]
      rfl

theorem inQuotes_padded {config : ScannerConfig} {head : Bytes}
    (hneutral : ∀ c ∈ head, config.Neutral c) (text : Bytes) :
    (Marks.of config (head ++ text)).inQuotes =
      delayed head.length (Marks.of config text).inQuotes := by
  induction head with
  | nil => rfl
  | cons c head ih =>
      rw [List.forall_mem_cons] at hneutral
      rw [List.cons_append, Marks.of_cons hneutral.1, Marks.inQuotes_shifted, ih hneutral.2,
        List.length_cons, delayed_succ]

/-- Padding behind a text leaves the parity as it is at the text's end. -/
theorem lag_inQuotes_past {config : ScannerConfig} {text : Bytes} {i : ℕ} (hi : text.length ≤ i) :
    lag (Marks.of config text).inQuotes i = lag (Marks.of config text).inQuotes text.length := by
  induction i, hi using Nat.le_induction with
  | base => rfl
  | succ i hi ih =>
      rw [lag_succ, ← ih, Marks.inQuotes, parity_eq]
      rw [(Marks.of_past hi).2.2, Bool.xor_false]

/-- The scanner computes the masks of the whole text, whatever padding surrounds it: one
output comes back for each vector.  Its shortcut for vectors without quotes hands out what
the long way does. -/
theorem outputs_padded (config : ScannerConfig) (head text tail : Bytes)
    (hneutral : ∀ c ∈ head ++ tail, config.Neutral c)
    (hwhole : 64 ∣ (head ++ text ++ tail).length)
    (hends : lag (Marks.of config text).inQuotes text.length = false) :
    outputs config (vectorsOf (head ++ text ++ tail)) =
        (List.range ((head ++ text ++ tail).length / 64)).map
          (rebased (.of config text) config.doubledQuotes head.length) ∧
      ∀ (scanner : Scanner) (prev : Pending) (next : Option Lookahead),
        scanner.resolve prev next = scanner.resolveQuoted prev next ∧
          (prev.structural.quote = 0 → prev.m = 0 →
            scanner.resolveUnquoted prev (next.any fun n => lsb n.termOoq) =
              scanner.resolveQuoted prev next) := by
  refine ⟨?_, fun scanner prev next =>
    ⟨scanner.resolve_eq prev next, fun hquote hm => scanner.resolveUnquoted_eq hquote hm next⟩⟩
  have hhead : ∀ c ∈ head, config.Neutral c := fun c hc => hneutral c (List.mem_append_left _ hc)
  have htail : ∀ c ∈ tail, config.Neutral c := fun c hc => hneutral c (List.mem_append_right _ hc)
  obtain ⟨count, hcount⟩ := hwhole
  have hmarks : Marks.of config (head ++ text ++ tail) = Marks.of config (head ++ text) :=
    Marks.of_append htail _
  have hlength : (vectorsOf (head ++ text ++ tail)).length = count := by
    rw [vectorsOf, List.length_map, List.length_range, hcount]
    omega
  have hreads : ∀ i v, (vectorsOf (head ++ text ++ tail))[i]? = some v →
      Reads config (.of config (head ++ text)) i v := by
    intro i v hv
    rw [← hmarks]
    rw [vectorsOf, List.getElem?_map, Option.map_eq_some_iff] at hv
    obtain ⟨j, hj, rfl⟩ := hv
    obtain ⟨hi, rfl⟩ := List.getElem?_eq_some_iff.mp hj
    rw [List.getElem_range]
    exact reads_vector config fun lane hlane => by
      rw [List.getElem?_take_of_lt hlane, List.getElem?_drop]
  have hfollows : ∀ j, (vectorsOf (head ++ text ++ tail)).length = j + 1 →
      (Marks.of config (head ++ text)).Follows j none := by
    intro j hj
    rw [hlength] at hj
    subst hj
    have hpast : (head ++ text).length ≤ 64 * (j + 1) := by
      rw [← hcount, List.length_append, List.length_append, List.length_append]
      omega
    obtain ⟨hdelim, hterm, hquote⟩ := @Marks.of_past config _ _ hpast
    refine ⟨hdelim, hterm, hquote, ?_⟩
    rw [lag_inQuotes_past hpast, inQuotes_padded hhead, List.length_append, lag_delayed]
    exact hends
  rw [outputs_eq _ hreads hfollows, hlength, output_of_padded hhead, hcount,
    Nat.mul_div_cancel_left _ (by omega)]

/-- A field that opens on the far side of a vector's edge. -/
def seamText : Bytes := List.replicate 60 97 ++ [44, 34, 98, 34, 34, 34, 10]

theorem outputs_padded_seam :
    (outputs ⟨44, 10, none, some 34, true⟩
      (vectorsOf (List.replicate 3 0 ++ seamText ++ List.replicate 58 0))).map (·.r) =
        [0, 1 <<< 3] := by
  have hpadded := (outputs_padded ⟨44, 10, none, some 34, true⟩ (List.replicate 3 0) seamText
    (List.replicate 58 0) (by simp [ScannerConfig.Neutral]) ⟨2, rfl⟩ (by decide +kernel)).1
  rw [hpadded]
  decide +kernel

end Scanner

end Csveee.Simd
