import Mathlib.Data.Finset.Card
import Csveee.Parser.Contract
import Csveee.Parser.Simd.Parser
import Csveee.Parser.Simd.ScanSpec

/-!
# The vectorized boundary scan, byte by byte

What the scan carries from vector to vector says what lies before a byte: whether it is
in quotes, a boundary, a closing quote.  Carried from byte to byte instead, it decides the
same, and follows the byte automaton.
-/

namespace Csveee.Simd

/-! ## The first of a stream -/

/-- The first position whose flag is set, if one is. -/
def Least (f : ℕ → Bool) : Option ℕ → Prop
  | none => ∀ i, f i = false
  | some k => f k = true ∧ ∀ i < k, f i = false

/-- The smaller of two positions, either of which may be missing. -/
def earlier : Option ℕ → Option ℕ → Option ℕ
  | some k, some l => some (min k l)
  | some k, none => some k
  | none, l => l

namespace Least

variable {f g : ℕ → Bool} {k l : Option ℕ}

theorem congr (h : Least f k) (hsame : ∀ i, f i = g i) : Least g k := by
  rwa [← show f = g from funext hsame]

/-- The first set bit of a mask. -/
theorem trailingZeros (m : Mask) :
    Least m.getLsbD (if m ≠ 0 then some (Simd.trailingZeros m) else none) := by
  split_ifs with hzero
  · refine ⟨BitVec.getLsbD_true_ctz_of_ne_zero hzero, fun i hi => ?_⟩
    exact BitVec.getLsbD_false_of_lt_ctz hi
  · intro i
    rw [not_not.mp hzero]
    exact BitVec.getLsbD_zero

theorem lag (h : Least f k) : Least (lag f) (k.map (· + 1)) := by
  cases k with
  | none =>
      rintro (_ | i)
      · rfl
      · exact h i
  | some k =>
      refine ⟨h.1, ?_⟩
      rintro (_ | i) hi
      · rfl
      · exact h.2 i (Nat.lt_of_succ_lt_succ hi)

/-- The first of two streams. -/
theorem or (hf : Least f k) (hg : Least g l) :
    Least (fun i => f i || g i) (earlier k l) := by
  have hneither : ∀ i, f i = false → g i = false → (f i || g i) = false :=
    fun i hf hg => Bool.or_eq_false_iff.mpr ⟨hf, hg⟩
  have hleft : ∀ i, f i = true → (f i || g i) = true := fun i hf => by rw [hf, Bool.true_or]
  have hright : ∀ i, g i = true → (f i || g i) = true := fun i hg => by rw [hg, Bool.or_true]
  cases k with
  | none =>
      cases l with
      | none => exact fun i => hneither i (hf i) (hg i)
      | some l => exact ⟨hright l hg.1, fun i hi => hneither i (hf i) (hg.2 i hi)⟩
  | some k =>
      cases l with
      | none => exact ⟨hleft k hf.1, fun i hi => hneither i (hf.2 i hi) (hg i)⟩
      | some l =>
          refine ⟨?_, fun i hi => hneither i (hf.2 i (by omega)) (hg.2 i (by omega))⟩
          rcases Nat.le_total k l with hle | hle
          · exact hleft _ (by rw [Nat.min_eq_left hle]; exact hf.1)
          · exact hright _ (by rw [Nat.min_eq_right hle]; exact hg.1)

/-- The first behind a position whose flag is not set. -/
theorem tail {k : ℕ} (h : Least f (some k)) (hzero : f 0 = false) :
    ∃ l, k = l + 1 ∧ Least (fun i => f (i + 1)) (some l) := by
  cases k with
  | zero => exact absurd (h.1.symm.trans hzero) (by decide)
  | succ k => exact ⟨k, rfl, h.1, fun i hi => h.2 (i + 1) (by omega)⟩

theorem eq_zero (h : Least f k) (hzero : f 0 = true) : k = some 0 := by
  cases k with
  | none => exact absurd ((h 0).symm.trans hzero) (by decide)
  | some k =>
      cases k with
      | zero => rfl
      | succ k => exact absurd ((h.2 0 (by omega)).symm.trans hzero) (by decide)

end Least

/-! ## From byte to byte -/

/-- What lies before a byte: whether it is in quotes, whether it is a delimiter, a
terminator or a quote, and whether it is a closing quote. -/
structure Edge where
  inQuotes : Bool
  leftBoundary : Bool
  closer : Bool
  deriving DecidableEq, Repr

section Bytes

variable (config : Config)

def isQuote (b : Byte) : Bool := config.quote == some b

def isBoundary (b : Byte) : Bool :=
  b == config.delimiter || config.isTerminator b || isQuote config b

namespace Edge

def step (edge : Edge) (b : Byte) : Edge where
  inQuotes := edge.inQuotes ^^ isQuote config b
  leftBoundary := isBoundary config b
  closer := isQuote config b && !(edge.inQuotes ^^ isQuote config b)

/-- The byte contradicts the assumed state: the quote before it closes where no field
ends, or it opens where none begins. -/
def rejects (edge : Edge) (b : Byte) : Bool :=
  (edge.closer && !isBoundary config b) ||
    (isQuote config b && (edge.inQuotes ^^ isQuote config b) && !edge.leftBoundary)

/-- The byte is a terminator out of quotes. -/
def finds (edge : Edge) (b : Byte) : Bool :=
  config.isTerminator b && !(edge.inQuotes ^^ isQuote config b)

def after (edge : Edge) (bytes : Bytes) : Edge := bytes.foldl (step config) edge

/-- The scan, a byte at a time. -/
def scan (strict : Bool) : Edge → ℕ → Bytes → Boundary
  | _, _, [] => .absent
  | edge, x, b :: rest =>
      if strict && edge.rejects config b then .rejected x
      else if edge.finds config b then .found x
      else scan strict (edge.step config b) (x + 1) rest

def rejectsAt (edge : Edge) (bytes : Bytes) (i : ℕ) : Bool :=
  bytes[i]?.any ((edge.after config (bytes.take i)).rejects config)

def findsAt (edge : Edge) (bytes : Bytes) (i : ℕ) : Bool :=
  bytes[i]?.any ((edge.after config (bytes.take i)).finds config)

variable {config} {strict : Bool}

/-- A byte does not end a record and contradict the assumption at once. -/
theorem not_rejects_of_finds (h : config.Distinct) {edge : Edge} {b : Byte}
    (hfinds : edge.finds config b = true) : edge.rejects config b = false := by
  rw [finds, Bool.and_eq_true] at hfinds
  have hquote : isQuote config b = false := by
    rw [isQuote, beq_eq_false_iff_ne]
    intro hquote
    exact Bool.false_ne_true ((h.quote b hquote).2.symm.trans hfinds.1)
  rw [rejects, isBoundary, hfinds.1, hquote]
  simp

theorem scan_absent {edge : Edge} {bytes : Bytes}
    (hreject : strict = true → ∀ i, edge.rejectsAt config bytes i = false)
    (hfind : ∀ i, edge.findsAt config bytes i = false) (x : ℕ) (rest : Bytes) :
    scan config strict edge x (bytes ++ rest) =
      scan config strict (edge.after config bytes) (x + bytes.length) rest := by
  induction bytes generalizing edge x with
  | nil => rfl
  | cons b bytes ih =>
      have hnone : (strict && edge.rejects config b) = false := by
        cases strict with
        | false => rfl
        | true => exact hreject rfl 0
      rw [List.cons_append, scan, hnone, if_neg Bool.false_ne_true,
        show edge.finds config b = false from hfind 0, if_neg Bool.false_ne_true,
        ih (fun hstrict i => hreject hstrict (i + 1)) (fun i => hfind (i + 1)), List.length_cons,
        show x + 1 + bytes.length = x + (bytes.length + 1) by omega]
      rfl

theorem scan_found {edge : Edge} {bytes : Bytes} {k : ℕ}
    (hreject : strict = true → ∀ i ≤ k, edge.rejectsAt config bytes i = false)
    (hfind : Least (edge.findsAt config bytes) (some k)) (x : ℕ) (rest : Bytes) :
    scan config strict edge x (bytes ++ rest) = .found (x + k) := by
  induction bytes generalizing edge x k with
  | nil => exact absurd hfind.1 Bool.false_ne_true
  | cons b bytes ih =>
      have hnone : (strict && edge.rejects config b) = false := by
        cases strict with
        | false => rfl
        | true => exact hreject rfl 0 (Nat.zero_le k)
      rw [List.cons_append, scan, hnone, if_neg Bool.false_ne_true]
      cases hfirst : edge.finds config b with
      | true =>
          have hk := hfind.eq_zero hfirst
          cases hk
          rfl
      | false =>
          obtain ⟨l, rfl, hrest⟩ := hfind.tail hfirst
          rw [if_neg Bool.false_ne_true, ih (fun hstrict i hi =>
            hreject hstrict (i + 1) (by omega)) hrest, show x + 1 + l = x + (l + 1) by omega]

theorem scan_rejected {edge : Edge} {bytes : Bytes} {k : ℕ}
    (hreject : Least (edge.rejectsAt config bytes) (some k))
    (hfind : ∀ i < k, edge.findsAt config bytes i = false) (x : ℕ) (rest : Bytes) :
    scan config true edge x (bytes ++ rest) = .rejected (x + k) := by
  induction bytes generalizing edge x k with
  | nil => exact absurd hreject.1 Bool.false_ne_true
  | cons b bytes ih =>
      rw [List.cons_append, scan, Bool.true_and]
      cases hfirst : edge.rejects config b with
      | true =>
          have hk := hreject.eq_zero hfirst
          cases hk
          rfl
      | false =>
          obtain ⟨l, rfl, hrest⟩ := hreject.tail hfirst
          rw [if_neg Bool.false_ne_true, show edge.finds config b = false from
            hfind 0 (by omega), if_neg Bool.false_ne_true,
            ih hrest fun i hi => hfind (i + 1) (by omega),
            show x + 1 + l = x + (l + 1) by omega]

end Edge

end Bytes

/-! ## From vector to vector -/

section Vector

variable (config : Config) (edge : Edge) (bytes : Bytes)

/-- The marks of the bytes of one vector. -/
def marksOf : Marks := .of (scannerConfigOf config) bytes

def boundaries (i : ℕ) : Bool :=
  (marksOf config bytes).delim i || (marksOf config bytes).term i ||
    (marksOf config bytes).quote i

def insides (i : ℕ) : Bool := edge.inQuotes ^^ parity (marksOf config bytes).quote i

def closers (i : ℕ) : Bool := (marksOf config bytes).quote i && !insides config edge bytes i

variable {config edge bytes}

theorem marksOf_term (i : ℕ) :
    (marksOf config bytes).term i = bytes[i]?.any config.isTerminator := by
  simp only [marksOf, Marks.of, scannerConfigOf]
  cases bytes[i]? with
  | none => cases config.terminator.bytes.2 <;> rfl
  | some b =>
      rw [Option.any_some, Config.isTerminator]
      cases config.terminator.bytes.2 with
      | none => simp
      | some t => simp [@BEq.comm _ _ _ b t]

theorem marksOf_quote (i : ℕ) :
    (marksOf config bytes).quote i = bytes[i]?.any (isQuote config) := by
  simp only [marksOf, Marks.of, scannerConfigOf]
  cases bytes[i]? with
  | none => cases config.quote <;> rfl
  | some b => cases h : config.quote <;> simp [h, isQuote, eq_comm]

theorem boundaries_eq (i : ℕ) :
    boundaries config bytes i = bytes[i]?.any (isBoundary config) := by
  rw [boundaries, marksOf_term, marksOf_quote]
  cases h : bytes[i]? with
  | none => simp [marksOf, Marks.of, h]
  | some b => simp [marksOf, Marks.of, scannerConfigOf, h, isBoundary]

/-- What lies before each byte of a vector. -/
theorem edge_after_take {i : ℕ} (hi : i ≤ bytes.length) :
    edge.after config (bytes.take i) = match i with
      | 0 => edge
      | i + 1 => ⟨insides config edge bytes i, boundaries config bytes i,
          closers config edge bytes i⟩ := by
  induction i with
  | zero => rfl
  | succ i ih =>
      have hlt : i < bytes.length := by omega
      have hbyte := List.getElem?_eq_getElem hlt
      have hquote := @marksOf_quote config bytes i
      have hbnd := @boundaries_eq config bytes i
      rw [hbyte, Option.any_some] at hquote hbnd
      have hprev : (edge.after config (bytes.take i)).inQuotes =
          (edge.inQuotes ^^ lag (parity (marksOf config bytes).quote) i) := by
        rw [ih (by omega)]
        cases i with
        | zero => exact (Bool.xor_false _).symm
        | succ i => rfl
      have hinside : ((edge.after config (bytes.take i)).inQuotes ^^ isQuote config bytes[i]) =
          insides config edge bytes i := by
        rw [hprev, Bool.xor_assoc, ← hquote, insides, ← parity_eq]
      rw [List.take_add_one, hbyte, Option.toList_some, Edge.after, List.foldl_append]
      change (edge.after config (bytes.take i)).step config bytes[i] = _
      simp only [Edge.step, hinside, closers, hbnd, hquote]

theorem findsAt_eq (i : ℕ) : edge.findsAt config bytes i =
    ((marksOf config bytes).term i && !insides config edge bytes i) := by
  rw [Edge.findsAt]
  rcases Nat.lt_or_ge i bytes.length with hi | hi
  · have hafter := @edge_after_take config edge bytes (i + 1) hi
    have hbyte := List.getElem?_eq_getElem hi
    rw [List.take_add_one, hbyte, Option.toList_some, Edge.after, List.foldl_append] at hafter
    have hinside : ((edge.after config (bytes.take i)).inQuotes ^^ isQuote config bytes[i]) =
        insides config edge bytes i := congrArg Edge.inQuotes hafter
    rw [marksOf_term, hbyte, Option.any_some, Option.any_some, Edge.finds, hinside]
  · rw [marksOf_term, List.getElem?_eq_none hi]
    rfl

theorem rejectsAt_eq (i : ℕ) : edge.rejectsAt config bytes i =
    ((lagFrom edge.closer (closers config edge bytes) i && !boundaries config bytes i &&
        decide (i < bytes.length)) ||
      ((marksOf config bytes).quote i && insides config edge bytes i &&
        !lagFrom edge.leftBoundary (boundaries config bytes) i)) := by
  rw [Edge.rejectsAt]
  rcases Nat.lt_or_ge i bytes.length with hi | hi
  · have hafter := @edge_after_take config edge bytes (i + 1) hi
    have hbyte := List.getElem?_eq_getElem hi
    rw [List.take_add_one, hbyte, Option.toList_some, Edge.after, List.foldl_append] at hafter
    have hinside : ((edge.after config (bytes.take i)).inQuotes ^^ isQuote config bytes[i]) =
        insides config edge bytes i := congrArg Edge.inQuotes hafter
    rw [marksOf_quote, boundaries_eq, hbyte, Option.any_some, Option.any_some, Option.any_some,
      Edge.rejects, hinside, edge_after_take hi.le, decide_eq_true hi, Bool.and_true]
    cases i <;> rfl
  · rw [marksOf_quote, List.getElem?_eq_none hi, decide_eq_false (by omega)]
    simp

/-- The masks of a padded vector, by the marks of its bytes. -/
structure Masks (config : Config) (edge : Edge) (bytes : Bytes) (s : Structural) (m : Mask) :
    Prop where
  structural : s = (marksOf config bytes).structural 0
  inside : ∀ i < 64, m.getLsbD i = insides config edge bytes i

namespace Masks

variable {s : Structural} {m : Mask} (h : Masks config edge bytes s m) {i : ℕ} (hi : i < 64)

include h hi

theorem term : s.term.getLsbD i = (marksOf config bytes).term i := by
  rw [h.structural]
  exact (getLsbD_window_of_lt _ 0 hi).trans (by rw [Nat.mul_zero, Nat.zero_add])

theorem quote : s.quote.getLsbD i = (marksOf config bytes).quote i := by
  rw [h.structural]
  exact (getLsbD_window_of_lt _ 0 hi).trans (by rw [Nat.mul_zero, Nat.zero_add])

theorem boundary :
    (s.delim ||| s.term ||| s.quote).getLsbD i = boundaries config bytes i := by
  have hdelim : s.delim.getLsbD i = (marksOf config bytes).delim i := by
    rw [h.structural]
    exact (getLsbD_window_of_lt _ 0 hi).trans (by rw [Nat.mul_zero, Nat.zero_add])
  rw [BitVec.getLsbD_or, BitVec.getLsbD_or, hdelim, h.term hi, h.quote hi, boundaries]

theorem opener : (s.quote &&& m).getLsbD i =
    ((marksOf config bytes).quote i && insides config edge bytes i) := by
  rw [BitVec.getLsbD_and, h.quote hi, h.inside i hi]

theorem closer : (s.quote &&& ~~~m).getLsbD i = closers config edge bytes i := by
  rw [BitVec.getLsbD_and, BitVec.getLsbD_not, h.quote hi, h.inside i hi, decide_eq_true hi,
    Bool.true_and, closers]

end Masks

theorem boundaries_past (hi : bytes.length ≤ i) : boundaries config bytes i = false := by
  rw [boundaries_eq, List.getElem?_eq_none hi]
  rfl

/-- The lanes below a cutoff. -/
def lanesBelow (cutoff : ℕ) : Mask := if 64 ≤ cutoff then ~~~0 else ((1 : Mask) <<< cutoff) - 1

theorem getLsbD_lanesBelow (cutoff : ℕ) {i : ℕ} (hi : i < 64) :
    (lanesBelow cutoff).getLsbD i = decide (i < cutoff) := by
  rw [lanesBelow]
  split_ifs with hwide
  · rw [BitVec.getLsbD_not, decide_eq_true hi, decide_eq_true (show i < cutoff by omega),
      show (0 : Mask).getLsbD i = false from BitVec.getLsbD_zero]
    rfl
  · exact getLsbD_low (by omega) i

/-- Quotes that open without a boundary before them. -/
def misplacedOpeners (probe : StrictProbe) (s : Structural) (m : Mask) : Mask :=
  (s.quote &&& m) &&& ~~~(((s.delim ||| s.term ||| s.quote) <<< 1) ||| bit probe.prevLastBnd)

/-- Quotes that close without a boundary behind them, as far as the vector shows. -/
def misplacedClosers (s : Structural) (m : Mask) : Mask :=
  (s.quote &&& ~~~m) &&& ~~~((s.delim ||| s.term ||| s.quote) >>> 1)

/-- What the vector does not show of them goes. -/
def shownClosers (avail : ℕ) (closers : Mask) : Mask :=
  let closers := if avail = vectorBytes then closers &&& ~~~((1 : Mask) <<< 63) else closers
  if avail < vectorBytes ∧ 0 < avail then closers &&& ~~~((1 : Mask) <<< (avail - 1)) else closers

theorem getLsbD_shownClosers {avail : ℕ} (hle : avail ≤ 64) (closers : Mask) {i : ℕ} (hi : i < 64)
    (havail : i < avail) :
    (shownClosers avail closers).getLsbD i =
      (closers.getLsbD i && !decide (i + 1 = avail)) := by
  rw [shownClosers, vectorBytes]
  split_ifs with htail hfull hfull
  · exact absurd hfull (Nat.ne_of_lt htail.1)
  · rw [BitVec.getLsbD_and, BitVec.getLsbD_not, getLsbD_one_shiftLeft (by omega),
      decide_eq_true hi, Bool.true_and,
      show decide (i = avail - 1) = decide (i + 1 = avail) from by rw [decide_eq_decide]; omega]
  · rw [BitVec.getLsbD_and, BitVec.getLsbD_not, getLsbD_one_shiftLeft (by omega),
      decide_eq_true hi, Bool.true_and,
      show decide (i = 63) = decide (i + 1 = avail) from by rw [decide_eq_decide]; omega]
  · exact absurd ⟨by omega, by omega⟩ htail

theorem badByte_eq (probe : StrictProbe) (s : Structural) (m : Mask) (avail : ℕ)
    (termBit : Option ℕ) :
    probe.badByte s m avail termBit =
      let opener := misplacedOpeners probe s m &&& lanesBelow (termBit.getD avail)
      let closer := shownClosers avail (misplacedClosers s m) &&& lanesBelow (termBit.getD avail)
      earlier (if opener ≠ 0 then some (trailingZeros opener) else none)
        ((if closer ≠ 0 then some (trailingZeros closer) else none).map (· + 1)) := by
  simp only [StrictProbe.badByte, misplacedOpeners, misplacedClosers, shownClosers, lanesBelow]
  split_ifs <;> rfl

section Narrowed

variable {probe : StrictProbe} {s : Structural} {m : Mask}

theorem getLsbD_misplacedOpeners (hmasks : Masks config edge bytes s m)
    (hleft : probe.prevLastBnd = edge.leftBoundary) {i : ℕ} (hi : i < 64) :
    (misplacedOpeners probe s m).getLsbD i = ((marksOf config bytes).quote i &&
      insides config edge bytes i && !lagFrom edge.leftBoundary (boundaries config bytes) i) := by
  have hlag : lagFrom edge.leftBoundary (s.delim ||| s.term ||| s.quote).getLsbD i =
      lagFrom edge.leftBoundary (boundaries config bytes) i := by
    cases i with
    | zero => rfl
    | succ i => exact hmasks.boundary (by omega)
  rw [misplacedOpeners, BitVec.getLsbD_and, BitVec.getLsbD_not, hmasks.opener hi,
    getLsbD_shiftLeft_or_bit _ _ hi, hleft, hlag, decide_eq_true hi, Bool.true_and]

theorem getLsbD_misplacedClosers (hmasks : Masks config edge bytes s m) (hle : bytes.length ≤ 64)
    {i : ℕ} (hi : i < 64) :
    (misplacedClosers s m).getLsbD i =
      (closers config edge bytes i && !boundaries config bytes (i + 1)) := by
  have hlead : (s.delim ||| s.term ||| s.quote).getLsbD (1 + i) =
      boundaries config bytes (i + 1) := by
    rw [Nat.add_comm]
    by_cases hlast : i + 1 < 64
    · exact hmasks.boundary hlast
    · rw [boundaries_past (by omega), BitVec.getLsbD_of_ge _ _ (by omega)]
  rw [misplacedClosers, BitVec.getLsbD_and, BitVec.getLsbD_not, hmasks.closer hi,
    BitVec.getLsbD_ushiftRight, hlead, decide_eq_true hi, Bool.true_and]

/-- The first byte of a vector that contradicts the assumption, before its first
terminator. -/
theorem badByte_spec {termBit : Option ℕ} (hmasks : Masks config edge bytes s m)
    (hleft : probe.prevLastBnd = edge.leftBoundary)
    (hcloser : edge.closer = true → boundaries config bytes 0 = true)
    (hle : bytes.length ≤ 64) (hterm : Least (edge.findsAt config bytes) termBit) :
    Least (fun i => edge.rejectsAt config bytes i && decide (i < termBit.getD bytes.length))
      (probe.badByte s m bytes.length termBit) := by
  have hcutoff : termBit.getD bytes.length ≤ bytes.length ∧
      (boundaries config bytes (termBit.getD bytes.length) = true ∨
        termBit.getD bytes.length = bytes.length) := by
    cases termBit with
    | none => exact ⟨le_rfl, Or.inr rfl⟩
    | some k =>
        have hfound := hterm.1
        rw [findsAt_eq, Bool.and_eq_true] at hfound
        refine ⟨?_, Or.inl ?_⟩
        · by_contra hlong
          have hpast := hfound.1
          rw [Option.getD_some] at hlong
          rw [marksOf_term, List.getElem?_eq_none (by omega)] at hpast
          cases hpast
        · rw [boundaries, Option.getD_some, hfound.1, Bool.or_true, Bool.true_or]
  rw [badByte_eq]
  generalize termBit.getD bytes.length = cutoff at hcutoff ⊢
  obtain ⟨hcut, hend⟩ := hcutoff
  refine ((Least.trailingZeros _).or (Least.trailingZeros _).lag).congr fun i => ?_
  have hopen : (misplacedOpeners probe s m &&& lanesBelow cutoff).getLsbD i =
      ((marksOf config bytes).quote i && insides config edge bytes i &&
        !lagFrom edge.leftBoundary (boundaries config bytes) i && decide (i < cutoff)) := by
    rcases Nat.lt_or_ge i 64 with hi | hi
    · rw [BitVec.getLsbD_and, getLsbD_misplacedOpeners hmasks hleft hi, getLsbD_lanesBelow _ hi]
    · rw [BitVec.getLsbD_of_ge _ _ hi, decide_eq_false (by omega), Bool.and_false]
  have hclose : lag (shownClosers bytes.length (misplacedClosers s m) &&&
      lanesBelow cutoff).getLsbD i =
        (lagFrom edge.closer (closers config edge bytes) i && !boundaries config bytes i &&
          decide (i < bytes.length) && decide (i < cutoff)) := by
    cases i with
    | zero =>
        cases hparked : edge.closer with
        | false => rfl
        | true =>
            rw [hcloser hparked]
            simp
    | succ i =>
        rw [lag_succ, lagFrom]
        rcases Nat.lt_or_ge i cutoff with hi | hi
        · rw [BitVec.getLsbD_and, getLsbD_shownClosers hle _ (by omega) (by omega),
            getLsbD_lanesBelow _ (by omega), getLsbD_misplacedClosers hmasks hle (by omega),
            decide_eq_true hi]
          by_cases hlast : i + 1 = cutoff
          · subst hlast
            rcases hend with hbnd | hlen
            · rw [hbnd]
              simp
            · rw [decide_eq_true hlen]
              simp
          · rw [decide_eq_true (show i + 1 < cutoff by omega),
              decide_eq_true (show i + 1 < bytes.length by omega),
              decide_eq_false (show ¬ i + 1 = bytes.length by omega)]
            rfl
        · rw [decide_eq_false (show ¬ i + 1 < cutoff by omega), Bool.and_false]
          rcases Nat.lt_or_ge i 64 with hlt | hge
          · rw [BitVec.getLsbD_and, getLsbD_lanesBelow _ hlt, decide_eq_false (by omega),
              Bool.and_false]
          · exact BitVec.getLsbD_of_ge _ _ hge
  rw [hopen, hclose, rejectsAt_eq, ← Bool.and_or_distrib_right, Bool.or_comm]

/-- What the probe carries to the bytes at `x`. -/
structure Carries (probe : StrictProbe) (edge : Edge) (x : ℕ) : Prop where
  left : probe.prevLastBnd = edge.leftBoundary
  closer : probe.pendingCloserMsb = if edge.closer then some x else none

theorem parkedCloser_spec (hmasks : Masks config edge bytes s m) (hlen : bytes.length = 64)
    (x : ℕ) : StrictProbe.parkedCloser s m bytes.length x =
      if closers config edge bytes 63 then some (x + 64) else none := by
  have hbit : (misplacedClosers s m &&& ((1 : Mask) <<< 63) ≠ 0) ↔
      closers config edge bytes 63 = true := by
    have hlast := getLsbD_misplacedClosers hmasks hlen.le (show 63 < 64 by omega)
    rw [boundaries_past (by omega), Bool.not_false, Bool.and_true] at hlast
    rw [← hlast]
    constructor
    · intro hne
      have hset := BitVec.getLsbD_true_ctz_of_ne_zero hne
      rw [BitVec.getLsbD_and, getLsbD_one_shiftLeft (by omega), Bool.and_eq_true,
        decide_eq_true_eq] at hset
      rw [hset.2] at hset
      exact hset.1
    · intro hset hzero
      have hbit := congrArg (fun mask : Mask => mask.getLsbD 63) hzero
      rw [BitVec.getLsbD_and, hset, getLsbD_one_shiftLeft (by omega)] at hbit
      cases hbit
  simp only [StrictProbe.parkedCloser, hlen, vectorBytes, true_and]
  exact if_congr hbit rfl rfl

/-- What the check of a vector comes to: the first byte that contradicts the assumption,
if none before it ends a record. -/
theorem check_spec {termBit : Option ℕ} {x : ℕ} (h : config.Distinct)
    (hmasks : Masks config edge bytes s m) (hcarries : Carries probe edge x)
    (hpos : 0 < bytes.length) (hle : bytes.length ≤ 64)
    (hterm : Least (edge.findsAt config bytes) termBit) :
    match probe.check s m bytes.length termBit x with
    | (_, some err) => ∃ k, err = .invalidQuote (x + k) ∧
        Least (edge.rejectsAt config bytes) (some k) ∧
          ∀ i < k, edge.findsAt config bytes i = false
    | (later, none) => (∀ i, (∀ k, termBit = some k → i ≤ k) →
          edge.rejectsAt config bytes i = false) ∧
        (bytes.length = 64 → later.pendingCloserMsb =
          if closers config edge bytes 63 then some (x + 64) else none) := by
  have hfirst : ((s.delim ||| s.term ||| s.quote) &&& 1 = 0) ↔
      boundaries config bytes 0 = false := by
    have hbit := and_one_ne_zero (s.delim ||| s.term ||| s.quote)
    rw [hmasks.boundary (by omega)] at hbit
    rw [← hbit, bne_eq_false_iff_eq]
  have hparked := parkedCloser_spec hmasks
  have hwithout : ∀ hcloser : edge.closer = true → boundaries config bytes 0 = true,
      match (({ probe with pendingCloserMsb := StrictProbe.parkedCloser s m bytes.length x },
        (probe.badByte s m bytes.length termBit).map fun i => .invalidQuote (x + i)) :
          StrictProbe × Option Error) with
      | (_, some err) => ∃ k, err = .invalidQuote (x + k) ∧
          Least (edge.rejectsAt config bytes) (some k) ∧
            ∀ i < k, edge.findsAt config bytes i = false
      | (later, none) => (∀ i, (∀ k, termBit = some k → i ≤ k) →
            edge.rejectsAt config bytes i = false) ∧
          (bytes.length = 64 → later.pendingCloserMsb =
            if closers config edge bytes 63 then some (x + 64) else none) := by
    intro hcloser
    have hbad := badByte_spec hmasks hcarries.left hcloser hle hterm
    cases hbyte : probe.badByte s m bytes.length termBit with
    | some k =>
        rw [hbyte] at hbad
        obtain ⟨hset, hbefore⟩ := hbad
        rw [Bool.and_eq_true, decide_eq_true_eq] at hset
        refine ⟨k, rfl, ⟨hset.1, fun i hi => ?_⟩, fun i hi => ?_⟩
        · have hclear : (edge.rejectsAt config bytes i &&
              decide (i < termBit.getD bytes.length)) = false := hbefore i hi
          rw [decide_eq_true (by omega), Bool.and_true] at hclear
          exact hclear
        · cases termBit with
          | none => exact hterm i
          | some t => exact hterm.2 i (by rw [Option.getD_some] at hset; omega)
    | none =>
        rw [hbyte] at hbad
        refine ⟨fun i hi => ?_, fun hlen => hparked hlen x⟩
        rcases Nat.lt_or_ge i (termBit.getD bytes.length) with hlt | hge
        · have hclear : (edge.rejectsAt config bytes i &&
              decide (i < termBit.getD bytes.length)) = false := hbad i
          rw [decide_eq_true hlt, Bool.and_true] at hclear
          exact hclear
        · cases termBit with
          | none => rw [Edge.rejectsAt, List.getElem?_eq_none hge, Option.any_none]
          | some t =>
              have heq : i = t := Nat.le_antisymm (hi t rfl) hge
              subst heq
              have hfound := hterm.1
              rw [Edge.findsAt] at hfound
              rw [Edge.rejectsAt]
              cases hat : bytes[i]? with
              | none => rfl
              | some b =>
                  rw [hat, Option.any_some] at hfound
                  exact Edge.not_rejects_of_finds h hfound
  have hparkedProbe := hcarries.closer
  rw [StrictProbe.check]
  cases hcloser : edge.closer with
  | false =>
      rw [hcloser, if_neg Bool.false_ne_true] at hparkedProbe
      rw [hparkedProbe]
      exact hwithout fun hparked => absurd (hcloser.symm.trans hparked) Bool.false_ne_true
  | true =>
      rw [hcloser, if_pos rfl] at hparkedProbe
      rw [hparkedProbe]
      simp only
      by_cases hclear : (s.delim ||| s.term ||| s.quote) &&& 1 = 0
      · rw [if_pos hclear]
        rw [hfirst] at hclear
        refine ⟨0, rfl, ⟨?_, fun i hi => absurd hi (Nat.not_lt_zero i)⟩,
          fun i hi => absurd hi (Nat.not_lt_zero i)⟩
        rw [rejectsAt_eq, hclear, decide_eq_true hpos, lagFrom, hcloser]
        rfl
      · rw [if_neg hclear]
        rw [hfirst, Bool.not_eq_false] at hclear
        exact hwithout fun _ => hclear

end Narrowed

end Vector

/-! ## The loop -/

/-- The pad is no structural byte: four bytes cannot cover five candidates. -/
theorem neutral_neutralPad (config : ScannerConfig) :
    config.Neutral (neutralPad config.delim config.term config.termB config.quote) := by
  have hneutral : ∀ c, (!(c == config.delim || c == config.term || config.termB == some c ||
      config.quote == some c)) = true → config.Neutral c := by
    intro c hc
    simpa [ScannerConfig.Neutral, and_assoc] using hc
  rw [neutralPad]
  cases hfind : ((List.range 256).map UInt8.ofNat).find? fun candidate =>
      !(candidate == config.delim || candidate == config.term ||
        config.termB == some candidate || config.quote == some candidate) with
  | some c =>
      have hc := List.find?_some hfind
      exact hneutral c hc
  | none =>
      rw [List.find?_eq_none] at hfind
      have hcover : ({0, 1, 2, 3, 4} : Finset Byte) ⊆
          {config.delim, config.term, config.termB.getD 0, config.quote.getD 0} := by
        intro c hc
        have hmem : c ∈ (List.range 256).map UInt8.ofNat := by
          simp only [Finset.mem_insert, Finset.mem_singleton] at hc
          rcases hc with rfl | rfl | rfl | rfl | rfl <;> decide
        have hcovered := hfind c hmem
        simp only [Bool.not_eq_true', Bool.not_eq_false, Bool.or_eq_true, beq_iff_eq] at hcovered
        simp only [Finset.mem_insert, Finset.mem_singleton]
        rcases hcovered with ((h | h) | h) | h
        · exact Or.inl h
        · exact Or.inr (Or.inl h)
        · exact Or.inr (Or.inr (Or.inl (by rw [h]; rfl)))
        · exact Or.inr (Or.inr (Or.inr (by rw [h]; rfl)))
      have hcard := Finset.card_le_card hcover
      have hfour := Finset.card_le_four (a := config.delim) (b := config.term)
        (c := config.termB.getD 0) (d := config.quote.getD 0)
      have hfive : ({0, 1, 2, 3, 4} : Finset Byte).card = 5 := by decide
      omega

/-- The vector that `find_record_start` makes of the bytes in view. -/
def vectorOf (config : Config) (bytes : Bytes) : Bytes :=
  bytes ++ List.replicate (vectorBytes - bytes.length)
    (neutralPad config.delimiter config.terminator.bytes.1 config.terminator.bytes.2 config.quote)

section Loop

variable {config : Config} {edge : Edge} {bytes : Bytes}

theorem masks_vectorOf :
    Masks config edge bytes
      (matchStructural (vectorOf config bytes) config.delimiter config.terminator.bytes.1
        config.terminator.bytes.2 config.quote)
      (computeInQuotes (matchStructural (vectorOf config bytes) config.delimiter
        config.terminator.bytes.1 config.terminator.bytes.2 config.quote).quote
        edge.inQuotes).1 := by
  have hpad : ∀ c ∈ List.replicate (vectorBytes - bytes.length) (neutralPad config.delimiter
      config.terminator.bytes.1 config.terminator.bytes.2 config.quote),
      (scannerConfigOf config).Neutral c := by
    intro c hc
    rw [List.eq_of_mem_replicate hc]
    exact neutral_neutralPad (scannerConfigOf config)
  have hstructural : matchStructural (vectorOf config bytes) config.delimiter
      config.terminator.bytes.1 config.terminator.bytes.2 config.quote =
        (marksOf config bytes).structural 0 := by
    have hreads := @Scanner.reads_vector (scannerConfigOf config) (vectorOf config bytes)
      (vectorOf config bytes) 0 fun i _ => by rw [Nat.mul_zero, Nat.zero_add]
    rw [Scanner.Reads, vectorOf, Marks.of_append hpad] at hreads
    exact hreads
  refine ⟨hstructural, fun i hi => ?_⟩
  rw [getLsbD_computeInQuotes _ _ hi, insides, hstructural]
  exact congrArg _ (parity_congr fun k hk =>
    (getLsbD_window_of_lt _ 0 (by omega)).trans (by rw [Nat.mul_zero, Nat.zero_add]))

/-- The first terminator out of quotes, as the loop computes it. -/
theorem termBit_spec {s : Structural} {m : Mask} (hmasks : Masks config edge bytes s m)
    (hle : bytes.length ≤ 64) :
    Least (edge.findsAt config bytes)
      (if s.term &&& s.structuralDelims m ≠ 0 ∧
          trailingZeros (s.term &&& s.structuralDelims m) < bytes.length then
        some (trailingZeros (s.term &&& s.structuralDelims m))
      else none) := by
  have hbits : ∀ i, (s.term &&& s.structuralDelims m).getLsbD i = edge.findsAt config bytes i := by
    intro i
    rcases Nat.lt_or_ge i 64 with hi | hi
    · rw [findsAt_eq, BitVec.getLsbD_and, Structural.structuralDelims, Structural.delimOrTerm,
        BitVec.getLsbD_and, BitVec.getLsbD_or, BitVec.getLsbD_not, hmasks.term hi,
        hmasks.inside i hi, decide_eq_true hi]
      cases (marksOf config bytes).term i <;> simp
    · rw [BitVec.getLsbD_of_ge _ _ hi, Edge.findsAt, List.getElem?_eq_none (by omega)]
      rfl
  have hleast := (Least.trailingZeros (s.term &&& s.structuralDelims m)).congr hbits
  split_ifs with hfound
  · rw [if_pos hfound.1] at hleast
    exact hleast
  · by_cases hzero : s.term &&& s.structuralDelims m = 0
    · rw [if_neg (not_not.mpr hzero)] at hleast
      exact hleast
    · rw [if_pos hzero] at hleast
      have hset := hleast.1
      rw [Edge.findsAt] at hset
      have hwithin : trailingZeros (s.term &&& s.structuralDelims m) < bytes.length := by
        by_contra hpast
        rw [List.getElem?_eq_none (by omega)] at hset
        cases hset
      exact absurd ⟨hzero, hwithin⟩ hfound

/-- What an iteration does once its vector is checked. -/
def proceed (goOn : ScanOutcome) (filled : ChunkReader) (x avail : ℕ) :
    Option Error → Option ℕ → ScanOutcome
  | some err, _ => .error err
  | none, some bit => .ok (some (filled.consume bit, x + bit))
  | none, none => if avail < 64 then .ok none else goOn

/-- One iteration of the loop, by the bytes that make the vector. -/
theorem findLoop_vector {strict : Bool} {fuel x : ℕ} {reader filled : ChunkReader} {carry : Bool}
    {probe later : StrictProbe} {s : Structural} {m : Mask} {newCarry : Bool}
    {termBit : Option ℕ} {rejected : Option Error}
    (hfill : reader.fill vectorBytes = .ok filled) (hshown : filled.buffer.isEmpty = false)
    (hchunk : filled.chunkRemaining ≠ 0)
    (hbytes : filled.buffer.take (min (min filled.chunkRemaining filled.buffer.length) 64) = bytes)
    (hlen : bytes.length = min (min filled.chunkRemaining filled.buffer.length) 64)
    (hs : matchStructural (vectorOf config bytes) config.delimiter config.terminator.bytes.1
      config.terminator.bytes.2 config.quote = s)
    (hm : computeInQuotes s.quote carry = (m, newCarry))
    (hterm : (if s.term &&& s.structuralDelims m ≠ 0 ∧
        trailingZeros (s.term &&& s.structuralDelims m) < bytes.length then
      some (trailingZeros (s.term &&& s.structuralDelims m)) else none) = termBit)
    (hchecked : (if strict then probe.check s m bytes.length termBit x else (probe, none)) =
      (later, rejected)) :
    findLoop config strict (fuel + 1) reader carry probe x =
      proceed (findLoop config strict fuel (filled.consume 64) newCarry
        (if strict then later.advance s else later) (x + 64)) filled x bytes.length rejected
        termBit := by
  have hv : filled.buffer.take bytes.length ++ List.replicate (vectorBytes - bytes.length)
      (neutralPad config.delimiter config.terminator.bytes.1 config.terminator.bytes.2
        config.quote) = vectorOf config bytes := by
    rw [vectorOf, hlen, hbytes]
  rw [findLoop]
  simp only [hfill, hshown, Bool.false_eq_true, if_false, ChunkReader.remainingInChunk, hchunk]
  rw [show vectorBytes = 64 from rfl] at hv ⊢
  simp only [← hlen, hv, hs, hm, hterm, hchecked]
  cases rejected <;> cases termBit <;> rfl

theorem findLoop_nothing {strict : Bool} {fuel x : ℕ} {reader filled : ChunkReader} {carry : Bool}
    {probe : StrictProbe} (hfill : reader.fill vectorBytes = .ok filled)
    (hnone : filled.buffer.isEmpty = true ∨ filled.chunkRemaining = 0) :
    findLoop config strict (fuel + 1) reader carry probe x = .ok none := by
  rw [findLoop]
  rcases hnone with hempty | hedge
  · simp only [hfill, hempty, if_true]
  · simp only [hfill, ChunkReader.remainingInChunk, hedge, if_true, ite_self]

/-- What the check of a vector comes to, the scan comes to on its bytes, whatever is behind. -/
theorem vector_spec {strict : Bool} {x : ℕ} {probe later : StrictProbe} {s : Structural}
    {m : Mask} {termBit : Option ℕ} {rejected : Option Error} (h : config.Distinct)
    (hmasks : Masks config edge bytes s m) (hprobe : strict = true → Carries probe edge x)
    (hpos : 0 < bytes.length) (hle : bytes.length ≤ 64)
    (hterm : Least (edge.findsAt config bytes) termBit)
    (hchecked : (if strict = true then probe.check s m bytes.length termBit x
      else (probe, none)) = (later, rejected)) (rest : Bytes) :
    match rejected, termBit with
    | some err, _ => ∃ off, err = .invalidQuote off ∧
        edge.scan config strict x (bytes ++ rest) = .rejected off
    | none, some k => edge.scan config strict x (bytes ++ rest) = .found (x + k)
    | none, none =>
        edge.scan config strict x (bytes ++ rest) =
            (edge.after config bytes).scan config strict (x + bytes.length) rest ∧
          (strict = true → bytes.length = 64 → later.pendingCloserMsb =
            if closers config edge bytes 63 then some (x + 64) else none) := by
  have hcheck := fun hstrict => check_spec h hmasks (hprobe hstrict) hpos hle hterm
  cases rejected with
  | some err =>
      cases strict with
      | false => cases hchecked
      | true =>
          rw [if_pos rfl] at hchecked
          rw [hchecked] at hcheck
          obtain ⟨k, rfl, hfirst, hbefore⟩ := hcheck rfl
          exact ⟨x + k, rfl, Edge.scan_rejected hfirst hbefore x rest⟩
  | none =>
      have hrejects : strict = true → (∀ i, (∀ k, termBit = some k → i ≤ k) →
            edge.rejectsAt config bytes i = false) ∧
          (bytes.length = 64 → later.pendingCloserMsb =
            if closers config edge bytes 63 then some (x + 64) else none) := by
        intro hstrict
        rw [if_pos hstrict] at hchecked
        rw [hchecked] at hcheck
        exact hcheck hstrict
      cases termBit with
      | some k =>
          exact Edge.scan_found (fun hstrict i hi => (hrejects hstrict).1 i fun k' hk' =>
            Option.some.inj hk' ▸ hi) hterm x rest
      | none =>
          have hclear := fun hstrict i =>
            (hrejects hstrict).1 i fun k' hk' => by cases hk'
          exact ⟨Edge.scan_absent hclear hterm x rest, fun hstrict => (hrejects hstrict).2⟩

/-- What a full vector leaves behind is what the next one starts from. -/
theorem carries_after {x : ℕ} {later : StrictProbe} {s : Structural} {m : Mask}
    (hmasks : Masks config edge bytes s m) (hfull : bytes.length = 64)
    (hcloser : later.pendingCloserMsb =
      if closers config edge bytes 63 then some (x + 64) else none) :
    Carries (later.advance s) (edge.after config bytes) (x + 64) := by
  have hafter := @edge_after_take config edge bytes 64 hfull.ge
  rw [List.take_of_length_le hfull.le] at hafter
  rw [hafter]
  refine ⟨?_, hcloser⟩
  rw [StrictProbe.advance, ushiftRight_63_ne_zero]
  exact hmasks.boundary (by omega)

theorem inQuotes_after {s : Structural} {m : Mask} {newCarry : Bool}
    (hmasks : Masks config edge bytes s m) (hfull : bytes.length = 64)
    (hm : computeInQuotes s.quote edge.inQuotes = (m, newCarry)) :
    newCarry = (edge.after config bytes).inQuotes := by
  have hafter := @edge_after_take config edge bytes 64 hfull.ge
  rw [List.take_of_length_le hfull.le] at hafter
  have hmsb := computeInQuotes_carry s.quote edge.inQuotes
  rw [hm] at hmsb
  rw [hafter]
  exact hmsb.trans (hmasks.inside 63 (by omega))

/-- The rest of the chunk is the vector's bytes and what is behind them. -/
theorem take_chunk_eq {reader : ChunkReader}
    (hbuf : reader.buffer.length = reader.available)
    (hbytes : reader.buffer.take (min (min reader.chunkRemaining reader.buffer.length) 64) =
      bytes) :
    reader.pending.take reader.chunkRemaining = bytes ++
      (reader.pending.drop bytes.length).take (reader.chunkRemaining - bytes.length) := by
  have hlen : bytes.length = min (min reader.chunkRemaining reader.buffer.length) 64 := by
    rw [← hbytes, List.length_take]
    omega
  have htake : bytes = reader.pending.take bytes.length := by
    have hshort : bytes.length ≤ reader.available := by omega
    conv_lhs => rw [← hbytes, ← hlen]
    rw [ChunkReader.buffer, List.take_take, Nat.min_eq_left hshort]
  have hwithin : bytes.length ≤ reader.pending.length := by
    rw [htake, List.length_take]
    exact Nat.min_le_right _ _
  conv_rhs => rw [htake]
  rw [List.length_take, Nat.min_eq_left hwithin, ← List.take_add]
  congr 1
  omega

/-- The scan depends on the bytes of the chunk only. -/
theorem findLoop_spec (h : config.Distinct) (strict : Bool) (origin : ChunkReader)
    (target : Boundary) (fuel : ℕ) (reader : ChunkReader) (edge : Edge) (probe : StrictProbe)
    (x : ℕ) (hreader : origin.Advanced x reader)
    (hprobe : strict = true → Carries probe edge x)
    (hscan : edge.scan config strict x (reader.pending.take reader.chunkRemaining) = target)
    (hfuel : reader.pending.length < fuel) :
    ScanOutcome.Matches origin target
      (findLoop config strict fuel reader edge.inQuotes probe x) := by
  induction fuel generalizing reader edge probe x with
  | zero => omega
  | succ fuel ih =>
      cases hfill : reader.fill vectorBytes with
      | error err =>
          rw [findLoop, hfill]
          exact Or.inr ⟨err, hreader.schedule.failsWith (ChunkReader.fill_error hfill), rfl⟩
      | ok filled =>
          have hfilled := hreader.fill hfill
          obtain ⟨hpending, hremaining, -, havail, hview⟩ := ChunkReader.fill_spec hfill
          have hlength := congrArg List.length hpending
          rw [← hpending, ← hremaining] at hscan
          rw [← hpending, show vectorBytes = 64 from rfl] at hview
          have hbuf := ChunkDriver.length_buffer_of_le (hpending ▸ havail)
          by_cases hnone : filled.buffer.isEmpty = true ∨ filled.chunkRemaining = 0
          · -- nothing is left of the chunk
            have hrest : filled.pending.take filled.chunkRemaining = [] := by
              rcases hnone with hempty | hedge
              · rw [List.isEmpty_iff_length_eq_zero, hbuf] at hempty
                rw [List.length_eq_zero_iff.mp (by omega : filled.pending.length = 0),
                  List.take_nil]
              · rw [hedge, List.take_zero]
            rw [findLoop_nothing hfill hnone, ← hscan, hrest]
            exact rfl
          · rw [not_or, Bool.not_eq_true] at hnone
            obtain ⟨hshown, hchunk⟩ := hnone
            generalize hbytes : filled.buffer.take
              (min (min filled.chunkRemaining filled.buffer.length) 64) = bytes
            have hlen : bytes.length = min (min filled.chunkRemaining filled.buffer.length) 64 := by
              rw [← hbytes, List.length_take]
              omega
            have hpos : 0 < bytes.length := by
              have hlong : filled.buffer.length ≠ 0 := fun hzero => by
                rw [List.isEmpty_iff_length_eq_zero.mpr hzero] at hshown
                cases hshown
              omega
            rw [take_chunk_eq hbuf hbytes] at hscan
            have hmasks := @masks_vectorOf config edge bytes
            generalize hs : matchStructural (vectorOf config bytes) config.delimiter
              config.terminator.bytes.1 config.terminator.bytes.2 config.quote = s at hmasks
            generalize hm : computeInQuotes s.quote edge.inQuotes = inQuotes at hmasks
            obtain ⟨m, newCarry⟩ := inQuotes
            have hterm := termBit_spec hmasks (by omega)
            generalize hbit : (if s.term &&& s.structuralDelims m ≠ 0 ∧
                trailingZeros (s.term &&& s.structuralDelims m) < bytes.length then
              some (trailingZeros (s.term &&& s.structuralDelims m)) else none) = termBit at hterm
            generalize hchecked : (if strict = true then
              probe.check s m bytes.length termBit x else (probe, none)) = checked
            obtain ⟨later, rejected⟩ := checked
            rw [findLoop_vector hfill hshown hchunk hbytes hlen hs hm hbit hchecked]
            have hvector := vector_spec h hmasks hprobe hpos (by omega) hterm hchecked
              ((filled.pending.drop bytes.length).take (filled.chunkRemaining - bytes.length))
            rw [hscan] at hvector
            cases rejected with
            | some err =>
                obtain ⟨off, rfl, hrejected⟩ := hvector
                exact Or.inl ⟨off, hrejected, rfl⟩
            | none =>
                cases termBit with
                | some k => exact ⟨hvector, hfilled.consume k⟩
                | none =>
                    obtain ⟨hrest, hcloser⟩ := hvector
                    rw [proceed]
                    by_cases htail : bytes.length < 64
                    · -- the vector is the chunk's last
                      have hnil : (filled.pending.drop bytes.length).take
                          (filled.chunkRemaining - bytes.length) = [] := by
                        apply List.eq_nil_of_length_eq_zero
                        rw [List.length_take, List.length_drop]
                        omega
                      rw [hnil] at hrest
                      rw [if_pos htail, hrest]
                      exact rfl
                    · have hfull : bytes.length = 64 := by omega
                      rw [if_neg htail, inQuotes_after hmasks hfull hm]
                      refine ih _ _ _ _ (hfilled.consume 64) (fun hstrict => ?_) ?_ ?_
                      · rw [if_pos hstrict]
                        exact carries_after hmasks hfull (hcloser hstrict hfull)
                      · rw [hfull] at hrest
                        exact hrest.symm
                      · rw [ChunkReader.consume, List.length_drop]
                        omega

end Loop

/-- The boundary the vectorized scan finds in a chunk. -/
def boundaryOf (config : Config) (assumption : Assumption) (strict : Bool) (bytes : Bytes) :
    Boundary :=
  Edge.scan config strict ⟨initialCarry config assumption, true, false⟩ 0 bytes

theorem findRecordStart_spec {config : Config} (h : config.Distinct) (reader : ChunkReader)
    (assumption : Assumption) (strict : Bool) :
    ScanOutcome.Matches reader
      (boundaryOf config assumption strict (reader.pending.take reader.chunkRemaining))
      (findRecordStart config reader assumption strict) :=
  findLoop_spec h strict reader _ _ reader ⟨initialCarry config assumption, true, false⟩ {} 0
    (.refl reader) (fun _ => ⟨rfl, rfl⟩) rfl (Nat.lt_succ_self _)

/-! ## The byte automaton -/

/-- The dialects the backend supports. -/
structure Supported (config : Config) : Prop where
  fieldCount : ∃ n, config.fieldCount = some n ∧ 1 ≤ n ∧ n ≤ 63
  trim : config.trim = false
  comment : config.comment = none
  toggle : config.quoteHandling = .toggle
  escape : ∀ e, config.escape = some e → config.quote = some e

theorem supported_of_supports {config : Config} (h : config.Distinct)
    (hsupports : supports config = .ok ()) : Supported config := by
  rw [supports] at hsupports
  cases hcount : config.fieldCount with
  | none => rw [hcount] at hsupports; cases hsupports
  | some n =>
      rw [hcount] at hsupports
      simp only at hsupports
      split_ifs at hsupports with hfields htrim hflexible hcomment hmode
      refine {
        fieldCount := ⟨n, hcount, ?_, ?_⟩
        trim := Bool.eq_false_of_not_eq_true htrim
        comment := Option.not_isSome_iff_eq_none.mp hcomment
        toggle := not_not.mp hmode
        escape := fun e he => ?_ }
      · rw [not_or] at hfields
        omega
      · rw [not_or, fixedMaxArity] at hfields
        omega
      · have hquoted := h.escape_quote
        rw [he] at hquoted hsupports
        obtain ⟨q, hq⟩ := Option.isSome_iff_exists.mp (hquoted rfl)
        rw [hq] at hsupports ⊢
        simp only at hsupports
        split_ifs at hsupports with hne
        rw [not_not.mp hne]

namespace Supported

variable {config : Config} (hs : Supported config) (h : config.Distinct)

include hs

theorem doubledQuotes_of_escape {e : Byte} (he : config.escape = some e) :
    config.doubledQuotes = true := by
  rw [Config.doubledQuotes, hs.escape e he, he]
  exact beq_self_eq_true e

theorem handling_eq : Dfa.findConfig config = config := by
  rw [Dfa.findConfig, ← hs.toggle]

include h

/-- What the classes of bytes are to the vectorized scan. -/
theorem symbol_cases (b : Byte) :
    (config.symbol b = .delimiter ∧ config.isTerminator b = false ∧ isQuote config b = false ∧
        isBoundary config b = true) ∨
      (config.symbol b = .terminator ∧ config.isTerminator b = true ∧ isQuote config b = false ∧
        isBoundary config b = true) ∨
      (config.symbol b = .quote ∧ config.isTerminator b = false ∧ isQuote config b = true ∧
        isBoundary config b = true) ∨
      (config.symbol b = .content ∧ config.isTerminator b = false ∧ isQuote config b = false ∧
        isBoundary config b = false) := by
  obtain ⟨hdelim, hterm, hquote, hescape, hcomment⟩ := Dfa.symbol_tests h b
  have hnoEscape : config.symbol b ≠ .escape := by
    intro hsymbol
    obtain ⟨he, hdoubled⟩ := hescape.mp hsymbol
    exact Bool.false_ne_true (hdoubled.symm.trans (hs.doubledQuotes_of_escape he))
  have hnoComment : config.symbol b ≠ .comment := by
    intro hsymbol
    have hnone := hcomment.mp hsymbol
    rw [hs.comment] at hnone
    cases hnone
  rw [isBoundary, isQuote]
  cases hsymbol : config.symbol b <;> simp_all

end Supported

/-- The states of the byte automaton, by what lies before a byte. -/
inductive Tracks : State → Edge → Prop
  | fieldStart : Tracks .fieldStart ⟨false, true, false⟩
  | inField : Tracks .inField ⟨false, false, false⟩
  | inQuotedField (leftBoundary : Bool) : Tracks .inQuotedField ⟨true, leftBoundary, false⟩
  | afterClosingQuote : Tracks .afterClosingQuote ⟨false, true, true⟩

section Automaton

variable {config : Config} (hs : Supported config) (h : config.Distinct) (endian : Endian)

include hs h

/-- One byte: the byte automaton ends a record where the scan finds its end, and under the
strict probe rejects what the scan rejects.  It rejects a quote directly behind a closing
one as well, unless the two are a doubled quote. -/
theorem Tracks.step {state : State} {edge : Edge} (htracks : Tracks state edge) (b : Byte) :
    let trans := (Dfa.new endian config).transition state b
    (trans.next = .recordEnd ↔ edge.finds config b = true) ∧ trans.next ≠ .error ∧
      (edge.rejects config b = true → trans.strictError = true) ∧
      (config.doubledQuotes = true ∨ config.quote = none → trans.strictError = true →
        edge.rejects config b = true) ∧
      (trans.next ≠ .recordEnd →
        Tracks (if trans.next = .fieldEnd then .fieldStart else trans.next)
          (edge.step config b)) := by
  have hcases := hs.symbol_cases h b
  have hrow := Dfa.transition_eq h endian state (by cases htracks <;> decide) b
  have hquoted : isQuote config b = true → ¬ config.quote = none := by
    rintro hquote hnone
    rw [isQuote, hnone] at hquote
    cases hquote
  simp only [hrow, hs.toggle]
  cases htracks <;>
    rcases hcases with ⟨hsymbol, hterm, hquote, hbnd⟩ | ⟨hsymbol, hterm, hquote, hbnd⟩ |
      ⟨hsymbol, hterm, hquote, hbnd⟩ | ⟨hsymbol, hterm, hquote, hbnd⟩ <;>
    cases hdoubled : config.doubledQuotes <;>
    simp [hsymbol, Dfa.symbolRow, Edge.finds, Edge.rejects, Edge.step, hterm, hquote, hbnd] <;>
    first | exact ⟨hquoted hquote, .inQuotedField true⟩ | constructor

omit hs h in
/-- One byte of the byte automaton's scan. -/
theorem scanBytes_cons (dfa : Dfa) (strict : Bool) (state : State) (x : ℕ) (b : Byte)
    (rest : Bytes) :
    (Dfa.scanBytes dfa strict state x (b :: rest)).boundary =
      if strict && (dfa.transition state b).strictError then .rejected x
      else if (dfa.transition state b).next = .error then .rejected x
      else if (dfa.transition state b).next = .recordEnd then .found x
      else (Dfa.scanBytes dfa strict
        (if (dfa.transition state b).next = .fieldEnd then .fieldStart
          else (dfa.transition state b).next) (x + 1) rest).boundary := by
  rw [Dfa.scanBytes]
  split_ifs with hflag herror hrecord hfield
  · rfl
  · simp only [herror]
    rfl
  · simp only [hrecord]
    rfl
  · simp only [hfield]
  · cases hnext : (dfa.transition state b).next <;> first | rfl | contradiction

/-- Unless a quote behind a closing one counts, the scans agree. -/
theorem scan_eq_scanBytes {strict : Bool}
    (hdoubled : strict = true → config.doubledQuotes = true ∨ config.quote = none)
    {state : State} {edge : Edge} (htracks : Tracks state edge) (x : ℕ) (bytes : Bytes) :
    edge.scan config strict x bytes =
      (Dfa.scanBytes (Dfa.new endian config) strict state x bytes).boundary := by
  induction bytes generalizing state edge x with
  | nil => rfl
  | cons b rest ih =>
      obtain ⟨hfinds, herror, hrejects, hflag, hnext⟩ := htracks.step hs h endian b
      have hsame : (strict && edge.rejects config b) =
          (strict && ((Dfa.new endian config).transition state b).strictError) := by
        cases strict with
        | false => rfl
        | true =>
            rw [Bool.true_and, Bool.true_and, Bool.eq_iff_iff]
            exact ⟨hrejects, hflag (hdoubled rfl)⟩
      rw [scanBytes_cons, Edge.scan, hsame, if_neg herror]
      refine if_congr Iff.rfl rfl ?_
      by_cases hend : ((Dfa.new endian config).transition state b).next = .recordEnd
      · rw [if_pos hend, if_pos (hfinds.mp hend)]
      · rw [if_neg hend, if_neg fun hfound => hend (hfinds.mpr hfound)]
        exact ih (hnext hend) (x + 1)

omit hs h in
theorem scan_strict (edge : Edge) (x : ℕ) (bytes : Bytes) :
    edge.scan config true x bytes = edge.scan config false x bytes ∨
      ∃ off, edge.scan config true x bytes = .rejected off := by
  induction bytes generalizing edge x with
  | nil => exact Or.inl rfl
  | cons b rest ih =>
      rw [Edge.scan, Edge.scan, Bool.true_and, Bool.false_and, if_neg Bool.false_ne_true]
      split_ifs
      · exact Or.inr ⟨x, rfl⟩
      · exact Or.inr ⟨x, rfl⟩
      · exact Or.inl rfl
      · exact ih _ _

/-- What the scan rejects, the byte automaton rejects, if not for the same byte. -/
theorem scan_strict_rejected {state : State} {edge : Edge} (htracks : Tracks state edge) (x : ℕ)
    (bytes : Bytes) (hrejected : ∃ off, edge.scan config true x bytes = .rejected off) :
    ∃ off, (Dfa.scanBytes (Dfa.new endian config) true state x bytes).boundary = .rejected off := by
  induction bytes generalizing state edge x with
  | nil =>
      obtain ⟨off, hoff⟩ := hrejected
      cases hoff
  | cons b rest ih =>
      obtain ⟨hfinds, herror, hrejects, -, hnext⟩ := htracks.step hs h endian b
      rw [scanBytes_cons, if_neg herror, Bool.true_and]
      by_cases hflag : ((Dfa.new endian config).transition state b).strictError = true
      · rw [if_pos hflag]
        exact ⟨x, rfl⟩
      · rw [if_neg hflag]
        rw [Edge.scan, Bool.true_and, if_neg fun hreject => hflag (hrejects hreject)] at hrejected
        by_cases hend : ((Dfa.new endian config).transition state b).next = .recordEnd
        · rw [if_pos (hfinds.mp hend)] at hrejected
          obtain ⟨off, hoff⟩ := hrejected
          cases hoff
        · rw [if_neg hend]
          rw [if_neg fun hfound => hend (hfinds.mpr hfound)] at hrejected
          exact ih (hnext hend) (x + 1) hrejected

omit h in
/-- The states the scans start in. -/
theorem tracks_initial {assumption : Assumption}
    (hmem : assumption ∈ assumptionsForConfig config.quote config.escape) :
    Tracks ((Dfa.DfaChunkParser.new endian config).assumptionToState assumption)
      ⟨initialCarry config assumption, true, false⟩ := by
  cases assumption with
  | outOfQuotes => exact .fieldStart
  | inQuotes => exact .inQuotedField true
  | inQuotesAfterEscape =>
      exfalso
      cases hquote : config.quote with
      | none => simp [hquote, assumptionsForConfig] at hmem
      | some q =>
          cases hescape : config.escape with
          | none => simp [hquote, hescape, assumptionsForConfig] at hmem
          | some e =>
              have heq := hs.escape e hescape
              rw [hquote] at heq
              cases heq
              simp [hquote, hescape, assumptionsForConfig] at hmem

/-- The scans find the same boundaries under every assumption of the dialect. -/
theorem boundaryOf_eq {assumption : Assumption}
    (hmem : assumption ∈ assumptionsForConfig config.quote config.escape) {strict : Bool}
    (hdoubled : strict = true → config.doubledQuotes = true ∨ config.quote = none)
    (bytes : Bytes) :
    boundaryOf config assumption strict bytes =
      Dfa.boundaryOf endian config assumption strict bytes := by
  have hparser : (Dfa.DfaChunkParser.new endian config).findDfa = Dfa.new endian config :=
    congrArg (Dfa.new endian) hs.handling_eq
  rw [boundaryOf, Dfa.boundaryOf]
  simp only [hparser]
  exact scan_eq_scanBytes hs h endian hdoubled (tracks_initial hs endian hmem) 0 bytes

end Automaton

/-! ## The two backends -/

/-- Two scans that come to the same: the same boundary with the readers on the same byte,
no boundary, or the same error. -/
inductive Alike : ScanOutcome → ScanOutcome → Prop
  | absent : Alike (.ok none) (.ok none)
  | found {later later' : ChunkReader} (off : ℕ) (pending : later.pending = later'.pending)
      (chunkRemaining : later.chunkRemaining = later'.chunkRemaining) :
      Alike (.ok (some (later, off))) (.ok (some (later', off)))
  | failed (err : Error) : Alike (.error err) (.error err)

/-- Over the same bytes and without I/O failures, scans that find the same come to the
same. -/
theorem alike_of_matches {reader reader' : ChunkReader} {boundary : Boundary}
    {outcome outcome' : ScanOutcome} (hmatches : outcome.Matches reader boundary)
    (hmatches' : outcome'.Matches reader' boundary) (hreliable : reader.schedule.Reliable)
    (hreliable' : reader'.schedule.Reliable) (hpending : reader.pending = reader'.pending)
    (hchunk : reader.chunkRemaining = reader'.chunkRemaining) : Alike outcome outcome' := by
  have hrejected : ∀ {reader : ChunkReader} {err : Error}, reader.schedule.Reliable →
      ScanOutcome.Matches reader boundary (.error err) →
        ∃ off, boundary = .rejected off ∧ err = .invalidQuote off := by
    rintro reader err hreliable (hoff | ⟨failure, hfails, -⟩)
    · exact hoff
    · exact absurd hfails (hreliable.not_failsWith failure)
  rcases outcome with err | _ | ⟨later, off⟩
  · obtain ⟨off, rfl, rfl⟩ := hrejected hreliable hmatches
    rcases outcome' with err' | _ | ⟨later', off'⟩
    · obtain ⟨off', hoff, rfl⟩ := hrejected hreliable' hmatches'
      cases hoff
      exact .failed _
    · cases hmatches'
    · cases hmatches'.1
  · cases hmatches
    rcases outcome' with err' | _ | ⟨later', off'⟩
    · obtain ⟨off', hoff, -⟩ := hrejected hreliable' hmatches'
      cases hoff
    · exact .absent
    · cases hmatches'.1
  · obtain ⟨rfl, hadvanced⟩ := hmatches
    rcases outcome' with err' | _ | ⟨later', off'⟩
    · obtain ⟨off', hoff, -⟩ := hrejected hreliable' hmatches'
      cases hoff
    · cases hmatches'
    · obtain ⟨hoff, hadvanced'⟩ := hmatches'
      cases hoff
      exact .found _ (by rw [hadvanced.pending, hadvanced'.pending, hpending])
        (by rw [hadvanced.chunkRemaining, hadvanced'.chunkRemaining, hchunk])

/-- The vectorized boundary scan is the byte automaton's, whatever the refills: leniently
under every assumption of a supported dialect, and strictly too if the escape is the
quote. -/
theorem findRecordStart_alike (config : ValidConfig) (endian : Endian)
    (hsupports : supports config.config = .ok ()) {assumption : Assumption}
    (hmem : assumption ∈ assumptionsForConfig config.config.quote config.config.escape)
    {reader reader' : ChunkReader} (hreliable : reader.schedule.Reliable)
    (hreliable' : reader'.schedule.Reliable) (hpending : reader.pending = reader'.pending)
    (hchunk : reader.chunkRemaining = reader'.chunkRemaining) :
    Alike (findRecordStart config.config reader assumption false)
        (Dfa.findRecordStartFrom (Dfa.DfaChunkParser.new endian config.config).findDfa false reader'
          ((Dfa.DfaChunkParser.new endian config.config).assumptionToState assumption)) ∧
      (config.config.escape = config.config.quote →
        Alike (findRecordStart config.config reader assumption true)
          (Dfa.findRecordStartFrom (Dfa.DfaChunkParser.new endian config.config).findDfa true
            reader' ((Dfa.DfaChunkParser.new endian config.config).assumptionToState
              assumption))) := by
  have h := config.distinct
  have hs := supported_of_supports h hsupports
  have hscan : ∀ strict : Bool,
      (strict = true → config.config.doubledQuotes = true ∨ config.config.quote = none) →
        Alike (findRecordStart config.config reader assumption strict)
          (Dfa.findRecordStartFrom (Dfa.DfaChunkParser.new endian config.config).findDfa strict
            reader' ((Dfa.DfaChunkParser.new endian config.config).assumptionToState
              assumption)) := by
    intro strict hdoubled
    have hsimd := findRecordStart_spec h reader assumption strict
    have hsound := Dfa.probeSound_new endian config.config
    have hdfa := @Dfa.findRecordStartFrom_spec _ strict hsound.toSearchSound (fun _ => hsound)
      reader' ((Dfa.DfaChunkParser.new endian config.config).assumptionToState assumption)
    rw [boundaryOf_eq hs h endian hmem hdoubled, hpending, hchunk] at hsimd
    exact alike_of_matches hsimd hdfa hreliable hreliable' hpending hchunk
  refine ⟨hscan false fun hfalse => absurd hfalse Bool.false_ne_true, fun heq => ?_⟩
  refine hscan true fun _ => ?_
  cases hquote : config.config.quote with
  | none => exact Or.inr rfl
  | some q => exact Or.inl (hs.doubledQuotes_of_escape (heq.trans hquote))

/-- The default dialect, with two fields a record. -/
def pairs : ValidConfig := ⟨{ Config.default with fieldCount := some 2 }, rfl⟩

/-- A quote that opens inside a field. -/
theorem findRecordStart_alike_misplaced :
    Alike (findRecordStart pairs.config (.whole [97, 34, 98, 10]) .outOfQuotes true)
      (Dfa.findRecordStartFrom (Dfa.DfaChunkParser.new .little pairs.config).findDfa true
        (.whole [97, 34, 98, 10])
        ((Dfa.DfaChunkParser.new .little pairs.config).assumptionToState .outOfQuotes)) := by
  have hmem : Assumption.outOfQuotes ∈
      assumptionsForConfig pairs.config.quote pairs.config.escape := by decide
  have halike := @findRecordStart_alike pairs .little rfl _ hmem (.whole [97, 34, 98, 10])
    (.whole [97, 34, 98, 10]) Schedule.reliable_exact Schedule.reliable_exact rfl rfl
  exact halike.2 rfl

end Csveee.Simd
