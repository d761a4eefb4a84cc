import Csveee.Lib.Positions
import Csveee.Parser.Simd.ScanSpec

/-!
# Cells

A text cut at its boundaries: one cell for each field, with the terminator run behind it
if it is the last of its record.  The scanner's begins, ends and removals are told by the
cells.
-/

namespace Csveee.Simd

open Positions

structure Cell where
  lo : ℕ
  /-- The byte that ends the field. -/
  stop : ℕ
  /-- The last byte of the terminator run at `stop`, or `stop` itself. -/
  bound : ℕ
  /-- The field is the last of its record. -/
  last : Bool
  deriving DecidableEq, Repr

namespace Marks

section

variable (marks : Marks)

/-- No byte has two meanings, and none past `n` has one. -/
structure Proper (n : ℕ) : Prop where
  not_term : ∀ i, marks.delim i = true → marks.term i = false
  quote : ∀ i, marks.quote i = true → marks.delim i = false ∧ marks.term i = false
  past : ∀ i, n ≤ i → marks.delim i = false ∧ marks.term i = false ∧ marks.quote i = false

/-- A field starts here: at the text's start, or behind a boundary. -/
def Starts (lo : ℕ) : Prop := lo = 0 ∨ lag marks.dStruct lo = true

structure CellAt (cell : Cell) : Prop where
  starts : marks.Starts cell.lo
  lo_le : cell.lo ≤ cell.stop
  before : ∀ i, cell.lo ≤ i → i < cell.stop → marks.stops i = false
  delim : cell.last = false → marks.delimOoq cell.stop = true ∧ cell.bound = cell.stop
  term : cell.last = true → cell.stop ≤ cell.bound ∧
    (∀ i, cell.stop ≤ i → i ≤ cell.bound → marks.termOoq i = true) ∧
      marks.termOoq (cell.bound + 1) = false

/-- Consecutive cells, and nothing behind the last that ends a field. -/
inductive Chain : ℕ → List Cell → Prop
  | nil {lo : ℕ} : marks.Starts lo → (∀ i, lo ≤ i → marks.stops i = false) → Chain lo []
  | cons {cell : Cell} {cells : List Cell} : marks.CellAt cell → Chain (cell.bound + 1) cells →
      Chain cell.lo (cell :: cells)

/-- Where the scanner has a field begin: behind an opening quote, unless it is the text's
first byte. -/
def begin (cell : Cell) : ℕ :=
  if cell.lo ≠ 0 ∧ marks.quote cell.lo = true then cell.lo + 1 else cell.lo

/-- Where the scanner has a field end: on a closing quote in front of its stop. -/
def fin (cell : Cell) : ℕ :=
  if lag marks.closes cell.stop = true then cell.stop - 1 else cell.stop

/-- The bytes that are content: all but quotes, and of a doubled quote the first. -/
def keep (doubledQuotes : Bool) (i : ℕ) : Bool :=
  !marks.quote i || (doubledQuotes && !marks.inQuotes i && marks.quote (i + 1))

end

variable {marks : Marks} {n : ℕ}

theorem inQuotes_eq (marks : Marks) (i : ℕ) :
    marks.inQuotes i = (lag marks.inQuotes i ^^ marks.quote i) := parity_eq marks.quote i

theorem not_quote_of_dStruct (h : marks.Proper n) {i : ℕ} (hi : marks.dStruct i = true) :
    marks.quote i = false := by
  by_contra hquote
  obtain ⟨hdelim, hterm⟩ := h.quote i (Bool.eq_true_of_not_eq_false hquote)
  rw [dStruct, delimOoq, runEnd, termOoq, hdelim, hterm] at hi
  cases hi

theorem not_inQuotes_of_dStruct {i : ℕ} (hi : marks.dStruct i = true) :
    marks.inQuotes i = false := by
  rw [dStruct, delimOoq, runEnd, termOoq] at hi
  cases hin : marks.inQuotes i with
  | false => rfl
  | true =>
      rw [hin] at hi
      simp at hi

theorem not_delimOoq_of_termOoq (h : marks.Proper n) {i : ℕ}
    (hi : marks.termOoq i = true) :
    marks.delimOoq i = false := by
  rw [termOoq, Bool.and_eq_true] at hi
  cases hdelim : marks.delim i with
  | false => rw [delimOoq, hdelim, Bool.false_and]
  | true =>
      have hterm := h.not_term i hdelim
      rw [hi.1] at hterm
      cases hterm

/-! ## Where a field starts -/

namespace Starts

variable {lo : ℕ} (h : marks.Proper n) (hlo : marks.Starts lo)

include hlo

theorem outside : lag marks.inQuotes lo = false := by
  rcases hlo with rfl | hlag
  · rfl
  · cases lo with
    | zero => rfl
    | succ i => exact not_inQuotes_of_dStruct hlag

include h

/-- A run that reaches a field's first byte starts there. -/
theorem runStart_eq : marks.runStart lo = marks.termOoq lo := by
  rcases hlo with rfl | hlag
  · rw [runStart, lag_zero]
    simp
  · cases lo with
    | zero => simp [runStart]
    | succ i =>
        rw [lag_succ, dStruct, Bool.or_eq_true] at hlag
        rw [runStart, lag_succ]
        rcases hlag with hdelim | hend
        · rw [delimOoq, Bool.and_eq_true] at hdelim
          have hterm : marks.termOoq i = false := by
            rw [termOoq, h.not_term i hdelim.1, Bool.false_and]
          rw [hterm, Bool.not_false, Bool.and_true]
        · rw [runEnd, Bool.and_eq_true, lead, Bool.not_eq_true'] at hend
          rw [hend.2, Bool.false_and]

theorem not_quote : lag marks.quote lo = false := by
  rcases hlo with rfl | hlag
  · rfl
  · cases lo with
    | zero => rfl
    | succ i => exact not_quote_of_dStruct h hlag

theorem not_closes : lag marks.closes lo = false := by
  have hquote := hlo.not_quote h
  cases lo with
  | zero => rfl
  | succ i =>
      rw [lag_succ] at hquote ⊢
      rw [closes, hquote, Bool.false_and, Bool.false_and]

theorem le : lo ≤ n := by
  rcases hlo with rfl | hlag
  · exact Nat.zero_le n
  · cases lo with
    | zero => exact Nat.zero_le n
    | succ i =>
        by_contra hge
        obtain ⟨hdelim, hterm, -⟩ := h.past i (by omega)
        rw [lag_succ, dStruct, delimOoq, runEnd, termOoq, hdelim, hterm] at hlag
        cases hlag

/-- Where nothing ends a field any more, there is neither delimiter nor terminator, but in
quotes. -/
theorem quiet (hstops : ∀ i, lo ≤ i → marks.stops i = false) (i : ℕ) (hi : lo ≤ i) :
    marks.delimOoq i = false ∧ marks.termOoq i = false := by
  induction i, hi using Nat.le_induction with
  | base =>
      have hstop := hstops lo le_rfl
      rw [stops, hlo.runStart_eq h, Bool.or_eq_false_iff] at hstop
      exact hstop
  | succ i hi ih =>
      have hstop := hstops (i + 1) (by omega)
      rw [stops, runStart, lag_succ, ih.2, Bool.not_false, Bool.and_true,
        Bool.or_eq_false_iff] at hstop
      exact hstop

end Starts

/-! ## The flags within a cell -/

namespace CellAt

variable {cell : Cell} (h : marks.Proper n) (hcell : marks.CellAt cell)

include hcell

theorem stop_le_bound : cell.stop ≤ cell.bound := by
  cases hlast : cell.last with
  | false => exact (hcell.delim hlast).2.ge
  | true => exact (hcell.term hlast).1

theorem inQuotes_lo (hquote : marks.quote cell.lo = true) : marks.inQuotes cell.lo = true := by
  rw [inQuotes_eq, hcell.starts.outside, hquote]
  rfl

theorem lo_le_bound : cell.lo ≤ cell.bound := le_trans hcell.lo_le hcell.stop_le_bound

theorem inQuotes_stop : marks.inQuotes cell.stop = false := by
  have hout : marks.delimOoq cell.stop = true ∨ marks.termOoq cell.stop = true := by
    cases hlast : cell.last with
    | false => exact Or.inl (hcell.delim hlast).1
    | true => exact Or.inr ((hcell.term hlast).2.1 _ le_rfl (hcell.term hlast).1)
  rw [delimOoq, termOoq] at hout
  cases hin : marks.inQuotes cell.stop with
  | false => rfl
  | true =>
      rw [hin] at hout
      simp at hout

include h

/-- Before its stop a cell has neither delimiters nor terminators, but in quotes. -/
theorem quiet (i : ℕ) (hlo : cell.lo ≤ i) (hi : i < cell.stop) :
    marks.delimOoq i = false ∧ marks.termOoq i = false := by
  induction i, hlo using Nat.le_induction with
  | base =>
      have hstop := hcell.before _ le_rfl hi
      rw [stops, hcell.starts.runStart_eq h, Bool.or_eq_false_iff] at hstop
      exact hstop
  | succ i hlo ih =>
      have hstop := hcell.before _ (Nat.le_succ_of_le hlo) hi
      rw [stops, runStart, lag_succ, (ih (by omega)).2, Bool.not_false, Bool.and_true,
        Bool.or_eq_false_iff] at hstop
      exact hstop

/-- The bytes from the stop on are no quotes. -/
theorem not_quote (i : ℕ) (hlo : cell.stop ≤ i) (hi : i ≤ cell.bound) :
    marks.quote i = false := by
  have hstruct : marks.delim i = true ∨ marks.term i = true := by
    cases hlast : cell.last with
    | false =>
        obtain ⟨hdelim, hbound⟩ := hcell.delim hlast
        rw [show i = cell.stop by omega]
        rw [delimOoq, Bool.and_eq_true] at hdelim
        exact Or.inl hdelim.1
    | true =>
        have hterm := (hcell.term hlast).2.1 i hlo hi
        rw [termOoq, Bool.and_eq_true] at hterm
        exact Or.inr hterm.1
  cases hquote : marks.quote i with
  | false => rfl
  | true =>
      obtain ⟨hdelim, hterm⟩ := h.quote i hquote
      rw [hdelim, hterm] at hstruct
      simp at hstruct

theorem stops_iff (i : ℕ) (hlo : cell.lo ≤ i) (hi : i ≤ cell.bound) :
    marks.stops i = true ↔ i = cell.stop := by
  have hle := hcell.lo_le
  rcases Nat.lt_trichotomy i cell.stop with hlt | rfl | hgt
  · rw [hcell.before i hlo hlt]
    exact ⟨fun hfalse => (Bool.false_ne_true hfalse).elim, fun heq => by omega⟩
  · refine ⟨fun _ => rfl, fun _ => ?_⟩
    rw [stops]
    cases hlast : cell.last with
    | false => rw [(hcell.delim hlast).1, Bool.true_or]
    | true =>
        have hterm := (hcell.term hlast).2.1 _ le_rfl hi
        have hstart : marks.runStart cell.stop = true := by
          rcases Nat.eq_or_lt_of_le hle with heq | hlt
          · have hruns := hcell.starts.runStart_eq h
            rw [heq] at hruns
            rw [hruns, hterm]
          · obtain ⟨k, hk⟩ : ∃ k, cell.stop = k + 1 := ⟨cell.stop - 1, by omega⟩
            have hquiet := (hcell.quiet h k (by omega) (by omega)).2
            rw [hk] at hterm ⊢
            rw [runStart, lag_succ, hterm, hquiet]
            rfl
        rw [hstart, Bool.or_true]
  · cases hlast : cell.last with
    | false =>
        have hbound := (hcell.delim hlast).2
        omega
    | true =>
        obtain ⟨k, rfl⟩ : ∃ k, i = k + 1 := ⟨i - 1, by omega⟩
        have hthis := (hcell.term hlast).2.1 (k + 1) (by omega) hi
        have hprev := (hcell.term hlast).2.1 k (by omega) (by omega)
        rw [stops, runStart, lag_succ, hprev, not_delimOoq_of_termOoq h hthis]
        refine ⟨fun hfalse => ?_, fun heq => by omega⟩
        simp at hfalse

theorem dStruct_iff (i : ℕ) (hlo : cell.lo ≤ i) (hi : i ≤ cell.bound) :
    marks.dStruct i = true ↔ i = cell.bound := by
  have hstop := hcell.stop_le_bound
  rcases Nat.lt_or_ge i cell.stop with hlt | hge
  · obtain ⟨hdelim, hterm⟩ := hcell.quiet h i hlo hlt
    rw [dStruct, hdelim, runEnd, hterm]
    refine ⟨fun hfalse => ?_, fun heq => by omega⟩
    simp at hfalse
  · cases hlast : cell.last with
    | false =>
        obtain ⟨hdelim, hbound⟩ := hcell.delim hlast
        rw [show i = cell.stop by omega, dStruct, hdelim, hbound, Bool.true_or]
        simp
    | true =>
        obtain ⟨-, hrun, hend⟩ := hcell.term hlast
        have hthis := hrun i hge hi
        rw [dStruct, not_delimOoq_of_termOoq h hthis, runEnd, hthis, lead]
        rcases Nat.eq_or_lt_of_le hi with rfl | hlt
        · rw [hend]
          simp
        · rw [hrun (i + 1) (by omega) (by omega)]
          refine ⟨fun hfalse => ?_, fun heq => by omega⟩
          simp at hfalse

theorem dStruct_bound : marks.dStruct cell.bound = true :=
  (hcell.dStruct_iff h _ hcell.lo_le_bound le_rfl).mpr rfl

/-- The boundary is a terminator's if the cell ends its record. -/
theorem runEnd_bound : marks.runEnd cell.bound = cell.last := by
  cases hlast : cell.last with
  | false =>
      obtain ⟨hdelim, hbound⟩ := hcell.delim hlast
      rw [delimOoq, Bool.and_eq_true] at hdelim
      rw [runEnd, termOoq, hbound, h.not_term _ hdelim.1, Bool.false_and, Bool.false_and]
  | true =>
      obtain ⟨hle, hrun, hend⟩ := hcell.term hlast
      rw [runEnd, lead, hrun _ hle le_rfl, hend]
      rfl

theorem starts_next : marks.Starts (cell.bound + 1) := Or.inr (hcell.dStruct_bound h)

theorem closes_iff (i : ℕ) (hlo : cell.lo ≤ i) (hi : i ≤ cell.bound) :
    marks.closes i = true ↔ i + 1 = cell.stop ∧ lag marks.closes cell.stop = true := by
  constructor
  · intro hcloses
    have hquote : marks.quote i = true := by
      rw [closes, Bool.and_eq_true, Bool.and_eq_true] at hcloses
      exact hcloses.1.1
    have hlt : i < cell.stop := by
      by_contra hge
      rw [hcell.not_quote h i (by omega) hi] at hquote
      cases hquote
    have hstop := hcell.stop_le_bound
    have hnext : marks.stops (i + 1) = true := by
      rw [closes, Bool.and_eq_true] at hcloses
      exact hcloses.2
    have heq := (hcell.stops_iff h (i + 1) (by omega) (by omega)).mp hnext
    refine ⟨heq, ?_⟩
    rw [← heq, lag_succ]
    exact hcloses
  · rintro ⟨heq, hlag⟩
    rw [← heq, lag_succ] at hlag
    exact hlag

theorem lo_lt_of_closes (hcloses : lag marks.closes cell.stop = true) : cell.lo < cell.stop := by
  rcases Nat.eq_or_lt_of_le hcell.lo_le with heq | hlt
  · rw [← heq, hcell.starts.not_closes h] at hcloses
    cases hcloses
  · exact hlt

theorem fin_le : marks.fin cell ≤ cell.stop ∧ cell.lo ≤ marks.fin cell := by
  have hle := hcell.lo_le
  rw [fin]
  split_ifs with hcloses
  · have hlt := hcell.lo_lt_of_closes h hcloses
    omega
  · omega

theorem e_iff (i : ℕ) (hlo : cell.lo ≤ i) (hi : i ≤ cell.bound) :
    marks.e i = true ↔ i = marks.fin cell := by
  have hstops := hcell.stops_iff h i hlo hi
  have hcloses := hcell.closes_iff h i hlo hi
  rw [e, fin, Bool.or_eq_true, Bool.and_eq_true, Bool.not_eq_true', hstops, hcloses]
  by_cases hlag : lag marks.closes cell.stop = true
  · have hlt := hcell.lo_lt_of_closes h hlag
    rw [if_pos hlag]
    constructor
    · rintro (⟨rfl, hnot⟩ | ⟨heq, -⟩)
      · rw [hlag] at hnot
        cases hnot
      · omega
    · intro heq
      exact Or.inr ⟨by omega, hlag⟩
  · rw [if_neg hlag]
    constructor
    · rintro (⟨rfl, -⟩ | ⟨-, hfalse⟩)
      · rfl
      · exact absurd hfalse hlag
    · rintro rfl
      exact Or.inl ⟨rfl, Bool.eq_false_of_not_eq_true hlag⟩

/-- Within a cell, only its first byte follows a boundary. -/
theorem lag_dStruct_iff (i : ℕ) (hlo : cell.lo ≤ i) (hi : i ≤ cell.bound) :
    lag marks.dStruct i = true ↔ i = cell.lo ∧ cell.lo ≠ 0 := by
  rcases Nat.eq_or_lt_of_le hlo with rfl | hlt
  · constructor
    · intro hlag
      refine ⟨rfl, fun hzero => ?_⟩
      rw [hzero, lag_zero] at hlag
      cases hlag
    · rintro ⟨-, hne⟩
      exact hcell.starts.resolve_left hne
  · obtain ⟨k, rfl⟩ : ∃ k, i = k + 1 := ⟨i - 1, by omega⟩
    rw [lag_succ, hcell.dStruct_iff h k (by omega) (by omega)]
    exact ⟨fun heq => by omega, fun heq => by omega⟩

theorem opens_iff (i : ℕ) (hlo : cell.lo ≤ i) (hi : i ≤ cell.bound) :
    marks.opens i = true ↔ i = cell.lo ∧ cell.lo ≠ 0 ∧ marks.quote cell.lo = true := by
  rw [opens, Bool.and_eq_true, hcell.lag_dStruct_iff h i hlo hi]
  constructor
  · rintro ⟨⟨rfl, hne⟩, hquote⟩
    exact ⟨rfl, hne, hquote⟩
  · rintro ⟨rfl, hne, hquote⟩
    exact ⟨⟨rfl, hne⟩, hquote⟩

theorem lag_opens_iff (i : ℕ) (hlo : cell.lo ≤ i) (hi : i ≤ cell.bound + 1) :
    lag marks.opens i = true ↔
      i = cell.lo + 1 ∧ cell.lo ≠ 0 ∧ marks.quote cell.lo = true := by
  rcases Nat.eq_or_lt_of_le hlo with rfl | hlt
  · refine ⟨fun hlag => ?_, fun heq => by omega⟩
    cases hzero : cell.lo with
    | zero =>
        rw [hzero, lag_zero] at hlag
        cases hlag
    | succ k =>
        have hboundary := hcell.starts.resolve_left (by omega)
        rw [hzero, lag_succ] at hlag hboundary
        rw [opens, Bool.and_eq_true, not_quote_of_dStruct h hboundary] at hlag
        cases hlag.2
  · obtain ⟨k, rfl⟩ : ∃ k, i = k + 1 := ⟨i - 1, by omega⟩
    rw [lag_succ, hcell.opens_iff h k (by omega) (by omega), Nat.add_right_cancel_iff]

theorem lo_lt_of_quote (hquote : marks.quote cell.lo = true) : cell.lo < cell.stop := by
  rcases Nat.eq_or_lt_of_le hcell.lo_le with heq | hlt
  · rw [hcell.not_quote h cell.lo heq.ge hcell.lo_le_bound] at hquote
    cases hquote
  · exact hlt

theorem begin_le : cell.lo ≤ marks.begin cell ∧ marks.begin cell ≤ cell.stop := by
  have hle := hcell.lo_le
  rw [begin]
  split_ifs with hopens
  · have hlt := hcell.lo_lt_of_quote h hopens.2
    omega
  · omega

/-- The scanner leaves out the begin of the text's first field. -/
theorem b_iff (i : ℕ) (hlo : cell.lo ≤ i) (hi : i ≤ cell.bound) :
    marks.b i = true ↔ i = marks.begin cell ∧ cell.lo ≠ 0 := by
  have hopens := hcell.opens_iff h i hlo hi
  rw [b, Bool.or_eq_true, Bool.and_eq_true, hcell.lag_dStruct_iff h i hlo hi,
    hcell.lag_opens_iff h i hlo (by omega), begin, Bool.not_eq_true', ← Bool.not_eq_true, hopens]
  by_cases hquote : cell.lo ≠ 0 ∧ marks.quote cell.lo = true
  · rw [if_pos hquote]
    constructor
    · rintro (⟨⟨rfl, hne⟩, hnot⟩ | ⟨rfl, hne, -⟩)
      · exact absurd ⟨rfl, hquote⟩ hnot
      · exact ⟨rfl, hne⟩
    · rintro ⟨rfl, hne⟩
      exact Or.inr ⟨rfl, hquote⟩
  · rw [if_neg hquote]
    constructor
    · rintro (⟨⟨rfl, hne⟩, -⟩ | ⟨-, hopened⟩)
      · exact ⟨rfl, hne⟩
      · exact absurd hopened hquote
    · rintro ⟨rfl, hne⟩
      exact Or.inl ⟨⟨rfl, hne⟩, fun hopened => hquote hopened.2⟩

theorem begin_le_fin : marks.begin cell ≤ marks.fin cell := by
  have hfin := hcell.fin_le h
  rw [begin]
  split_ifs with hopens
  · by_contra hlt
    have hlo := hcell.lo_lt_of_quote h hopens.2
    have hclosed : lag marks.closes cell.stop = true := by
      by_contra hnot
      rw [fin, if_neg hnot] at hlt
      omega
    rw [fin, if_pos hclosed] at hlt
    have hstop : cell.stop = cell.lo + 1 := by omega
    rw [hstop, lag_succ, closes, hcell.inQuotes_lo hopens.2] at hclosed
    simp at hclosed
  · exact hfin.2

/-- What is removed within a cell lies in its field. -/
theorem mem_field_of_r {doubledQuotes : Bool} (i : ℕ) (hlo : cell.lo ≤ i) (hi : i ≤ cell.bound)
    (hr : marks.r doubledQuotes i = true) : marks.begin cell ≤ i ∧ i < marks.fin cell := by
  rw [r, Bool.and_eq_true, Bool.and_eq_true, Bool.and_eq_true, Bool.not_eq_true',
    Bool.not_eq_true'] at hr
  obtain ⟨⟨⟨hquote, hopening⟩, hend⟩, -⟩ := hr
  have hlt : i < cell.stop := by
    by_contra hge
    rw [hcell.not_quote h i (by omega) hi] at hquote
    cases hquote
  have hne : i ≠ marks.fin cell := by
    intro heq
    rw [(hcell.e_iff h i hlo hi).mpr heq] at hend
    cases hend
  refine ⟨?_, ?_⟩
  · rw [begin]
    split_ifs with hopens
    · rcases Nat.eq_or_lt_of_le hlo with heq | hlt'
      · have hb : lead marks.b i = true := by
          have hstop := hcell.stop_le_bound
          rw [lead]
          refine (hcell.b_iff h (i + 1) (by omega) (by omega)).mpr ⟨?_, hopens.1⟩
          rw [begin, if_pos hopens, heq]
        rw [← heq, hcell.inQuotes_lo hopens.2, heq, hb] at hopening
        cases hopening
      · omega
    · exact hlo
  · have hfin := hcell.fin_le h
    rw [fin] at hne ⊢
    split_ifs at hne ⊢ with hcloses
    · omega
    · omega

/-- In its field, what the scanner does not remove is content. -/
theorem r_eq (doubledQuotes : Bool) (i : ℕ) (hlo : marks.begin cell ≤ i)
    (hi : i < marks.fin cell) : marks.r doubledQuotes i = !marks.keep doubledQuotes i := by
  have hbegin := hcell.begin_le h
  have hfin := hcell.fin_le h
  have hstop := hcell.stop_le_bound
  have he : marks.e i = false := by
    by_contra htrue
    have heq := (hcell.e_iff h i (by omega) (by omega)).mp (Bool.eq_true_of_not_eq_false htrue)
    omega
  have hb : lead marks.b i = false := by
    rw [lead]
    by_contra htrue
    have heq := (hcell.b_iff h (i + 1) (by omega) (by omega)).mp
      (Bool.eq_true_of_not_eq_false htrue)
    omega
  rw [r, keep, he, hb, lead]
  cases marks.quote i <;> simp

/-- The content of a cell lies in its field. -/
theorem mem_field_of_keep {doubledQuotes : Bool} (i : ℕ) (hlo : cell.lo ≤ i)
    (hi : i < cell.stop) (hkeep : marks.keep doubledQuotes i = true) :
    marks.begin cell ≤ i ∧ i < marks.fin cell := by
  have hstop := hcell.stop_le_bound
  constructor
  · rw [begin]
    split_ifs with hopens
    · rcases Nat.eq_or_lt_of_le hlo with heq | hlt
      · rw [keep, ← heq, hopens.2, hcell.inQuotes_lo hopens.2] at hkeep
        simp at hkeep
      · exact hlt
    · exact hlo
  · rw [fin]
    split_ifs with hcloses
    · rcases Nat.lt_or_ge i (cell.stop - 1) with hlt | hge
      · exact hlt
      · obtain ⟨k, hk⟩ : ∃ k, cell.stop = k + 1 := ⟨cell.stop - 1, by omega⟩
        have hlast : i = k := by omega
        have hnext := hcell.not_quote h cell.stop le_rfl hstop
        rw [hk, lag_succ, closes, Bool.and_eq_true, Bool.and_eq_true] at hcloses
        rw [hk] at hnext
        rw [hlast, keep, hcloses.1.1, hnext] at hkeep
        simp at hkeep
    · exact hi

theorem positions_keep (doubledQuotes : Bool) :
    positions (fun i => !marks.r doubledQuotes i) (marks.begin cell) (marks.fin cell) =
      positions (marks.keep doubledQuotes) cell.lo cell.stop := by
  have hbegin := hcell.begin_le h
  have hfin := hcell.fin_le h
  apply positions_eq (pairwise_positions _ _ _)
  intro i
  rw [mem_positions]
  constructor
  · rintro ⟨hrange, hkeep⟩
    obtain ⟨hlo, hi⟩ := hcell.mem_field_of_keep h i hrange.1 hrange.2 hkeep
    refine ⟨⟨hlo, hi⟩, ?_⟩
    rw [hcell.r_eq h doubledQuotes i hlo hi, hkeep]
    rfl
  · rintro ⟨⟨hlo, hi⟩, hkept⟩
    rw [hcell.r_eq h doubledQuotes i hlo hi, Bool.not_not] at hkept
    exact ⟨by omega, hkept⟩

end CellAt

/-! ## Chains of cells -/

/-- The place behind the cells. -/
def behind : ℕ → List Cell → ℕ
  | lo, [] => lo
  | _, cell :: cells => behind (cell.bound + 1) cells

@[simp] theorem behind_nil (lo : ℕ) : behind lo [] = lo := rfl

@[simp] theorem behind_cons (lo : ℕ) (cell : Cell) (cells : List Cell) :
    behind lo (cell :: cells) = behind (cell.bound + 1) cells := rfl

theorem behind_append (lo : ℕ) (front back : List Cell) :
    behind lo (front ++ back) = behind (behind lo front) back := by
  induction front generalizing lo with
  | nil => rfl
  | cons cell front ih => exact ih _

namespace Chain

variable {lo hi : ℕ} {cells front back : List Cell}

theorem starts (h : marks.Chain lo cells) : marks.Starts lo := by
  cases h with
  | nil hstarts _ => exact hstarts
  | cons hcell _ => exact hcell.starts

theorem stops_nil (h : marks.Chain lo []) (i : ℕ) (hi : lo ≤ i) : marks.stops i = false := by
  cases h with
  | nil _ hstops => exact hstops i hi

theorem append (h : marks.Chain lo (front ++ back)) : marks.Chain (behind lo front) back := by
  induction front generalizing lo with
  | nil => exact h
  | cons cell front ih =>
      cases h with
      | cons _ hrest => exact ih hrest

theorem le_behind (h : marks.Chain lo (front ++ back)) : lo ≤ behind lo front := by
  induction front generalizing lo with
  | nil => exact le_rfl
  | cons cell front ih =>
      cases h with
      | cons hcell hrest =>
          have hle := ih hrest
          have hbound := hcell.lo_le_bound
          rw [behind_cons]
          omega

theorem cellAt (h : marks.Chain lo cells) {cell : Cell} (hmem : cell ∈ cells) :
    marks.CellAt cell ∧ lo ≤ cell.lo := by
  induction h with
  | nil _ _ => cases hmem
  | cons hcell _ ih =>
      have hbound := hcell.lo_le_bound
      rcases List.mem_cons.mp hmem with rfl | hmem
      · exact ⟨hcell, le_rfl⟩
      · obtain ⟨hat, hle⟩ := ih hmem
        exact ⟨hat, by omega⟩

/-- The cells in front lie in front. -/
theorem bound_lt_behind (h : marks.Chain lo (front ++ back)) {cell : Cell}
    (hmem : cell ∈ front) : cell.bound < behind lo front := by
  induction front generalizing lo with
  | nil => cases hmem
  | cons head front ih =>
      cases h with
      | cons hcell hrest =>
          rcases List.mem_cons.mp hmem with rfl | hmem
          · exact hrest.le_behind
          · exact ih hrest hmem

/-- None of the cells has its place in front of them. -/
theorem takeWhile_eq_nil (h : marks.Chain lo cells) {place : Cell → ℕ}
    (hplace : ∀ cell, marks.CellAt cell → cell.lo ≤ place cell) (hle : hi ≤ lo) :
    cells.takeWhile (fun cell => decide (place cell < hi)) = [] := by
  cases h with
  | nil _ _ => rfl
  | cons hcell _ =>
      have hfar := hplace _ hcell
      rw [List.takeWhile_cons, decide_eq_false (by omega)]
      rfl

/-- A flag that marks one place in each cell, and none behind them. -/
theorem positions_eq {f : ℕ → Bool} {place : Cell → ℕ} (h : marks.Chain lo cells)
    (hplace : ∀ cell, marks.CellAt cell → (cell.lo ≤ place cell ∧ place cell ≤ cell.bound) ∧
      ∀ i, cell.lo ≤ i → i ≤ cell.bound → (f i = true ↔ i = place cell))
    (hbehind : ∀ lo, marks.Starts lo → (∀ i, lo ≤ i → marks.stops i = false) →
      ∀ i, lo ≤ i → f i = false) (hi : ℕ) :
    positions f lo hi = (cells.takeWhile fun cell => decide (place cell < hi)).map place := by
  induction h with
  | nil hstarts hstops =>
      exact positions_eq_nil fun i hlo _ => hbehind _ hstarts hstops i hlo
  | @cons cell cells hcell hrest ih =>
      obtain ⟨⟨hlo, hle⟩, hiff⟩ := hplace cell hcell
      rw [List.takeWhile_cons]
      by_cases hlt : place cell < hi
      · rw [decide_eq_true hlt, if_pos rfl, List.map_cons]
        by_cases hbound : cell.bound < hi
        · rw [← positions_append (Nat.le_succ_of_le hcell.lo_le_bound) hbound, ih,
            positions_eq_singleton hlo (Nat.lt_succ_of_le hle) fun i hlo hi =>
              hiff i hlo (Nat.le_of_lt_succ hi)]
          rfl
        · have hnone := hrest.takeWhile_eq_nil (fun cell hcell => (hplace cell hcell).1.1)
            (Nat.le_of_not_lt fun hlt => hbound (Nat.lt_of_succ_lt hlt))
          rw [hnone, positions_eq_singleton hlo hlt fun i hlo hi => hiff i hlo (by omega)]
          rfl
      · rw [decide_eq_false hlt, if_neg Bool.false_ne_true]
        refine positions_eq_nil fun i hlo hi => ?_
        by_contra hflag
        have heq := (hiff i hlo (by omega)).mp (Bool.eq_true_of_not_eq_false hflag)
        omega

variable (hproper : marks.Proper n)

include hproper

theorem bound_lt (h : marks.Chain lo cells) {cell : Cell} (hmem : cell ∈ cells) :
    cell.bound < n := by
  have hstruct := (h.cellAt hmem).1.dStruct_bound hproper
  by_contra hge
  obtain ⟨hdelim, hterm, -⟩ := hproper.past cell.bound (by omega)
  rw [dStruct, delimOoq, runEnd, termOoq, hdelim, hterm] at hstruct
  cases hstruct

/-- Behind the last cell nothing ends a field. -/
theorem nothing_behind (hstarts : marks.Starts lo) (hstops : ∀ i, lo ≤ i → marks.stops i = false)
    (i : ℕ) (hi : lo ≤ i) : marks.dStruct i = false ∧ marks.e i = false := by
  have hquiet := hstarts.quiet hproper hstops i hi
  constructor
  · rw [dStruct, hquiet.1, runEnd, hquiet.2]
    rfl
  · rw [e, closes, lead, hstops i hi, hstops (i + 1) (by omega)]
    simp

theorem positions_dStruct (h : marks.Chain lo cells) (hi : ℕ) :
    positions marks.dStruct lo hi =
      (cells.takeWhile fun cell => decide (cell.bound < hi)).map Cell.bound :=
  h.positions_eq (fun _ hcell => ⟨⟨hcell.lo_le_bound, le_rfl⟩, hcell.dStruct_iff hproper⟩)
    (fun _ hstarts hstops i hlo => (nothing_behind hproper hstarts hstops i hlo).1) hi

theorem positions_e (h : marks.Chain lo cells) (hi : ℕ) :
    positions marks.e lo hi =
      (cells.takeWhile fun cell => decide (marks.fin cell < hi)).map marks.fin :=
  h.positions_eq
    (fun _ hcell => ⟨⟨(hcell.fin_le hproper).2,
      le_trans (hcell.fin_le hproper).1 hcell.stop_le_bound⟩, hcell.e_iff hproper⟩)
    (fun _ hstarts hstops i hlo => (nothing_behind hproper hstarts hstops i hlo).2) hi

omit hproper

end Chain

/-- The begins from a field's first byte on.  The scanner leaves out the text's first. -/
def begins (marks : Marks) (lo hi : ℕ) : List ℕ :=
  if lo = 0 then 0 :: positions marks.b 0 hi else positions marks.b lo hi

section Begins

variable (hproper : marks.Proper n) {cell : Cell} (hcell : marks.CellAt cell) {hi : ℕ}

include hproper hcell

theorem begins_of_begin_lt (hlt : marks.begin cell < hi) (hle : hi ≤ cell.bound + 1) :
    marks.begins cell.lo hi = [marks.begin cell] := by
  rw [begins]
  split_ifs with hzero
  · have hnone : positions marks.b 0 hi = [] := by
      refine positions_eq_nil fun i _ hi => ?_
      by_contra hflag
      exact ((hcell.b_iff hproper i (by omega) (by omega)).mp
        (Bool.eq_true_of_not_eq_false hflag)).2 hzero
    rw [hnone, begin, if_neg (by rw [not_and]; exact fun hne => absurd hzero hne), hzero]
  · refine positions_eq_singleton (hcell.begin_le hproper).1 hlt fun i hlo hi => ?_
    rw [hcell.b_iff hproper i hlo (by omega)]
    exact ⟨And.left, fun heq => ⟨heq, hzero⟩⟩

theorem begins_of_bound_lt (hlt : cell.bound < hi) :
    marks.begins cell.lo hi = marks.begin cell :: marks.begins (cell.bound + 1) hi := by
  have hbegin := hcell.begin_le hproper
  have hstop := hcell.stop_le_bound
  have hlo := hcell.lo_le_bound
  have hfirst := begins_of_begin_lt hproper hcell (show marks.begin cell < cell.bound + 1 by omega)
    le_rfl
  have hnext : marks.begins (cell.bound + 1) hi = positions marks.b (cell.bound + 1) hi :=
    if_neg (Nat.succ_ne_zero _)
  rw [hnext]
  rw [begins] at hfirst ⊢
  split_ifs at hfirst ⊢ with hzero
  · rw [← positions_append (Nat.zero_le _) hlt, ← List.cons_append, hfirst]
    rfl
  · rw [← positions_append (show cell.lo ≤ cell.bound + 1 by omega) hlt, hfirst]
    rfl

end Begins

/-- Each field that has ended has begun. -/
theorem Chain.begins_eq (hproper : marks.Proper n) {lo : ℕ} {cells : List Cell}
    (h : marks.Chain lo cells) (hi : ℕ) :
    ∃ more, marks.begins lo hi =
      (cells.takeWhile fun cell => decide (marks.fin cell < hi)).map marks.begin ++ more := by
  induction h with
  | nil _ _ => exact ⟨_, rfl⟩
  | @cons cell cells hcell hrest ih =>
      have hbegin := hcell.begin_le_fin hproper
      rw [List.takeWhile_cons]
      by_cases hlt : marks.fin cell < hi
      · rw [decide_eq_true hlt, if_pos rfl]
        by_cases hbound : cell.bound < hi
        · obtain ⟨more, hmore⟩ := ih
          exact ⟨more, by rw [begins_of_bound_lt hproper hcell hbound, hmore]; rfl⟩
        · have hnone := hrest.takeWhile_eq_nil (fun cell hcell => (hcell.fin_le hproper).2)
            (Nat.le_of_not_lt fun hlt => hbound (Nat.lt_of_succ_lt hlt))
          exact ⟨[], by rw [hnone, begins_of_begin_lt hproper hcell (by omega) (by omega)]; rfl⟩
      · rw [decide_eq_false hlt]
        exact ⟨_, rfl⟩

/-- The begins of cells that have ended. -/
theorem Chain.begins_append (hproper : marks.Proper n) {lo : ℕ} {front back : List Cell}
    (h : marks.Chain lo (front ++ back)) {hi : ℕ} (hfront : ∀ cell ∈ front, cell.bound < hi) :
    marks.begins lo hi = front.map marks.begin ++ marks.begins (behind lo front) hi := by
  induction front generalizing lo with
  | nil => rfl
  | cons cell front ih =>
      rw [List.forall_mem_cons] at hfront
      cases h with
      | cons hcell hrest =>
          rw [begins_of_bound_lt hproper hcell hfront.1, ih hrest hfront.2]
          rfl

/-- A field that nothing ends begins once. -/
theorem Starts.begins_eq (hproper : marks.Proper n) {lo hi : ℕ} (hstarts : marks.Starts lo)
    (hstops : ∀ i, lo ≤ i → marks.stops i = false) (hlo : lo < hi)
    (hquote : marks.quote lo = true → lo + 1 < hi) :
    marks.begins lo hi = [if lo ≠ 0 ∧ marks.quote lo = true then lo + 1 else lo] := by
  have hnone : ∀ i, lo ≤ i → marks.dStruct i = false :=
    fun i hi => (Chain.nothing_behind hproper hstarts hstops i hi).1
  have hlater : ∀ i, lo ≤ i → marks.opens (i + 1) = false := by
    intro i hi
    rw [opens, lag_succ, hnone i hi, Bool.false_and]
  rw [begins]
  rcases Nat.eq_zero_or_pos lo with rfl | hpos
  · have hall : positions marks.b 0 hi = [] := by
      refine positions_eq_nil fun i _ _ => ?_
      rcases i with _ | _ | i
      · rfl
      · rw [b, lag_succ, hnone 0 le_rfl, Bool.false_and, lag_succ]
        rfl
      · rw [b, lag_succ, hnone _ (Nat.zero_le _), Bool.false_and, lag_succ,
          hlater _ (Nat.zero_le _)]
        rfl
    rw [if_pos rfl, hall, if_neg (fun h => absurd rfl h.1)]
  · have hfirst : lag marks.dStruct lo = true := hstarts.resolve_left (by omega)
    have hfront : lag marks.opens lo = false := by
      have hnot := hstarts.not_quote hproper
      obtain ⟨k, rfl⟩ : ∃ k, lo = k + 1 := ⟨lo - 1, by omega⟩
      rw [lag_succ] at hnot ⊢
      rw [opens, hnot, Bool.and_false]
    rw [if_neg (by omega)]
    have hplace : ∀ i, lo ≤ i → (marks.b i = true ↔
        i = if lo ≠ 0 ∧ marks.quote lo = true then lo + 1 else lo) := by
      intro i hi
      rcases Nat.eq_or_lt_of_le hi with rfl | hlt
      · rw [b, opens, hfirst, hfront]
        cases marks.quote lo <;> simp; omega
      · obtain ⟨k, rfl⟩ : ∃ k, i = k + 1 := ⟨i - 1, by omega⟩
        rw [b, lag_succ, hnone k (by omega), Bool.false_and, Bool.false_or, lag_succ]
        rcases Nat.eq_or_lt_of_le (show lo ≤ k by omega) with rfl | hlt'
        · rw [opens, hfirst, Bool.true_and]
          cases marks.quote lo <;> simp; omega
        · obtain ⟨l, rfl⟩ : ∃ l, k = l + 1 := ⟨k - 1, by omega⟩
          rw [hlater l (by omega)]
          split_ifs <;> simp <;> omega
    refine positions_eq_singleton ?_ ?_ fun i hi _ => hplace i hi
    · split_ifs <;> omega
    · split_ifs with hboth
      · exact hquote hboth.2
      · exact hlo

/-- Every text falls into cells. -/
theorem exists_chain (hproper : marks.Proper n) (lo : ℕ) (hstarts : marks.Starts lo) :
    ∃ cells, marks.Chain lo cells := by
  have hstopsPast : ∀ i, marks.stops i = true → i < n := by
    intro i hi
    by_contra hge
    obtain ⟨hdelim, hterm, -⟩ := hproper.past i (by omega)
    rw [stops, delimOoq, runStart, termOoq, hdelim, hterm] at hi
    cases hi
  induction hk : n + 1 - lo using Nat.strong_induction_on generalizing lo with
  | _ k ih =>
      by_cases hstop : ∃ i, lo ≤ i ∧ marks.stops i = true
      · have hspec := Nat.find_spec hstop
        have hmin : ∀ i, lo ≤ i → i < Nat.find hstop → marks.stops i = false := by
          intro i hlo hlt
          have hnot := Nat.find_min hstop hlt
          rw [not_and] at hnot
          exact Bool.eq_false_of_not_eq_true (hnot hlo)
        generalize Nat.find hstop = stop at hspec hmin
        obtain ⟨hlo, hstops⟩ := hspec
        have hlt := hstopsPast stop hstops
        suffices hcell : ∃ cell, marks.CellAt cell ∧ cell.lo = lo by
          obtain ⟨cell, hcell, rfl⟩ := hcell
          have hle := hcell.lo_le_bound
          obtain ⟨cells, hcells⟩ := ih _ (by omega) (cell.bound + 1) (hcell.starts_next hproper) rfl
          exact ⟨cell :: cells, .cons hcell hcells⟩
        rw [stops, Bool.or_eq_true] at hstops
        rcases hstops with hdelim | hrun
        · exact ⟨⟨lo, stop, stop, false⟩, {
            starts := hstarts
            lo_le := hlo
            before := hmin
            delim := fun _ => ⟨hdelim, rfl⟩
            term := fun hfalse => by cases hfalse }, rfl⟩
        · -- the run goes on as far as it can
          have hterm : marks.termOoq stop = true := by
            rw [runStart, Bool.and_eq_true] at hrun
            exact hrun.1
          have hends : ∃ i, stop ≤ i ∧ marks.termOoq (i + 1) = false := by
            refine ⟨n, by omega, ?_⟩
            rw [termOoq, (hproper.past (n + 1) (by omega)).2.1, Bool.false_and]
          have hspec := Nat.find_spec hends
          have hmin' : ∀ i, stop ≤ i → i < Nat.find hends → marks.termOoq (i + 1) = true := by
            intro i hlo hlt
            have hnot := Nat.find_min hends hlt
            rw [not_and] at hnot
            exact Bool.eq_true_of_not_eq_false (hnot hlo)
          generalize Nat.find hends = bound at hspec hmin'
          refine ⟨⟨lo, stop, bound, true⟩, {
            starts := hstarts
            lo_le := hlo
            before := hmin
            delim := fun hfalse => by cases hfalse
            term := fun _ => ⟨hspec.1, fun i hlo hi => ?_, hspec.2⟩ }, rfl⟩
          simp only at hlo hi
          rcases Nat.eq_or_lt_of_le hlo with rfl | hlt
          · exact hterm
          · obtain ⟨k, rfl⟩ : ∃ k, i = k + 1 := ⟨i - 1, by omega⟩
            exact hmin' k (by omega) (by omega)
      · refine ⟨[], .nil hstarts fun i hlo => ?_⟩
        by_contra hflag
        exact hstop ⟨i, hlo, Bool.eq_true_of_not_eq_false hflag⟩

end Marks

end Csveee.Simd
