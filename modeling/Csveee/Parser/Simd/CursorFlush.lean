import Csveee.Parser.Simd.CursorStepper
import Csveee.Parser.Simd.Drive
import Csveee.Parser.Simd.IndexFlush

/-!
# The cursor stepper's flush

Without quotes a field is the bytes in front of its boundary, or in front of the run that
ends its record.  The stepper keeps the boundaries only, and once it has seen a run of
several bytes it walks back over the run of each record.
-/

namespace Csveee.Simd

open Positions Slice

variable {σ : Type}

namespace Body

variable {body : Body σ} {origin lo upTo : ℕ} {cells rest front back : List Cell}

/-! ## Texts without quotes -/

section Unquoted

variable (hquote : body.config.quote = none)

include hquote

theorem quote_eq_false (i : ℕ) : body.marks.quote i = false := by
  rw [marks, marksOf_quote]
  cases h : body.ended[i]? with
  | none => rfl
  | some b => rw [Option.any_some, isQuote, hquote]; rfl

theorem not_inQuotes (i : ℕ) : body.marks.inQuotes i = false :=
  parity_of_none fun k _ => quote_eq_false hquote k

theorem termOoq_eq (i : ℕ) : body.marks.termOoq i = body.marks.term i := by
  rw [Marks.termOoq, not_inQuotes hquote, Bool.not_false, Bool.and_true]

/-- It never ends in quotes. -/
theorem closed_of_unquoted : closed body.config body.ended = true := by
  rw [closed, Bool.not_eq_true']
  cases h : body.ended.length with
  | zero => rfl
  | succ k => exact not_inQuotes hquote k

theorem removals_eq_nil : body.removals origin lo upTo = [] := by
  rw [removals, List.map_eq_nil_iff]
  refine positions_eq_nil fun i _ _ => ?_
  rw [Marks.r, quote_eq_false hquote]
  rfl

theorem beginAt_eq (cell : Cell) : body.beginAt origin cell = cell.lo - origin := by
  rw [beginAt, Marks.begin, quote_eq_false hquote,
    if_neg (fun h => absurd h.2 Bool.false_ne_true)]

theorem finAt_eq_stop (cell : Cell) :
    body.marks.fin cell = cell.stop ∧ body.finAt origin cell = cell.stop - origin := by
  have hnone : lag body.marks.closes cell.stop = false := by
    cases h : cell.stop with
    | zero => rfl
    | succ k => rw [lag_succ, Marks.closes, quote_eq_false hquote]; rfl
  have hfin : body.marks.fin cell = cell.stop := by
    rw [Marks.fin, hnone, if_neg Bool.false_ne_true]
  exact ⟨hfin, by rw [finAt, hfin]⟩

/-- What lies in a cell's bytes is its content. -/
theorem slice_eq_content {buf : Bytes} (hshows : body.Shows origin lo buf) {cell : Cell}
    (hat : body.marks.CellAt cell) (hlo : lo ≤ cell.lo)
    (hbuf : cell.stop ≤ origin + buf.length) :
    slice buf (cell.lo - origin) (cell.stop - cell.lo) =
      content body.config body.ended cell := by
  have horigin := hshows.origin_le
  have hcell := hat.lo_le
  obtain ⟨hfin, hfinAt⟩ := @finAt_eq_stop _ body origin hquote cell
  have hcut := cutBytes_eq_content hshows hat hlo
    (show body.marks.fin cell ≤ cell.stop from hfin.le) (by omega)
  rw [removals_eq_nil hquote, beginAt_eq hquote, hfinAt,
    cutBytes_of_none (by omega) fun _ _ _ => List.not_mem_nil] at hcut
  rw [← hcut]
  congr 1
  omega

/-- Back over the run of a record. -/
theorem stripRun_eq {buf : Bytes} (hshows : body.Shows origin lo buf) {cell : Cell}
    (hat : body.marks.CellAt cell) (hlo : lo ≤ cell.lo) (hlast : cell.last = true)
    (hbuf : cell.bound ≤ origin + buf.length) :
    stripRun body.config.isTerminator buf (cell.lo - origin) (cell.bound - origin) =
      cell.stop - origin := by
  have horigin := hshows.origin_le
  have hcell := hat.lo_le
  obtain ⟨hle, hrun, -⟩ := hat.term hlast
  suffices hpart : ∀ i, cell.stop ≤ i → i ≤ cell.bound →
      stripRun body.config.isTerminator buf (cell.lo - origin) (i - origin) =
        cell.stop - origin from hpart _ hle le_rfl
  intro i hi
  induction i, hi using Nat.le_induction with
  | base =>
      intro _
      rcases Nat.eq_zero_or_pos (cell.stop - origin) with hzero | hpos
      · rw [hzero, stripRun]
      · obtain ⟨k, hk⟩ : ∃ k, cell.stop - origin = k + 1 := ⟨cell.stop - origin - 1, by omega⟩
        rw [hk, stripRun, if_neg]
        rintro ⟨hstart, hterm⟩
        have hthere := hshows.term (i := cell.stop - 1) (by omega) (by omega)
        have hquiet := (hat.quiet body.proper (cell.stop - 1) (by omega) (by omega)).2
        rw [show cell.stop - 1 - origin = k by omega, hterm, ← termOoq_eq hquote, hquiet] at hthere
        cases hthere
  | succ i hi ih =>
      intro hbound
      have hthere := hshows.term (i := i) (by omega) (by omega)
      rw [← termOoq_eq hquote, hrun i hi (by omega)] at hthere
      rw [show i + 1 - origin = i - origin + 1 by omega, stripRun,
        if_pos ⟨by omega, hthere⟩, ih (by omega)]

end Unquoted

/-! ## Records at their boundaries -/

/-- The offset of a cell's boundary, in a buffer that starts at `origin`. -/
def boundAt (origin : ℕ) (cell : Cell) : ℕ := cell.bound - origin

theorem boundSpans_eq {marks : Marks} (hchain : marks.Chain lo (cells ++ back))
    (horigin : origin ≤ lo) : boundSpans (lo - origin) (cells.map (boundAt origin)) =
      (cells.map fun cell => (cell.lo - origin, cell.bound - cell.lo),
        Marks.behind lo cells - origin) := by
  induction cells generalizing lo with
  | nil => rfl
  | cons cell cells ih =>
      cases hchain with
      | cons hcell hrest =>
          have hbound := hcell.lo_le_bound
          have hnext := ih hrest (by omega)
          rw [List.map_cons, boundSpans, boundAt,
            show cell.bound - origin + 1 = cell.bound + 1 - origin by omega, hnext,
            show cell.bound - origin - (cell.lo - origin) = cell.bound - cell.lo by omega]
          rfl

/-- Where the fields of a row lie. -/
def spansAt (origin : ℕ) (row : Row body.n) : List (ℕ × ℕ) :=
  row.cells.map fun cell => (cell.lo - origin, cell.stop - cell.lo)

section Rows

variable {row : Row body.n} {buf : Bytes} (hquote : body.config.quote = none)
  (hchain : body.marks.Chain lo (row.cells ++ back)) (hshows : body.Shows origin lo buf)
  (hbuf : row.final.bound ≤ origin + buf.length)

include hchain

theorem row_cells {cell : Cell} (hcell : cell ∈ row.cells) :
    body.marks.CellAt cell ∧ lo ≤ cell.lo ∧ cell.stop ≤ row.final.stop := by
  obtain ⟨hat, hlo⟩ := hchain.cellAt (List.mem_append_left back hcell)
  refine ⟨hat, hlo, ?_⟩
  rcases List.mem_append.mp hcell with hinit | hfinal
  · rw [Row.cells, List.append_assoc] at hchain
    have hbound := hchain.bound_lt_behind hinit
    obtain ⟨hat', hlo'⟩ := hchain.append.cellAt (show row.final ∈ [row.final] ++ back by simp)
    have hstop := hat.stop_le_bound
    have hfinal := hat'.lo_le
    omega
  · rw [List.mem_singleton.mp hfinal]

theorem spans_of_stripped (horigin : origin ≤ lo) :
    row.init.map (fun cell => (cell.lo - origin, cell.bound - cell.lo)) ++
        [(Marks.behind lo row.init - origin,
          row.final.stop - origin - (Marks.behind lo row.init - origin))] =
      spansAt origin row := by
  have hinit : row.init.map (fun cell => (cell.lo - origin, cell.bound - cell.lo)) =
      row.init.map fun cell => (cell.lo - origin, cell.stop - cell.lo) := by
    apply List.map_congr_left
    intro cell hcell
    obtain ⟨hat, -, -⟩ := row_cells hchain (List.mem_append_left _ hcell)
    rw [(hat.delim (row.delims cell hcell)).2]
  have hplace : Marks.behind lo row.init = row.final.lo := by
    rw [Row.cells, List.append_assoc] at hchain
    have hback := hchain.append
    generalize Marks.behind lo row.init = place at hback
    cases hback with
    | cons => rfl
  obtain ⟨-, hlo, -⟩ := row_cells hchain row.final_mem
  rw [hinit, hplace, spansAt, Row.cells, List.map_append, List.map_singleton,
    show row.final.stop - origin - (row.final.lo - origin) = row.final.stop - row.final.lo by
      omega]

theorem spans_of_plain (hplain : row.final.stop = row.final.bound) :
    row.cells.map (fun cell => (cell.lo - origin, cell.bound - cell.lo)) = spansAt origin row := by
  apply List.map_congr_left
  intro cell hcell
  obtain ⟨hat, -, -⟩ := row_cells hchain hcell
  rcases List.mem_append.mp hcell with hinit | hfinal
  · rw [(hat.delim (row.delims cell hinit)).2]
  · rw [List.mem_singleton.mp hfinal, hplain]

include hquote hshows hbuf

/-- One record, handed out. -/
theorem emitRecord_row (state : σ) :
    ∃ buf', Edited buf buf' 0 (row.final.bound - origin) ∧
      emitRecord body.acc buf (spansAt origin row) state =
        (buf', (body.acc state (body.recordOf row)).state,
          (body.acc state (body.recordOf row)).result) := by
  have horigin := hshows.origin_le
  have hstop := (row_cells hchain row.final_mem).1.stop_le_bound
  obtain ⟨buf', hedited, hemit⟩ := @emitRecord_spec _ body.acc (row.final.bound - origin) buf
    (spansAt origin row) state (by
      intro span hspan
      obtain ⟨cell, hcell, rfl⟩ := List.mem_map.mp hspan
      obtain ⟨hat, hlo, hle⟩ := row_cells hchain hcell
      have hcell := hat.lo_le
      simp only
      omega) (by omega)
  have hrecord : (spansAt origin row).map (fun span => slice buf span.1 span.2) =
      body.recordOf row := by
    rw [spansAt, List.map_map, recordOf]
    apply List.map_congr_left
    intro cell hcell
    obtain ⟨hat, hlo, hle⟩ := row_cells hchain hcell
    exact slice_eq_content hquote hshows hat hlo (by omega)
  rw [hrecord] at hemit
  exact ⟨buf', hedited, hemit⟩

end Rows

/-! ## The loops of `emit_records` -/

/-- The place behind the rows, and where the run of the last of them starts. -/
def emitted (origin lo lastRunStart : ℕ) (rows : List (Row body.n)) : ℕ × ℕ :=
  (Marks.behind lo (rows.flatMap Row.cells) - origin,
    (rows.getLast?.map fun row => row.final.stop - origin).getD lastRunStart)

theorem emitted_cons (origin lo lastRunStart : ℕ) (row : Row body.n) (rows : List (Row body.n)) :
    emitted origin lo lastRunStart (row :: rows) =
      emitted origin (row.final.bound + 1) (row.final.stop - origin) rows := by
  have hbehind : Marks.behind lo (row.cells ++ rows.flatMap Row.cells) =
      Marks.behind (row.final.bound + 1) (rows.flatMap Row.cells) := by
    rw [Marks.behind_append, Row.cells, Marks.behind_append]
    rfl
  rw [emitted, emitted, List.flatMap_cons, hbehind, List.getLast?_cons]
  cases rows.getLast? <;> rfl

/-- What the loops come to. -/
def loopOutcome (place : ℕ × ℕ) :
    σ × Except Error Unit → σ × Except Error (ℕ × ℕ)
  | (state, .error err) => (state, .error err)
  | (state, .ok ()) => (state, .ok place)

section Loops

variable (hquote : body.config.quote = none) {rows : List (Row body.n)} {buf : Bytes}

theorem chain_cons {row : Row body.n}
    (hchain : body.marks.Chain lo ((row :: rows).flatMap Row.cells ++ back)) :
    body.marks.Chain lo (row.cells ++ (rows.flatMap Row.cells ++ back)) ∧
      body.marks.Chain (row.final.bound + 1) (rows.flatMap Row.cells ++ back) ∧
        lo ≤ row.final.bound := by
  rw [List.flatMap_cons, List.append_assoc] at hchain
  have hback := hchain.append
  have hbehind := @behind_rows _ body lo [] row
  rw [List.nil_append, List.flatMap_singleton] at hbehind
  rw [hbehind] at hback
  obtain ⟨hat, hlo, -⟩ := row_cells hchain row.final_mem
  have hbound := hat.lo_le_bound
  exact ⟨hchain, hback, by omega⟩

include hquote

theorem emitStripped_spec (rows : List (Row body.n)) (more : List ℕ) (lastRunStart : ℕ)
    (hchain : body.marks.Chain lo (rows.flatMap Row.cells ++ back))
    (hshows : body.Shows origin lo buf)
    (hbuf : ∀ row ∈ rows, row.final.bound ≤ origin + buf.length) (state : σ) :
    ∃ buf', Edited buf buf' 0 (Marks.behind lo (rows.flatMap Row.cells) - 1 - origin) ∧
      SimdCursorStepper.emitStripped body.acc body.config.isTerminator body.n rows.length buf
          ((rows.flatMap Row.cells).map (boundAt origin) ++ more) (lo - origin) lastRunStart
          state =
        (buf', loopOutcome (emitted origin lo lastRunStart rows)
          (emitRows body.acc (rows.map body.recordOf) state)) := by
  induction rows generalizing lo buf lastRunStart state with
  | nil => exact ⟨buf, .refl _ _ _, rfl⟩
  | cons row rows ih =>
      rw [List.forall_mem_cons] at hbuf
      obtain ⟨hthis, hnext, hlo⟩ := chain_cons hchain
      have horigin := hshows.origin_le
      have hlength := row.length
      obtain ⟨hat, hloCell, -⟩ := row_cells hthis row.final_mem
      have hrest := hnext.le_behind
      obtain ⟨buf₁, hedited₁, hemit⟩ := emitRecord_row hquote hthis hshows hbuf.1 state
      -- the bounds of the row's fields
      have hbounds : ((row :: rows).flatMap Row.cells).map (boundAt origin) ++ more =
          row.init.map (boundAt origin) ++ boundAt origin row.final ::
            ((rows.flatMap Row.cells).map (boundAt origin) ++ more) := by
        rw [List.flatMap_cons, Row.cells]
        simp only [List.map_append, List.map_cons, List.append_assoc, List.cons_append]
        rfl
      have hinit : (row.init.map (boundAt origin)).length = body.n - 1 := by
        rw [List.length_map]
        omega
      have hspans := @boundSpans_eq _ _ row.init ([row.final] ++
        (rows.flatMap Row.cells ++ back)) _ (by
          rw [Row.cells, List.append_assoc] at hthis
          exact hthis) horigin
      have hplace : Marks.behind lo row.init = row.final.lo := by
        rw [Row.cells, List.append_assoc] at hthis
        have hback := hthis.append
        generalize Marks.behind lo row.init = place at hback
        cases hback with
        | cons => rfl
      have hstrip := stripRun_eq hquote hshows hat hloCell row.term hbuf.1
      have htake : (((row :: rows).flatMap Row.cells).map (boundAt origin) ++ more).take
          (body.n - 1) = row.init.map (boundAt origin) := by
        rw [hbounds, ← hinit, List.take_left]
      have hget : (((row :: rows).flatMap Row.cells).map (boundAt origin) ++ more).getD
          (body.n - 1) 0 = row.final.bound - origin := by
        rw [hbounds, ← hinit, List.getD_append_right _ _ _ _ le_rfl, Nat.sub_self]
        rfl
      have hdrop : (((row :: rows).flatMap Row.cells).map (boundAt origin) ++ more).drop body.n =
          (rows.flatMap Row.cells).map (boundAt origin) ++ more := by
        rw [List.flatMap_cons, List.map_append, List.append_assoc, List.drop_left']
        rw [List.length_map, row.length_cells]
      have hfields := spans_of_stripped hthis horigin
      have hbehind : Marks.behind lo row.cells = row.final.bound + 1 := by
        rw [Row.cells, Marks.behind_append]
        rfl
      rw [hplace] at hfields hspans
      rw [List.length_cons, SimdCursorStepper.emitStripped]
      simp only [htake, hget, hdrop, hspans, hstrip, hfields, hemit]
      rw [List.map_cons, emitRows]
      cases (body.acc state (body.recordOf row)).result with
      | error err =>
          refine ⟨buf₁, hedited₁.mono le_rfl ?_, rfl⟩
          rw [List.flatMap_cons, Marks.behind_append, hbehind]
          omega
      | ok =>
          have hshows₁ := hshows.edited hedited₁ (show lo ≤ row.final.bound + 1 by omega)
            (by omega)
          obtain ⟨buf₂, hedited₂, hloop⟩ := ih (row.final.stop - origin) hnext hshows₁
            (fun other hother => by
              rw [hedited₁.length]
              exact hbuf.2 other hother) (body.acc state (body.recordOf row)).state
          rw [show row.final.bound + 1 - origin = row.final.bound - origin + 1 by omega] at hloop
          simp only [hloop]
          rw [emitted_cons]
          refine ⟨buf₂, ?_, rfl⟩
          rw [List.flatMap_cons, Marks.behind_append, hbehind]
          exact (hedited₁.mono le_rfl (by omega)).trans hedited₂

theorem emitPlain_spec (rows : List (Row body.n)) (more : List ℕ)
    (hchain : body.marks.Chain lo (rows.flatMap Row.cells ++ back))
    (hshows : body.Shows origin lo buf)
    (hbuf : ∀ row ∈ rows, row.final.bound ≤ origin + buf.length)
    (hplain : ∀ row ∈ rows, row.final.stop = row.final.bound) (state : σ) :
    ∃ buf', Edited buf buf' 0 (Marks.behind lo (rows.flatMap Row.cells) - 1 - origin) ∧
      SimdCursorStepper.emitPlain body.acc body.n rows.length buf
          ((rows.flatMap Row.cells).map (boundAt origin) ++ more) (lo - origin) state =
        (buf', loopOutcome (emitted origin lo (lo - origin - 1) rows)
          (emitRows body.acc (rows.map body.recordOf) state)) := by
  induction rows generalizing lo buf state with
  | nil => exact ⟨buf, .refl _ _ _, rfl⟩
  | cons row rows ih =>
      rw [List.forall_mem_cons] at hbuf hplain
      obtain ⟨hthis, hnext, hlo⟩ := chain_cons hchain
      have horigin := hshows.origin_le
      have hrest := hnext.le_behind
      obtain ⟨buf₁, hedited₁, hemit⟩ := emitRecord_row hquote hthis hshows hbuf.1 state
      have htake : (((row :: rows).flatMap Row.cells).map (boundAt origin) ++ more).take body.n =
          row.cells.map (boundAt origin) := by
        rw [List.flatMap_cons, List.map_append, List.append_assoc, List.take_left']
        rw [List.length_map, row.length_cells]
      have hdrop : (((row :: rows).flatMap Row.cells).map (boundAt origin) ++ more).drop body.n =
          (rows.flatMap Row.cells).map (boundAt origin) ++ more := by
        rw [List.flatMap_cons, List.map_append, List.append_assoc, List.drop_left']
        rw [List.length_map, row.length_cells]
      have hbehind : Marks.behind lo row.cells = row.final.bound + 1 := by
        rw [Row.cells, Marks.behind_append]
        rfl
      rw [List.length_cons, SimdCursorStepper.emitPlain]
      simp only [htake, hdrop, boundSpans_eq hthis horigin, spans_of_plain hthis hplain.1, hbehind,
        hemit]
      rw [List.map_cons, emitRows]
      cases (body.acc state (body.recordOf row)).result with
      | error err =>
          refine ⟨buf₁, hedited₁.mono le_rfl ?_, rfl⟩
          rw [List.flatMap_cons, Marks.behind_append, hbehind]
          omega
      | ok =>
          have hshows₁ := hshows.edited hedited₁ (show lo ≤ row.final.bound + 1 by omega)
            (by omega)
          obtain ⟨buf₂, hedited₂, hloop⟩ := ih hnext hshows₁
            (fun other hother => by
              rw [hedited₁.length]
              exact hbuf.2 other hother) hplain.2 (body.acc state (body.recordOf row)).state
          simp only [hloop]
          rw [emitted_cons, hplain.1,
            show row.final.bound + 1 - origin - 1 = row.final.bound - origin by omega]
          refine ⟨buf₂, ?_, rfl⟩
          rw [List.flatMap_cons, Marks.behind_append, hbehind]
          exact (hedited₁.mono le_rfl (by omega)).trans hedited₂

end Loops

/-! ## The records at hand -/

/-- The cells whose boundary lies in front of `upTo`. -/
def bounded (upTo : ℕ) (cells : List Cell) : List Cell :=
  cells.takeWhile fun cell => decide (cell.bound < upTo)

/-- What waits for a flush: the boundaries in front of `upTo`, verified. -/
structure Queued (body : Body σ) (origin lo upTo : ℕ) (rest : List Cell)
    (w : Flush SimdCursorStepper σ) : Prop where
  delim : w.st.delim = body.config.delimiter
  terms : w.st.termA = body.config.terminator.bytes.1 ∧
    w.st.termB = body.config.terminator.bytes.2
  count : w.st.fieldCounter.n = body.n
  start : lo = origin + w.st.cellStart
  shows : body.Shows origin lo w.buf
  handed : body.At lo rest w.st.lastRecordEnd w.state
  head_le : w.head ≤ w.st.bounds.length
  bounds : w.st.bounds.drop w.head = (bounded upTo rest).map (boundAt origin)
  /-- No run has more than one byte, unless one was seen. -/
  runs : w.st.hasRuns = false → ∀ i < upTo, body.marks.term i = true →
    body.marks.runEnd i = true
  lo_le : lo ≤ upTo
  phase : phaseAfter body.n 0 ((bounded upTo rest).map Cell.last) =
    some w.st.fieldCounter.phase

section Queues

variable {w : Flush SimdCursorStepper σ} {init : List (Row body.n)} {row : Row body.n}

theorem Queued.isTerm_eq (h : body.Queued origin lo upTo rest w) :
    w.st.isTerm = body.config.isTerminator := by
  funext c
  rw [SimdCursorStepper.isTerm, h.terms.1, h.terms.2]
  rfl

theorem bound_le_of_rows
    (hchain : body.marks.Chain lo ((init ++ [row]).flatMap Row.cells ++ back))
    {cell : Cell} (hcell : cell ∈ (init ++ [row]).flatMap Row.cells) :
    cell.bound ≤ row.final.bound := by
  have hlt := hchain.bound_lt_behind hcell
  rw [behind_rows] at hlt
  omega

theorem bounded_rows
    (hchain : body.marks.Chain lo ((init ++ [row]).flatMap Row.cells ++ back))
    (hbound : row.final.bound < upTo) :
    bounded upTo ((init ++ [row]).flatMap Row.cells ++ back) =
      (init ++ [row]).flatMap Row.cells ++ bounded upTo back :=
  List.takeWhile_append_of_pos fun _ hcell =>
    decide_eq_true (lt_of_le_of_lt (bound_le_of_rows hchain hcell) hbound)

theorem Queued.stop_eq (h : body.Queued origin lo upTo rest w)
    (hruns : w.st.hasRuns = false) (hquote : body.config.quote = none) {cell : Cell}
    (hat : body.marks.CellAt cell) (hlast : cell.last = true) (hbound : cell.bound < upTo) :
    cell.stop = cell.bound := by
  obtain ⟨hle, hrun, -⟩ := hat.term hlast
  have hterm := hrun cell.stop le_rfl hle
  have hend := h.runs hruns cell.stop (by omega) (by rw [← termOoq_eq hquote, hterm])
  by_contra hne
  have hnext := hrun (cell.stop + 1) (by omega) (by omega)
  rw [Marks.runEnd, lead, hnext, Bool.not_true, Bool.and_false] at hend
  cases hend

theorem Queued.emitRecords_eq
    (h : body.Queued origin lo upTo ((init ++ [row]).flatMap Row.cells ++ back) w)
    (hquote : body.config.quote = none) (hbound : row.final.bound < upTo)
    (hbuf : row.final.bound ≤ origin + w.buf.length) :
    ∃ buf', Edited w.buf buf' 0 (row.final.bound - origin) ∧
      SimdCursorStepper.emitRecords body.acc w (init.length + 1) =
        (buf', loopOutcome (row.final.bound + 1 - origin, row.final.stop - origin)
          (emitRows body.acc ((init ++ [row]).map body.recordOf) w.state)) := by
  have hchain := h.handed.chain
  have hcount : (init ++ [row]).length = init.length + 1 := by
    rw [List.length_append, List.length_singleton]
  have hplace : ∀ lastRunStart, emitted origin lo lastRunStart (init ++ [row]) =
      (row.final.bound + 1 - origin, row.final.stop - origin) := by
    intro lastRunStart
    rw [emitted, behind_rows, List.getLast?_append_of_ne_nil _ (List.cons_ne_nil _ _)]
    rfl
  have hhi : Marks.behind lo ((init ++ [row]).flatMap Row.cells) - 1 - origin =
      row.final.bound - origin := by
    rw [behind_rows, Nat.add_sub_cancel]
  have hstart : w.st.cellStart = lo - origin := by
    have hstart := h.start
    omega
  have hrows : ∀ other ∈ init ++ [row], other.final ∈ (init ++ [row]).flatMap Row.cells :=
    fun other hother => List.mem_flatMap_of_mem hother other.final_mem
  have hbufs : ∀ other ∈ init ++ [row], other.final.bound ≤ origin + w.buf.length :=
    fun other hother => le_trans (bound_le_of_rows hchain (hrows other hother)) hbuf
  rw [SimdCursorStepper.emitRecords]
  simp only [h.count, h.bounds, bounded_rows hchain hbound, h.isTerm_eq, hstart]
  rw [List.map_append, ← hcount]
  cases hruns : w.st.hasRuns with
  | true =>
      obtain ⟨buf', hedited, hemit⟩ := emitStripped_spec hquote (init ++ [row])
        ((bounded upTo back).map (boundAt origin)) (lo - origin) hchain h.shows hbufs w.state
      rw [hplace] at hemit
      rw [hhi] at hedited
      exact ⟨buf', hedited, hemit⟩
  | false =>
      have hplain : ∀ other ∈ init ++ [row], other.final.stop = other.final.bound := by
        intro other hother
        obtain ⟨hat, -⟩ := hchain.cellAt (List.mem_append_left back (hrows other hother))
        exact h.stop_eq hruns hquote hat other.term
          (lt_of_le_of_lt (bound_le_of_rows hchain (hrows other hother)) hbound)
      obtain ⟨buf', hedited, hemit⟩ := emitPlain_spec hquote (init ++ [row])
        ((bounded upTo back).map (boundAt origin)) hchain h.shows hbufs hplain w.state
      rw [hplace] at hemit
      rw [hhi] at hedited
      exact ⟨buf', hedited, hemit⟩

/-- The stepper behind the records handed out. -/
def movedTo (w : Flush SimdCursorStepper σ) (buf : Bytes) (state : σ)
    (cellStart end_ fields : ℕ) : Flush SimdCursorStepper σ :=
  { w with
    st := { w.st with cellStart := cellStart, lastRecordEnd := some end_ }
    buf := buf
    head := w.head + fields
    state := state }

/-- The records up to a last one: the chunk ends there, or the next are at hand. -/
theorem Queued.handOut
    (h : body.Queued origin lo upTo ((init ++ [row]).flatMap Row.cells ++ back) w)
    (hquote : body.config.quote = none) (hbound : row.final.bound < upTo)
    (hbuf : row.final.bound ≤ origin + w.buf.length) {v : ℕ} (hvalid : body.valid v)
    (hv : v ≤ body.text.length) (hwithin : row.final.stop ≤ v)
    (hbefore : ∀ other ∈ init, body.base + other.final.bound < body.chunkEnd) :
    match SimdCursorStepper.emitRecords body.acc w (init.length + 1) with
      | (_, state, .error err) => body.kept state ∧ ∀ walk, body.Blames walk state err
      | (buf, state, .ok place) =>
          place = (row.final.bound + 1 - origin, row.final.stop - origin) ∧
            buf.length = w.buf.length ∧ body.kept state ∧
            (body.chunkEnd ≤ body.base + row.final.bound → body.outcome body.chunkEnd =
              (state, .ok (some (max body.chunkEnd (body.base + row.final.stop))))) ∧
            (body.base + row.final.bound < body.chunkEnd →
              body.Queued origin (row.final.bound + 1) upTo back (movedTo w buf state
                (row.final.bound + 1 - origin) (body.base + row.final.stop)
                ((init.length + 1) * body.n))) := by
  have hchain := h.handed.chain
  have horigin := h.shows.origin_le
  have hfinal : row.final ∈ (init ++ [row]).flatMap Row.cells :=
    List.mem_flatMap_of_mem (List.mem_append_right init List.mem_cons_self) row.final_mem
  obtain ⟨hat, hle⟩ := hchain.cellAt (List.mem_append_left back hfinal)
  have hcell := hat.lo_le_bound
  have hcount : (init ++ [row]).length = init.length + 1 := by
    rw [List.length_append, List.length_singleton]
  have hrows : body.Within v (init ++ [row]) := by
    intro other hother cell hcell
    have hmem := List.mem_flatMap_of_mem hother hcell
    rw [flatMap_cells] at hchain
    have hsplit := flatMap_cells init row []
    rw [List.append_nil] at hsplit
    have hlast := fin_le_last hchain (hsplit ▸ hmem)
    have hfin := (hat.fin_le body.proper).1
    omega
  have hkept := kept_emitRows hvalid hv _ hrows h.handed.sub_rows h.handed.kept
  obtain ⟨buf', hedited, hemit⟩ := h.emitRecords_eq hquote hbound hbuf
  rw [hemit]
  cases hresult : emitRows body.acc ((init ++ [row]).map body.recordOf) w.state with
  | mk state result =>
      rw [hresult] at hkept
      cases result with
      | error err =>
          exact ⟨hkept,
            fun _ => .rejected (h.handed.reject hresult) (rejects_of_emitRows _ hresult)⟩
      | ok =>
          refine ⟨rfl, hedited.length, hkept, fun hpast => h.handed.stop hbefore hpast hresult,
            fun hbefore' => ?_⟩
          have hhanded := h.handed.emit hvalid hv hrows (fun other hother => by
            rcases List.mem_append.mp hother with hinit | hlast
            · exact hbefore other hinit
            · rw [List.mem_singleton.mp hlast]
              exact hbefore') hresult
          rw [behind_rows, endOf, List.getLast?_append_of_ne_nil _ (List.cons_ne_nil _ _)]
            at hhanded
          have hbounds := h.bounds
          have hphase := h.phase
          rw [bounded_rows hchain hbound, List.map_append] at hbounds hphase
          rw [Row.phaseAfter_flatMap body.n_pos.1] at hphase
          exact {
            delim := h.delim
            terms := h.terms
            count := h.count
            start := by
              simp only [movedTo]
              omega
            shows := h.shows.edited hedited (by omega) (by omega)
            handed := hhanded
            head_le := by
              have hlength := congrArg List.length hbounds
              rw [List.length_drop, List.length_append, List.length_map, Row.length_flatMap,
                hcount] at hlength
              have hhead := h.head_le
              simp only [movedTo]
              have hpos : 1 ≤ (init.length + 1) * body.n :=
                Nat.mul_pos (Nat.succ_pos _) body.n_pos.1
              omega
            bounds := by
              simp only [movedTo]
              rw [← List.drop_drop, hbounds, List.drop_left']
              rw [List.length_map, Row.length_flatMap, hcount]
            runs := h.runs
            lo_le := hbound
            phase := hphase }

/-! ## The flush -/

variable {ctx : StepCtx}

/-- What a flush leaves as it is. -/
structure SameQueue (w w' : Flush SimdCursorStepper σ) : Prop where
  st : w'.st = { w.st with
    cellStart := w'.st.cellStart
    lastRecordEnd := w'.st.lastRecordEnd
    bounds := w'.st.bounds
    hasRuns := w'.st.hasRuns
    fieldCounter := w'.st.fieldCounter }
  length : w'.buf.length = w.buf.length

theorem SameQueue.refl (w : Flush SimdCursorStepper σ) : SameQueue w w := ⟨rfl, rfl⟩

/-- How many of the records at hand a flush hands out, and whether the chunk ends there. -/
def flushPlan (remaining : ℕ) (w : Flush SimdCursorStepper σ) : ℕ × Bool :=
  let n := w.st.fieldCounter.n
  let avail := (w.st.bounds.length - w.head) / n
  let endsBeforeBoundary (records : ℕ) : Bool :=
    decide (w.st.bounds.getD (w.head + records * n - 1) 0 < remaining)
  if remaining = 0 then (1, true)
  else if endsBeforeBoundary avail then (avail, false)
  else (recordsBefore endsBeforeBoundary avail 0 + 1, true)

/-- What a flush makes of the records handed out. -/
def flushed (remaining totalConsumed : ℕ) (w : Flush SimdCursorStepper σ) (plan : ℕ × Bool) :
    Bytes × σ × Except Error (ℕ × ℕ) → Flush SimdCursorStepper σ × Except Error (Option ℕ)
  | (buf, state, .error err) => ({ w with buf := buf, state := state }, .error err)
  | (buf, state, .ok (cs, lastRunStart)) =>
      let end_ := totalConsumed + handoff lastRunStart remaining plan.2
      (movedTo w buf state cs end_ (plan.1 * w.st.fieldCounter.n),
        .ok (if plan.2 then some end_ else none))

theorem flush_eq (acc : Accumulator σ) (remaining totalConsumed : ℕ)
    (w : Flush SimdCursorStepper σ) :
    SimdCursorStepper.flush acc remaining totalConsumed w =
      if (w.st.bounds.length - w.head) / w.st.fieldCounter.n = 0 then (w, .ok none)
      else flushed remaining totalConsumed w (flushPlan remaining w)
        (SimdCursorStepper.emitRecords acc w (flushPlan remaining w).1) := by
  obtain ⟨⟨count, stop⟩, hplan⟩ : ∃ plan, flushPlan remaining w = plan := ⟨_, rfl⟩
  have hplan' := hplan
  rw [flushPlan] at hplan'
  simp only at hplan'
  rw [SimdCursorStepper.flush]
  simp only [hplan, hplan']
  by_cases havail : (w.st.bounds.length - w.head) / w.st.fieldCounter.n = 0
  · rw [if_pos havail, if_pos havail]
  · rw [if_neg havail, if_neg havail]
    obtain ⟨buf, state, err | place⟩ := SimdCursorStepper.emitRecords acc w count <;> rfl

/-- The records at hand. -/
theorem Queued.rows (h : body.Queued origin lo upTo rest w) {count : ℕ}
    (hcount : count * body.n ≤ (bounded upTo rest).length) :
    ∃ (rows : List (Row body.n)) (more : List Cell), rows.length = count ∧
      bounded upTo rest = rows.flatMap Row.cells ++ more := by
  have hn := body.n_pos
  refine Row.exists_rows hn.1 count _ fun i hi => ?_
  have hlt : i < (bounded upTo rest).length := by omega
  refine ⟨_, List.getElem?_eq_getElem hlt, ?_⟩
  have hkind := ((phaseAfter_eq_some (by omega) _ _).mp h.phase).1 i
    (bounded upTo rest)[i].last (by
      rw [List.getElem?_map, List.getElem?_eq_getElem hlt]
      rfl)
  rwa [Nat.add_zero] at hkind

theorem Queued.length_bounds (h : body.Queued origin lo upTo rest w) :
    w.st.bounds.length - w.head = (bounded upTo rest).length := by
  have hlength := congrArg List.length h.bounds
  rwa [List.length_drop, List.length_map] at hlength

/-- The records at hand lie in front of `upTo`. -/
theorem Queued.bound_lt (h : body.Queued origin lo upTo rest w) {rows : List (Row body.n)}
    {more : List Cell} (hsplit : bounded upTo rest = rows.flatMap Row.cells ++ more) :
    ∀ row ∈ rows, origin ≤ row.final.bound ∧ row.final.bound < upTo := by
  intro row hrow
  have horigin := h.shows.origin_le
  obtain ⟨tail, htail⟩ : bounded upTo rest <+: rest := List.takeWhile_prefix _
  have hcell : row.final ∈ bounded upTo rest := by
    rw [hsplit]
    exact List.mem_append_left _ (List.mem_flatMap_of_mem hrow row.final_mem)
  obtain ⟨hat, hle⟩ := h.handed.chain.cellAt (htail ▸ List.mem_append_left tail hcell)
  have hbound := hat.lo_le_bound
  have hlt := List.mem_takeWhile_imp hcell
  exact ⟨by omega, of_decide_eq_true hlt⟩

/-- The records a flush plans to hand out, to the chunk's end at most. -/
theorem Queued.handPlanned (h : body.Queued origin lo upTo rest w)
    (hquote : body.config.quote = none) (hctx : body.StepAt origin ctx)
    (hupTo : upTo ≤ origin + ctx.scanEnd) (hbuf : w.buf.length = ctx.buf.length)
    {rows : List (Row body.n)} {more : List Cell}
    (hsplit : bounded upTo rest = rows.flatMap Row.cells ++ more) {count : ℕ} {stop : Bool}
    (hplan : Plan origin ctx.remainingInChunk rows count stop) :
    match flushed ctx.remainingInChunk ctx.totalConsumed w (count, stop)
        (SimdCursorStepper.emitRecords body.acc w count) with
      | (w', .error err) => ∀ walk, body.Ended walk w'.state (.error err)
      | (w', .ok (some end_)) => ∀ walk, body.Ended walk w'.state (.done end_)
      | (w', .ok none) => ∃ lo' rest', lo ≤ lo' ∧ body.Queued origin lo' upTo rest' w' ∧
          SameQueue w w' := by
  have hview := hctx.view
  have hremaining := hctx.remaining
  have hchain := h.handed.chain
  have horigin := h.shows.origin_le
  have hloLe := h.handed.lo_le
  have hmem := h.bound_lt hsplit
  obtain ⟨tail, htail⟩ : bounded upTo rest <+: rest := List.takeWhile_prefix _
  have hrest : rest = rows.flatMap Row.cells ++ (more ++ tail) := by
    rw [← List.append_assoc, ← hsplit, htail]
  obtain ⟨hpos, hle, hbefore, hlast⟩ := hplan
  have hlt : count - 1 < rows.length := by omega
  have hget := List.getElem?_eq_getElem hlt
  obtain ⟨horiginRow, hboundRow⟩ := hmem _ (List.getElem_mem hlt)
  have htaken : (rows.take (count - 1)).length + 1 = count := by
    rw [List.length_take]
    omega
  rw [split_rows _ hpos hlt] at hrest
  subst hrest
  have hfinal : rows[count - 1].final ∈
      (rows.take (count - 1) ++ [rows[count - 1]]).flatMap Row.cells :=
    List.mem_flatMap_of_mem (List.mem_append_right _ List.mem_cons_self)
      rows[count - 1].final_mem
  obtain ⟨hat, hloCell⟩ := hchain.cellAt (List.mem_append_left _ hfinal)
  have hstop := hat.stop_le_bound
  have hcell := hat.lo_le
  have hhanded := h.handOut hquote hboundRow (by omega) hctx.valid hctx.within (by omega)
    fun other hother => by
      obtain ⟨k, hk, hother'⟩ := List.mem_take_iff_getElem.mp hother
      have hnear := hbefore k other (by omega) (by
        rw [List.getElem?_eq_getElem (by omega), hother'])
      have hfar := (hmem other (hother' ▸ List.getElem_mem _)).1
      omega
  rw [htaken] at hhanded
  generalize SimdCursorStepper.emitRecords body.acc w count = result at hhanded
  obtain ⟨buf', state', err | ⟨cs, lastRunStart⟩⟩ := result
  · exact fun walk => ⟨hhanded.1, hhanded.2 walk⟩
  · obtain ⟨hplace, hlength, hkept, hpast, hmore⟩ := hhanded
    obtain ⟨rfl, rfl⟩ := Prod.mk.inj hplace
    have hend := @handoff_eq _ body origin (by omega) rows[count - 1].final (by omega) stop
    rw [← hremaining, ← hctx.total] at hend
    simp only [flushed, hend, h.count]
    cases stop with
    | true =>
        exact fun _ => ⟨hkept, hpast (by
          have hthis := (hlast _ hget).mp rfl
          omega)⟩
    | false =>
        refine ⟨_, _, ?_, hmore ?_, ⟨rfl, hlength⟩⟩
        · have hbound := hat.lo_le_bound
          omega
        · by_contra hge
          exact Bool.false_ne_true ((hlast _ hget).mpr (by omega))

/-- What a flush plans is a plan. -/
theorem Queued.plan (h : body.Queued origin lo upTo rest w) (remaining : ℕ)
    {rows : List (Row body.n)} {more : List Cell}
    (hsplit : bounded upTo rest = rows.flatMap Row.cells ++ more) (hrows : rows ≠ [])
    (havail : (w.st.bounds.length - w.head) / body.n = rows.length) :
    Plan origin remaining rows (flushPlan remaining w).1 (flushPlan remaining w).2 := by
  have hn := body.n_pos
  have hchain := h.handed.chain
  obtain ⟨tail, htail⟩ : bounded upTo rest <+: rest := List.takeWhile_prefix _
  have hrest : rest = rows.flatMap Row.cells ++ (more ++ tail) := by
    rw [← List.append_assoc, ← hsplit, htail]
  have hmem := h.bound_lt hsplit
  -- where the records at hand end
  have hends : ∀ k row, rows[k]? = some row →
      w.st.bounds.getD (w.head + (k + 1) * body.n - 1) 0 = row.final.bound - origin := by
    intro k row hrow
    have hlt := (List.getElem?_eq_some_iff.mp hrow).1
    have hpos : 1 ≤ (k + 1) * body.n := Nat.mul_pos (Nat.succ_pos _) hn.1
    rw [show w.head + (k + 1) * body.n - 1 = w.head + ((k + 1) * body.n - 1) by omega,
      List.getD_eq_getElem?_getD, ← List.getElem?_drop, h.bounds, hsplit, List.getElem?_map,
      Row.getElem?_flatMap hn.1 rows more hlt, hrow]
    rfl
  obtain ⟨avail, hcount⟩ : ∃ avail, rows.length = avail + 1 :=
    ⟨_, (Nat.succ_pred_eq_of_pos (List.length_pos_of_ne_nil hrows)).symm⟩
  have hlastRow := List.getElem?_eq_getElem (show avail < rows.length by omega)
  rw [flushPlan]
  simp only [h.count, havail, hcount]
  by_cases hzero : remaining = 0
  · rw [if_pos hzero]
    exact plan_first (List.getElem?_eq_getElem (by omega)) hzero
  · rw [if_neg hzero]
    simp only [hends _ _ hlastRow, decide_eq_true_eq]
    by_cases hall : rows[avail].final.bound - origin < remaining
    · rw [if_pos hall, ← hcount]
      refine plan_all (by omega) (fun k row row' hk hrow hrow' => ?_) fun row hrow => ?_
      · rw [hrest] at hchain
        exact bound_lt_of_rows hchain hrow hrow' (by omega)
      · rw [hcount, Nat.add_sub_cancel, hlastRow, Option.some.injEq] at hrow
        rwa [← hrow]
    · rw [if_neg hall, ← hcount]
      refine plan_until (fun k row hrow => ?_) ⟨_, ?_, Nat.le_of_not_lt hall⟩
      · rw [hends k row hrow]
      · exact (congrArg (rows[·]?) (show rows.length - 1 = avail by omega)).trans hlastRow

/-- A flush hands out records that are there, to the chunk's end at most. -/
theorem Queued.flush (h : body.Queued origin lo upTo rest w) (hquote : body.config.quote = none)
    (hctx : body.StepAt origin ctx) (hupTo : upTo ≤ origin + ctx.scanEnd)
    (hbuf : w.buf.length = ctx.buf.length) :
    match SimdCursorStepper.flush body.acc ctx.remainingInChunk ctx.totalConsumed w with
      | (w', .error err) => ∀ walk, body.Ended walk w'.state (.error err)
      | (w', .ok (some end_)) => ∀ walk, body.Ended walk w'.state (.done end_)
      | (w', .ok none) => ∃ lo' rest', lo ≤ lo' ∧ body.Queued origin lo' upTo rest' w' ∧
          SameQueue w w' := by
  rw [flush_eq, h.count]
  split_ifs with havail
  · exact ⟨lo, rest, le_rfl, h, .refl w⟩
  · have hdiv := Nat.div_mul_le_self (w.st.bounds.length - w.head) body.n
    have hlength := h.length_bounds
    obtain ⟨rows, more, hrows, hsplit⟩ := h.rows (hdiv.trans_eq hlength)
    have hplan := h.plan ctx.remainingInChunk hsplit
      (List.ne_nil_of_length_pos (by rw [hrows]; exact Nat.pos_of_ne_zero havail)) hrows.symm
    exact h.handPlanned hquote hctx hupTo hbuf hsplit hplan

/-- The queue is flushed where it holds a record. -/
theorem Queued.flushReady (h : body.Queued origin lo upTo rest w)
    (hquote : body.config.quote = none) (hctx : body.StepAt origin ctx)
    (hupTo : upTo ≤ origin + ctx.scanEnd) (hbuf : w.buf.length = ctx.buf.length) :
    match (if w.st.fieldCounter.n ≤ w.st.bounds.length - w.head then
        SimdCursorStepper.flush body.acc ctx.remainingInChunk ctx.totalConsumed w
      else (w, .ok none)) with
      | (w', .error err) => ∀ walk, body.Ended walk w'.state (.error err)
      | (w', .ok (some end_)) => ∀ walk, body.Ended walk w'.state (.done end_)
      | (w', .ok none) => ∃ lo' rest', lo ≤ lo' ∧ body.Queued origin lo' upTo rest' w' ∧
          SameQueue w w' := by
  split_ifs with hready
  · exact h.flush hquote hctx hupTo hbuf
  · exact ⟨lo, rest, le_rfl, h, .refl w⟩

end Queues

end Body

end Csveee.Simd
