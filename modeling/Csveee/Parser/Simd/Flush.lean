import Csveee.Parser.Simd.Body

/-!
# What a flush hands out

A flush finds the pending records whose terminator run it can see to its end, and hands
out those that end before the chunk does, and the first one that does not.
-/

namespace Csveee.Simd

open Positions Slice

theorem runLength_eq {p : Byte → Bool} {buf : Bytes} {start limit : ℕ} (mid : ℕ)
    (hstart : start ≤ mid) (hmid : mid ≤ limit) (hlimit : limit ≤ buf.length)
    (hall : ∀ i, start ≤ i → i < mid → buf[i]?.any p = true)
    (hnext : mid < limit → buf[mid]?.any p = false) :
    runLength p buf start limit = mid - start := by
  obtain ⟨hle, hrun, hdrop, hstop⟩ :=
    @takeWhile_slice_spec _ buf p start limit (by omega) hlimit
  rw [runLength]
  generalize (slice buf start (limit - start)).takeWhile p = run at hle hrun hdrop hstop
  rcases Nat.lt_trichotomy run.length (mid - start) with hlt | heq | hgt
  · have hthere := hall (start + run.length) (by omega) (by omega)
    rw [Option.any_eq_true] at hthere
    obtain ⟨b, hb, hp⟩ := hthere
    rw [hstop b (by omega) hb] at hp
    cases hp
  · exact heq
  · have hget : buf[mid]? = some run[mid - start] := by
      have hthere := congrArg (fun bytes : Bytes => bytes[mid - start]?) hdrop
      rw [List.getElem?_drop, List.getElem?_append_left hgt, List.getElem?_eq_getElem hgt,
        show start + (mid - start) = mid by omega] at hthere
      exact hthere
    have hnot := hnext (by omega)
    rw [hget, Option.any_some, hrun _ (List.getElem_mem hgt)] at hnot
    cases hnot

theorem runLength_of_le {p : Byte → Bool} {buf : Bytes} {start limit : ℕ} (hle : limit ≤ start) :
    runLength p buf start limit = 0 := by
  rw [runLength, Nat.sub_eq_zero_of_le hle, slice_zero]
  rfl

theorem lastResolved_spec {resolve : ℕ → Option (ℕ × Option ℕ)} {avail count : ℕ}
    {run : ℕ × Option ℕ} (h : lastResolved resolve avail = some (count, run)) :
    1 ≤ count ∧ count ≤ avail ∧ resolve count = some run := by
  induction avail with
  | zero => cases h
  | succ avail ih =>
      rw [lastResolved] at h
      split at h
      · rename_i hrun
        cases h
        exact ⟨by omega, le_rfl, hrun⟩
      · obtain ⟨hpos, hle, hrun⟩ := ih h
        exact ⟨hpos, by omega, hrun⟩

/-- The records counted end before the boundary, and the one behind them does not. -/
theorem recordsBefore_spec (endsBefore : ℕ → Bool) (fuel k : ℕ) :
    k ≤ recordsBefore endsBefore fuel k ∧ recordsBefore endsBefore fuel k ≤ k + fuel ∧
      (∀ i, k ≤ i → i < recordsBefore endsBefore fuel k → endsBefore (i + 1) = true) ∧
      (recordsBefore endsBefore fuel k < k + fuel →
        endsBefore (recordsBefore endsBefore fuel k + 1) = false) := by
  induction fuel generalizing k with
  | zero => exact ⟨le_rfl, le_rfl, fun i hk hi => by rw [recordsBefore] at hi; omega, fun h => by
      rw [recordsBefore] at h; omega⟩
  | succ fuel ih =>
      rw [recordsBefore]
      split_ifs with hends
      · obtain ⟨hle, hfuel, hall, hstop⟩ := ih (k + 1)
        refine ⟨by omega, by omega, fun i hk hi => ?_, fun hlt => hstop (by omega)⟩
        rcases Nat.eq_or_lt_of_le hk with rfl | hlt
        · exact hends
        · exact hall i hlt hi
      · exact ⟨le_rfl, by omega, fun i hk hi => by omega, fun _ =>
          Bool.eq_false_of_not_eq_true hends⟩

/-- How many of the records to hand out, and whether the chunk ends on the last of them. -/
structure Plan {n : ℕ} (origin remaining : ℕ) (rows : List (Row n)) (count : ℕ) (stop : Bool) :
    Prop where
  count_pos : 1 ≤ count
  count_le : count ≤ rows.length
  before : ∀ k row, k + 1 < count → rows[k]? = some row → row.final.bound - origin < remaining
  last : ∀ row, rows[count - 1]? = some row →
    (stop = true ↔ remaining ≤ row.final.bound - origin)

/-- The terminator run of a record, as far as a flush walks it: to its end, or to the chunk's. -/
def RunOf (origin upTo remaining : ℕ) (cell : Cell) (run : ℕ × Option ℕ) : Prop :=
  run.1 = cell.stop - origin ∧ (run.2 = some (cell.bound - origin) ∧ cell.bound < upTo ∨
    run.2 = none ∧ remaining ≤ cell.bound - origin)

theorem RunOf.ends_before {origin upTo remaining : ℕ} {cell : Cell} {run : ℕ × Option ℕ}
    (h : RunOf origin upTo remaining cell run) :
    (run.2.any fun end_ => decide (end_ < remaining)) =
      decide (cell.bound - origin < remaining) := by
  rcases h.2 with ⟨hsome, -⟩ | ⟨hnone, hpast⟩
  · rw [hsome, Option.any_some]
  · rw [hnone, Option.any_none, decide_eq_false (by omega)]

section Plans

variable {n origin remaining : ℕ} {rows : List (Row n)}

theorem plan_first {row : Row n} (hrow : rows[0]? = some row) (hzero : remaining = 0) :
    Plan origin remaining rows 1 true where
  count_pos := le_rfl
  count_le := by
    have hlt := (List.getElem?_eq_some_iff.mp hrow).1
    omega
  before := fun k _ hk => by omega
  last := fun _ _ => by
    rw [hzero]
    simp

theorem plan_all (hrows : 1 ≤ rows.length) (hascending : ∀ k row row', k + 1 < rows.length →
      rows[k]? = some row → rows[rows.length - 1]? = some row' → row.final.bound < row'.final.bound)
    (hbefore : ∀ row, rows[rows.length - 1]? = some row → row.final.bound - origin < remaining) :
    Plan origin remaining rows rows.length false where
  count_pos := hrows
  count_le := le_rfl
  before := by
    intro k row hk hrow
    obtain ⟨row', hrow'⟩ : ∃ row', rows[rows.length - 1]? = some row' :=
      ⟨_, List.getElem?_eq_getElem (by omega)⟩
    have hlt := hascending k row row' hk hrow hrow'
    have hthis := hbefore row' hrow'
    omega
  last := by
    intro row hrow
    have hthis := hbefore row hrow
    simp only [Bool.false_eq_true, false_iff]
    omega

/-- Up to the first record that does not end before the boundary. -/
theorem plan_until {endsBefore : ℕ → Bool}
    (hends : ∀ k row, rows[k]? = some row →
      endsBefore (k + 1) = decide (row.final.bound - origin < remaining))
    (hlast : ∃ row, rows[rows.length - 1]? = some row ∧ remaining ≤ row.final.bound - origin) :
    Plan origin remaining rows (recordsBefore endsBefore rows.length 0 + 1) true := by
  obtain ⟨hle, hfuel, hall, hstop⟩ := recordsBefore_spec endsBefore rows.length 0
  obtain ⟨final, hfinal, hpast⟩ := hlast
  have hpos := (List.getElem?_eq_some_iff.mp hfinal).1
  have hlt : recordsBefore endsBefore rows.length 0 < rows.length := by
    by_contra hge
    have hthis := hall (rows.length - 1) (Nat.zero_le _) (by omega)
    rw [hends _ _ hfinal, decide_eq_true_eq] at hthis
    omega
  refine ⟨by omega, by omega, fun k row hk hrow => ?_, fun row hrow => ?_⟩
  · have hthis := hall k (Nat.zero_le _) (by omega)
    rwa [hends _ _ hrow, decide_eq_true_eq] at hthis
  · rw [Nat.add_sub_cancel] at hrow
    have hnot := hstop (by omega)
    rw [hends _ _ hrow, decide_eq_false_iff_not] at hnot
    simp only [true_iff]
    omega

/-- Records end in ascending order. -/
theorem bound_lt_of_rows {marks : Marks} {lo : ℕ} {more : List Cell}
    (hchain : marks.Chain lo (rows.flatMap Row.cells ++ more)) {k l : ℕ} {row row' : Row n}
    (hrow : rows[k]? = some row) (hrow' : rows[l]? = some row') (hlt : k < l) :
    row.final.bound < row'.final.bound := by
  obtain ⟨hl, rfl⟩ := List.getElem?_eq_some_iff.mp hrow'
  have hsplit : rows = rows.take l ++ rows[l] :: rows.drop (l + 1) := by
    rw [← List.drop_eq_getElem_cons hl, List.take_append_drop]
  have hmem : row ∈ rows.take l := by
    rw [← List.getElem?_take_of_lt hlt] at hrow
    exact List.mem_of_getElem? hrow
  have hcells : rows.flatMap Row.cells ++ more = (rows.take l).flatMap Row.cells ++
      (rows[l].cells ++ ((rows.drop (l + 1)).flatMap Row.cells ++ more)) := by
    conv_lhs => rw [hsplit]
    rw [List.flatMap_append, List.flatMap_cons, List.append_assoc, List.append_assoc]
  rw [hcells] at hchain
  have hbound := hchain.bound_lt_behind (List.mem_flatMap_of_mem hmem row.final_mem)
  obtain ⟨hat, hle⟩ := hchain.append.cellAt (List.mem_append_left _ rows[l].final_mem)
  have hlo := hat.lo_le_bound
  omega

/-- The rows up to the last one that is handed out, and the cells behind them. -/
theorem split_rows {count : ℕ} (more : List Cell) (hpos : 1 ≤ count)
    (hcount : count - 1 < rows.length) :
    rows.flatMap Row.cells ++ more =
      (rows.take (count - 1) ++ [rows[count - 1]]).flatMap Row.cells ++
        ((rows.drop count).flatMap Row.cells ++ more) := by
  have hdrop := List.drop_eq_getElem_cons hcount
  rw [Nat.sub_add_cancel hpos] at hdrop
  rw [← List.append_assoc, ← List.flatMap_append, List.append_assoc, List.singleton_append,
    ← hdrop, List.take_append_drop]

end Plans

namespace Body.Shows

variable {σ : Type} {body : Body σ} {origin lo : ℕ} {buf : Bytes} (h : body.Shows origin lo buf)

include h

/-- The walk over the terminator run of a record. -/
theorem runLength_run {cell : Cell} (hat : body.marks.CellAt cell) (hlo : lo ≤ cell.lo)
    (hlast : cell.last = true) {limit : ℕ} (hlimit : origin + limit ≤ origin + buf.length)
    (hstop : cell.stop < origin + limit) :
    cell.stop - origin + runLength body.config.isTerminator buf (cell.stop - origin + 1) limit =
      min (cell.bound - origin) (limit - 1) := by
  have horigin := h.origin_le
  have hcell := hat.lo_le
  obtain ⟨hle, hrun, hend⟩ := hat.term hlast
  have hterm : ∀ i, cell.stop ≤ i → i ≤ cell.bound → body.marks.term i = true := by
    intro i hi hi'
    have hthis := hrun i hi hi'
    rw [Marks.termOoq, Bool.and_eq_true] at hthis
    exact hthis.1
  have hbehind : body.marks.term (cell.bound + 1) = false := by
    by_contra htrue
    rw [Bool.not_eq_false] at htrue
    have hquote : body.marks.quote (cell.bound + 1) = false := by
      by_contra hquote
      have hnot := (body.proper.quote _ (Bool.eq_true_of_not_eq_false hquote)).2
      rw [htrue] at hnot
      cases hnot
    have hout : body.marks.inQuotes cell.bound = false :=
      Marks.not_inQuotes_of_dStruct (hat.dStruct_bound body.proper)
    rw [Marks.termOoq, htrue, Marks.inQuotes_eq, lag_succ, hout, hquote] at hend
    cases hend
  rcases Nat.lt_or_ge (cell.bound - origin) limit with hfar | hnear
  · rw [runLength_eq (cell.bound - origin + 1) (by omega) (by omega) (by omega)]
    · omega
    · intro i hi hi'
      have hthis := h.term (i := origin + i) (by omega) (by omega)
      rw [hterm (origin + i) (by omega) (by omega), Nat.add_sub_cancel_left] at hthis
      exact hthis
    · intro hlt
      have hthis := h.term (i := cell.bound + 1) (by omega) (by omega)
      rw [hbehind, show cell.bound + 1 - origin = cell.bound - origin + 1 by omega] at hthis
      exact hthis
  · rw [runLength_eq limit (by omega) le_rfl (by omega)]
    · omega
    · intro i hi hi'
      have hthis := h.term (i := origin + i) (by omega) (by omega)
      rw [hterm (origin + i) (by omega) (by omega), Nat.add_sub_cancel_left] at hthis
      exact hthis
    · intro hlt
      omega

end Body.Shows

end Csveee.Simd
