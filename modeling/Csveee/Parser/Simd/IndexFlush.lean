import Csveee.Parser.Simd.Flush

/-!
# The index stepper's flush

The pending offsets are those of the text's cells from where the next record starts.  A
flush cuts the cells' content from them, whatever was left behind in the buffer in front.
-/

namespace Csveee.Simd

open Positions Slice

variable {σ : Type}

namespace Body

variable (body : Body σ)

/-- The first byte of a cell's field, in a buffer that starts at `origin`. -/
def beginAt (origin : ℕ) (cell : Cell) : ℕ := body.marks.begin cell - origin

/-- Where the field ends. -/
def finAt (origin : ℕ) (cell : Cell) : ℕ := body.marks.fin cell - origin

/-- The cells whose field ends in front of `upTo`. -/
def finished (upTo : ℕ) (cells : List Cell) : List Cell :=
  cells.takeWhile fun cell => decide (body.marks.fin cell < upTo)

/-- The removals from `lo` on, up to `upTo`. -/
def removals (origin lo upTo : ℕ) : List ℕ :=
  (positions (body.marks.r body.config.doubledQuotes) lo upTo).map fun i => i - origin

/-- What waits for a flush: the offsets of the fields that end in front of `upTo`. -/
structure Waiting (origin lo upTo : ℕ) (rest : List Cell) (w : Flush SimdIndexStepper σ) :
    Prop where
  scannerConfig : w.st.scannerConfig = scannerConfigOf body.config
  count : w.st.fieldCounter.n = body.n
  start : lo = origin + w.st.recordBufStart
  shows : body.Shows origin lo w.buf
  handed : body.At lo rest w.st.lastRecordEnd w.state
  heads : (w.head ≤ w.st.bOffs.length ∧ w.head ≤ w.st.eOffs.length) ∧
    w.rHead ≤ w.st.rOffs.length ∧ (w.head = 0 → w.rHead = 0)
  begins : ∃ more, w.st.bOffs.drop w.head =
    (body.finished upTo rest).map (body.beginAt origin) ++ more
  ends : w.st.eOffs.drop w.head = (body.finished upTo rest).map (body.finAt origin)
  removals : w.st.rOffs.drop w.rHead = body.removals origin lo upTo

variable {body} {origin lo upTo : ℕ} {cells rest front back : List Cell}

/-! ## The fields of cells -/

/-- The fields of consecutive cells lie one behind the other. -/
theorem ordered_fields (hchain : body.marks.Chain lo (cells ++ back)) (horigin : origin ≤ lo)
    {hi : ℕ} (hlo : lo ≤ origin + hi) (hcells : ∀ cell ∈ cells, body.marks.fin cell ≤ origin + hi) :
    Ordered hi (lo - origin)
      (cells.map fun cell => (body.beginAt origin cell, body.finAt origin cell)) := by
  suffices hat : ∀ at_, at_ ≤ lo - origin → Ordered hi at_
      (cells.map fun cell => (body.beginAt origin cell, body.finAt origin cell)) from
    hat _ le_rfl
  induction cells generalizing lo with
  | nil =>
      intro at_ hat
      change at_ ≤ hi
      omega
  | cons cell cells ih =>
      intro at_ hat
      rw [List.forall_mem_cons] at hcells
      cases hchain with
      | cons hcell hrest =>
          obtain ⟨hbegin, hbeginFin⟩ :=
            And.intro (hcell.begin_le body.proper).1 (hcell.begin_le_fin body.proper)
          have hfin := (hcell.fin_le body.proper).1
          have hstop := hcell.stop_le_bound
          refine ⟨?_, ?_, ?_⟩
          · rw [beginAt]
            omega
          · rw [beginAt, finAt]
            omega
          · rcases List.eq_nil_or_concat cells with rfl | ⟨init, last, rfl⟩
            · change body.finAt origin cell ≤ hi
              rw [finAt]
              omega
            · refine ih hrest (by omega) ?_ hcells.2 _ (by rw [finAt]; omega)
              obtain ⟨hat', hle⟩ := hrest.cellAt (show last ∈ init.concat last ++ back by simp)
              have hfin' := (hat'.fin_le body.proper).2
              have hthere := hcells.2 last (by simp)
              omega

theorem positions_sub {f g : ℕ → Bool} {b e : ℕ} (hb : origin ≤ b)
    (hsame : ∀ i, b ≤ i → i < e → f (i - origin) = g i) :
    positions f (b - origin) (e - origin) = (positions g b e).map fun i => i - origin := by
  refine positions_eq ?_ fun i => ?_
  · rw [List.pairwise_map]
    refine (pairwise_positions g b e).imp_of_mem fun {p q} hp hq hlt => ?_
    rw [mem_positions] at hp
    omega
  · rw [List.mem_map]
    constructor
    · rintro ⟨p, hp, rfl⟩
      rw [mem_positions] at hp
      exact ⟨by omega, (hsame p hp.1.1 hp.1.2).trans hp.2⟩
    · rintro ⟨hrange, hflag⟩
      refine ⟨origin + i, mem_positions.mpr ⟨by omega, ?_⟩, by omega⟩
      have hthis := hsame (origin + i) (by omega) (by omega)
      rw [Nat.add_sub_cancel_left] at hthis
      rw [← hthis, hflag]

theorem mem_removals (horigin : origin ≤ lo) {i : ℕ} (hi : lo ≤ i) :
    i - origin ∈ body.removals origin lo upTo ↔
      i < upTo ∧ body.marks.r body.config.doubledQuotes i = true := by
  rw [removals, List.mem_map]
  constructor
  · rintro ⟨p, hp, heq⟩
    rw [mem_positions] at hp
    rw [show i = p by omega]
    exact ⟨hp.1.2, hp.2⟩
  · rintro ⟨hlt, hr⟩
    exact ⟨i, mem_positions.mpr ⟨⟨hi, hlt⟩, hr⟩, rfl⟩

theorem pairwise_removals (horigin : origin ≤ lo) :
    (body.removals origin lo upTo).Pairwise (· < ·) := by
  rw [removals, List.pairwise_map]
  refine (pairwise_positions _ _ _).imp_of_mem fun {p q} hp hq hlt => ?_
  rw [mem_positions] at hp
  omega

/-- What is cut at a cell's offsets is its content. -/
theorem cutBytes_eq_content {buf : Bytes} (hshows : body.Shows origin lo buf) {cell : Cell}
    (hat : body.marks.CellAt cell) (hlo : lo ≤ cell.lo) (hfin : body.marks.fin cell ≤ upTo)
    (hbuf : body.marks.fin cell ≤ origin + buf.length) :
    cutBytes buf (body.removals origin lo upTo) (body.beginAt origin cell)
        (body.finAt origin cell) = content body.config body.ended cell := by
  have horigin := hshows.origin_le
  have hbegin := (hat.begin_le body.proper).1
  have hpositions : positions (fun i => !(body.removals origin lo upTo).contains i)
      (body.beginAt origin cell) (body.finAt origin cell) =
        (positions (fun i => !body.marks.r body.config.doubledQuotes i) (body.marks.begin cell)
          (body.marks.fin cell)).map fun i => i - origin := by
    refine positions_sub (by omega) fun i hi hi' => ?_
    rw [Bool.eq_iff_iff, Bool.not_eq_true', Bool.not_eq_true', ← Bool.not_eq_true,
      List.contains_iff_mem, mem_removals horigin (by omega), ← Bool.not_eq_true]
    exact ⟨fun hnot hr => hnot ⟨by omega, hr⟩, fun hnot hr => hnot hr.2⟩
  have hkeep : positions (fun i => !body.marks.r body.config.doubledQuotes i)
      (body.marks.begin cell) (body.marks.fin cell) =
        positions (body.marks.keep body.config.doubledQuotes) cell.lo cell.stop :=
    hat.positions_keep body.proper _
  rw [cutBytes, hpositions, List.map_map]
  change _ = (positions (body.marks.keep body.config.doubledQuotes) cell.lo cell.stop).map
    fun i => body.ended.getD i 0
  rw [← hkeep]
  apply List.map_congr_left
  intro i hi
  rw [mem_positions] at hi
  rw [Function.comp_apply, List.getD_eq_getElem?_getD, List.getD_eq_getElem?_getD,
    hshows.getElem?_ended (by omega) (by omega)]

/-! ## Records up to a last one -/

section Last

variable {final cell : Cell}

/-- No field of the cells up to a last one ends behind that one's. -/
theorem fin_le_last (hchain : body.marks.Chain lo (front ++ final :: back))
    (hcell : cell ∈ front ++ [final]) : body.marks.fin cell ≤ body.marks.fin final := by
  rcases List.mem_append.mp hcell with hfront | hfinal
  · have hbound := hchain.bound_lt_behind hfront
    obtain ⟨hat, hle⟩ := hchain.append.cellAt (List.mem_cons_self (a := final))
    obtain ⟨hat', -⟩ := hchain.cellAt (List.mem_append_left (final :: back) hfront)
    have hfin := (hat.fin_le body.proper).2
    have hfin' := (hat'.fin_le body.proper).1
    have hstop := hat'.stop_le_bound
    omega
  · rw [List.mem_singleton.mp hfinal]

theorem finished_append (hchain : body.marks.Chain lo (front ++ final :: back))
    (hfinal : body.marks.fin final < upTo) :
    body.finished upTo (front ++ final :: back) = front ++ final :: body.finished upTo back := by
  have hall : ∀ cell ∈ front ++ [final], decide (body.marks.fin cell < upTo) = true := by
    intro cell hcell
    have hle := fin_le_last hchain hcell
    exact decide_eq_true (by omega)
  rw [← List.singleton_append, ← List.append_assoc, finished, List.takeWhile_append_of_pos hall,
    List.append_assoc]
  rfl

/-- The removals behind the last field lie behind its cell. -/
theorem removals_behind (hchain : body.marks.Chain lo (front ++ final :: back))
    (horigin : origin ≤ lo) :
    (body.removals origin lo upTo).drop ((body.removals origin lo upTo).takeWhile
        fun r => decide (r ≤ body.finAt origin final)).length =
      body.removals origin (final.bound + 1) upTo := by
  obtain ⟨hat, hle⟩ := hchain.cellAt (List.mem_append_right front (List.mem_cons_self (a := final)))
  have hbehind := hchain.le_behind
  have hfin := hat.fin_le body.proper
  have hstop := hat.stop_le_bound
  have hsorted := @pairwise_removals _ body origin lo upTo horigin
  have htake : (body.removals origin lo upTo).takeWhile
      (fun r => decide (r ≤ body.finAt origin final)) =
        (body.removals origin lo upTo).filter
          fun r => decide (r < body.finAt origin final + 1) := by
    rw [filter_lt_eq_takeWhile hsorted]
    congr 1
    funext r
    rw [decide_eq_decide]
    omega
  rw [htake, drop_filter_lt hsorted]
  rw [removals, List.filter_map, removals]
  have hsame : (positions (body.marks.r body.config.doubledQuotes) lo upTo).filter
      ((fun r => decide (body.finAt origin final + 1 ≤ r)) ∘ fun i => i - origin) =
        (positions (body.marks.r body.config.doubledQuotes) lo upTo).filter
          fun i => decide (final.bound + 1 ≤ i) := by
    apply List.filter_congr
    intro i hi
    rw [mem_positions] at hi
    rw [Function.comp_apply, finAt, decide_eq_decide]
    refine ⟨fun hlt => ?_, fun hlt => by omega⟩
    -- the last cell's removals lie within its field
    by_contra hge
    have hmem := hat.mem_field_of_r body.proper i (by omega) (by omega) hi.2
    omega
  rw [hsame, filter_ge_positions (by omega)]

end Last

/-! ## Emission -/

theorem flatMap_cells (init : List (Row body.n)) (row : Row body.n) (back : List Cell) :
    (init ++ [row]).flatMap Row.cells ++ back =
      (init.flatMap Row.cells ++ row.init) ++ row.final :: back := by
  rw [List.flatMap_append, List.flatMap_singleton, Row.cells, List.append_assoc, List.append_assoc,
    List.append_assoc, List.singleton_append]

theorem zip_map_append {α β γ : Type} (f : α → β) (g : α → γ) (xs : List α) (more : List β) :
    (xs.map f ++ more).zip (xs.map g) = xs.map fun x => (f x, g x) := by
  rw [← List.append_nil (xs.map g), List.zip_append (by rw [List.length_map, List.length_map]),
    List.zip_nil_right, List.append_nil, List.zip_map']

section Emission

variable {init : List (Row body.n)} {row : Row body.n} {w : Flush SimdIndexStepper σ}

/-- The offsets of the records at hand. -/
def fieldsAt (body : Body σ) (origin : ℕ) (row : Row body.n) : List (ℕ × ℕ) :=
  row.cells.map fun cell => (body.beginAt origin cell, body.finAt origin cell)

theorem Waiting.finished_eq
    (h : body.Waiting origin lo upTo ((init ++ [row]).flatMap Row.cells ++ back) w)
    (hfin : body.marks.fin row.final < upTo) :
    body.finished upTo ((init ++ [row]).flatMap Row.cells ++ back) =
      (init ++ [row]).flatMap Row.cells ++ body.finished upTo back := by
  have hchain := h.handed.chain
  rw [flatMap_cells] at hchain ⊢
  rw [finished_append hchain hfin, flatMap_cells]

theorem Waiting.fields_eq
    (h : body.Waiting origin lo upTo ((init ++ [row]).flatMap Row.cells ++ back) w)
    (hfin : body.marks.fin row.final < upTo) :
    ∃ more, (w.st.bOffs.drop w.head).zip (w.st.eOffs.drop w.head) =
      ((init ++ [row]).map (body.fieldsAt origin)).flatten ++ more := by
  obtain ⟨more, hbegins⟩ := h.begins
  rw [hbegins, h.ends, zip_map_append, h.finished_eq hfin, List.map_append, List.map_flatMap]
  exact ⟨_, rfl⟩

/-- The records cut at these offsets are the rows'. -/
theorem Waiting.cutRecords_eq
    (h : body.Waiting origin lo upTo ((init ++ [row]).flatMap Row.cells ++ back) w)
    (hfin : body.marks.fin row.final < upTo)
    (hbuf : body.marks.fin row.final ≤ origin + w.buf.length) :
    cutRecords w.buf (w.st.rOffs.drop w.rHead) ((init ++ [row]).map (body.fieldsAt origin)) =
      (init ++ [row]).map body.recordOf := by
  have hchain := h.handed.chain
  rw [cutRecords, List.map_map]
  apply List.map_congr_left
  intro other hother
  rw [Function.comp_apply, fieldsAt, recordOf, List.map_map]
  apply List.map_congr_left
  intro cell hcell
  have hmem : cell ∈ (init ++ [row]).flatMap Row.cells := List.mem_flatMap_of_mem hother hcell
  obtain ⟨hat, hle⟩ := hchain.cellAt (List.mem_append_left back hmem)
  have hlast : body.marks.fin cell ≤ body.marks.fin row.final := by
    have hsplit := flatMap_cells init row []
    rw [List.append_nil, List.append_cons, List.append_nil] at hsplit
    rw [flatMap_cells] at hchain
    exact fin_le_last hchain (hsplit ▸ hmem)
  rw [Function.comp_apply, h.removals]
  exact cutBytes_eq_content h.shows hat hle (by omega) (by omega)

theorem Waiting.ordered
    (h : body.Waiting origin lo upTo ((init ++ [row]).flatMap Row.cells ++ back) w) :
    Ordered (body.finAt origin row.final) (lo - origin)
      ((init ++ [row]).map (body.fieldsAt origin)).flatten := by
  have hchain := h.handed.chain
  have horigin := h.shows.origin_le
  have hflat : ((init ++ [row]).map (body.fieldsAt origin)).flatten =
      ((init ++ [row]).flatMap Row.cells).map
        fun cell => (body.beginAt origin cell, body.finAt origin cell) := by
    rw [List.map_flatMap]
    rfl
  have hfinal : row.final ∈ (init ++ [row]).flatMap Row.cells :=
    List.mem_flatMap_of_mem (List.mem_append_right init List.mem_cons_self) row.final_mem
  obtain ⟨hat, hle⟩ := hchain.cellAt (List.mem_append_left back hfinal)
  have hfin := (hat.fin_le body.proper).2
  rw [hflat]
  refine ordered_fields hchain horigin (by rw [finAt]; omega) fun cell hcell => ?_
  have hsplit := flatMap_cells init row []
  rw [List.append_nil] at hsplit
  rw [flatMap_cells] at hchain
  have hlast := fin_le_last hchain (hsplit ▸ hcell)
  rw [finAt]
  omega

/-- What a flush leaves as it is. -/
structure Unmoved (fields : ℕ) (w w' : Flush SimdIndexStepper σ) : Prop where
  st : w'.st = { w.st with
    recordBufStart := w'.st.recordBufStart
    lastRecordEnd := w'.st.lastRecordEnd }
  length : w'.buf.length = w.buf.length
  head : w'.head = w.head + fields
  last : w'.st.lastRecordEnd = none → w.st.lastRecordEnd = none

theorem Waiting.getD_eOffs {rest : List Cell} (h : body.Waiting origin lo upTo rest w) {i : ℕ}
    {cell : Cell} (hget : (body.finished upTo rest)[i]? = some cell) :
    w.st.eOffs.getD (w.head + i) 0 = body.finAt origin cell := by
  rw [List.getD_eq_getElem?_getD, ← List.getElem?_drop, h.ends, List.getElem?_map, hget]
  rfl

theorem Waiting.emitPending_eq
    (h : body.Waiting origin lo upTo ((init ++ [row]).flatMap Row.cells ++ back) w)
    (hfin : body.marks.fin row.final < upTo)
    (hbuf : body.marks.fin row.final ≤ origin + w.buf.length) (totalConsumed remaining : ℕ)
    (stop : Bool) (run : ℕ × Option ℕ) :
    ∃ buf' passed, Edited w.buf buf' 0 (body.finAt origin row.final) ∧
      (w.rHead + passed ≤ w.st.rOffs.length ∧
        w.st.rOffs.drop (w.rHead + passed) = body.removals origin (row.final.bound + 1) upTo) ∧
      SimdIndexStepper.emitPending body.acc totalConsumed remaining (init.length + 1) stop run w =
        match emitRows body.acc ((init ++ [row]).map body.recordOf) w.state with
        | (state, .error err) => ({ w with buf := buf', state := state }, .error err)
        | (state, .ok ()) =>
            ({ st := { w.st with
                recordBufStart := match run.2 with
                  | some end_ => end_ + 1
                  | none => w.st.recordBufStart
                lastRecordEnd := some (totalConsumed + handoff run.1 remaining stop) }
               buf := buf'
               head := w.head + (init.length + 1) * body.n
               rHead := w.rHead + passed
               state := state },
              .ok (if stop then some (totalConsumed + handoff run.1 remaining stop)
                else none)) := by
  have hchain := h.handed.chain
  have horigin := h.shows.origin_le
  have hn := body.n_pos
  have hlengths : ∀ fields ∈ (init ++ [row]).map (body.fieldsAt origin),
      fields.length = body.n := by
    intro fields hfields
    obtain ⟨other, -, rfl⟩ := List.mem_map.mp hfields
    rw [fieldsAt, List.length_map, other.length_cells]
  obtain ⟨more, hfields⟩ := h.fields_eq hfin
  obtain ⟨buf', result, hassemble, hresult, hedited⟩ := assembleRecordsFixed_spec body.acc hn.1
    ((init ++ [row]).map (body.fieldsAt origin)) hlengths more w.buf (lo - origin)
    (w.st.rOffs.drop w.rHead) (by rw [h.removals]; exact pairwise_removals horigin) h.ordered
    (by rw [finAt]; omega) w.state
  have hcount : ((init ++ [row]).map (body.fieldsAt origin)).length = init.length + 1 := by
    rw [List.length_map, List.length_append, List.length_singleton]
  -- the last end handed out is that of the last row
  have hlastE : w.st.eOffs.getD (w.head + (init.length + 1) * body.n - 1) 0 =
      body.finAt origin row.final := by
    have hpos : 1 ≤ (init.length + 1) * body.n := Nat.mul_pos (Nat.succ_pos _) hn.1
    have hget := Row.getElem?_flatMap hn.1 (init ++ [row]) (body.finished upTo back)
      (k := init.length) (by rw [List.length_append, List.length_singleton]; omega)
    rw [List.getElem?_append_right le_rfl, Nat.sub_self, List.getElem?_cons_zero, Option.map_some,
      ← h.finished_eq hfin] at hget
    rw [show w.head + (init.length + 1) * body.n - 1 =
      w.head + ((init.length + 1) * body.n - 1) by omega, h.getD_eOffs hget]
  rw [hcount, h.cutRecords_eq hfin hbuf] at hassemble
  rw [h.cutRecords_eq hfin hbuf] at hresult
  refine ⟨buf', ((w.st.rOffs.drop w.rHead).takeWhile fun r =>
    decide (r ≤ body.finAt origin row.final)).length, hedited, ?_, ?_⟩
  · constructor
    · have hle := (List.takeWhile_sublist (l := w.st.rOffs.drop w.rHead)
        fun r => decide (r ≤ body.finAt origin row.final)).length_le
      have hheads := h.heads.2.1
      rw [List.length_drop] at hle
      omega
    · rw [← List.drop_drop, h.removals]
      rw [flatMap_cells] at hchain
      exact removals_behind hchain horigin
  · rw [SimdIndexStepper.emitPending]
    simp only [h.count, hfields, hassemble, hlastE]
    rw [← Prod.mk.eta (p := emitRows body.acc ((init ++ [row]).map body.recordOf) w.state),
      ← hresult]
    cases result <;> rfl

/-- What handing out comes to: the chunk's end, an error of the text, or the next records at
hand. -/
def Handed (body : Body σ) (origin lo upTo : ℕ) (back : List Cell) (fields : ℕ)
    (w : Flush SimdIndexStepper σ) :
    Flush SimdIndexStepper σ × Except Error (Option ℕ) → Prop
  | (w', .error err) => body.kept w'.state ∧ ∀ walk, body.Blames walk w'.state err
  | (w', .ok (some end_)) => body.kept w'.state ∧ w'.st.lastRecordEnd = some end_ ∧
      body.outcome body.chunkEnd = (w'.state, .ok (some end_))
  | (w', .ok none) => lo ≤ upTo ∧ body.Waiting origin lo upTo back w' ∧ Unmoved fields w w'

theorem handoff_eq (hlo : body.base + origin ≤ body.chunkEnd) {cell : Cell}
    (hcell : origin ≤ cell.stop) (stop : Bool) :
    body.base + origin +
        handoff (cell.stop - origin) (body.chunkEnd - (body.base + origin)) stop =
      if stop then max body.chunkEnd (body.base + cell.stop) else body.base + cell.stop := by
  rw [handoff]
  split_ifs <;> omega

/-- What waits once records were cut in place and handed out. -/
theorem Waiting.handedOut
    (h : body.Waiting origin lo upTo ((init ++ [row]).flatMap Row.cells ++ back) w)
    (hfin : body.marks.fin row.final < upTo) {buf : Bytes}
    (hedited : Edited w.buf buf 0 (body.finAt origin row.final)) {passed : ℕ}
    (hpassed : w.rHead + passed ≤ w.st.rOffs.length)
    (hremovals : w.st.rOffs.drop (w.rHead + passed) =
      body.removals origin (row.final.bound + 1) upTo) {recordBufStart : ℕ}
    (hstart : row.final.bound + 1 = origin + recordBufStart) {lastRecordEnd : Option ℕ}
    {state : σ} (hhanded : body.At (row.final.bound + 1) back lastRecordEnd state) :
    body.Waiting origin (row.final.bound + 1) upTo back
      { st := { w.st with recordBufStart := recordBufStart, lastRecordEnd := lastRecordEnd }
        buf := buf
        head := w.head + (init.length + 1) * body.n
        rHead := w.rHead + passed
        state := state } := by
  have hchain := h.handed.chain
  have horigin := h.shows.origin_le
  have hfinal : row.final ∈ (init ++ [row]).flatMap Row.cells :=
    List.mem_flatMap_of_mem (List.mem_append_right init List.mem_cons_self) row.final_mem
  obtain ⟨hat, hle⟩ := hchain.cellAt (List.mem_append_left back hfinal)
  have hcell := hat.lo_le
  have hbound := hat.stop_le_bound
  have hfins := hat.fin_le body.proper
  have hrows : ∀ offset : Cell → ℕ,
      (((init ++ [row]).flatMap Row.cells).map offset).length = (init.length + 1) * body.n := by
    intro offset
    rw [List.length_map, Row.length_flatMap, List.length_append, List.length_singleton]
  obtain ⟨more, hbegins⟩ := h.begins
  have hends := h.ends
  rw [h.finished_eq hfin, List.map_append] at hbegins hends
  refine ⟨h.scannerConfig, h.count, hstart, ?_, hhanded, ?_, ⟨more, ?_⟩, ?_, hremovals⟩
  · exact h.shows.edited hedited (by omega) (by rw [finAt]; omega)
  · have hb := congrArg List.length hbegins
    have he := congrArg List.length hends
    have hheads := h.heads
    have hpos : 1 ≤ (init.length + 1) * body.n := Nat.mul_pos (Nat.succ_pos _) body.n_pos.1
    rw [List.length_append, List.length_append, hrows, List.length_drop] at hb
    rw [List.length_append, hrows, List.length_drop] at he
    exact ⟨⟨by simp only; omega, by simp only; omega⟩, hpassed,
      fun hzero => by simp only at hzero; omega⟩
  · simp only
    rw [← List.drop_drop, hbegins, List.append_assoc, List.drop_left' (hrows _)]
  · simp only
    rw [← List.drop_drop, hends, List.drop_left' (hrows _)]

variable {remaining : ℕ} {stop : Bool} {run : ℕ × Option ℕ}

theorem Waiting.handOut
    (h : body.Waiting origin lo upTo ((init ++ [row]).flatMap Row.cells ++ back) w)
    (hfin : body.marks.fin row.final < upTo)
    (hbuf : body.marks.fin row.final ≤ origin + w.buf.length) {v : ℕ} (hvalid : body.valid v)
    (hv : v ≤ body.text.length) (hwithin : body.marks.fin row.final ≤ v)
    (hremaining : remaining = body.chunkEnd - (body.base + origin))
    (hrun : RunOf origin upTo remaining row.final run)
    (hbefore : ∀ other ∈ init, body.base + other.final.bound < body.chunkEnd)
    (hstop : stop = true ↔ body.chunkEnd ≤ body.base + row.final.bound) :
    body.Handed origin (row.final.bound + 1) upTo back ((init.length + 1) * body.n) w
      (SimdIndexStepper.emitPending body.acc (body.base + origin) remaining (init.length + 1)
        stop run w) := by
  have hchain := h.handed.chain
  have horigin := h.shows.origin_le
  have hlo := h.handed.lo_le
  have hfinal : row.final ∈ (init ++ [row]).flatMap Row.cells :=
    List.mem_flatMap_of_mem (List.mem_append_right init List.mem_cons_self) row.final_mem
  obtain ⟨hat, hle⟩ := hchain.cellAt (List.mem_append_left back hfinal)
  have hcell := hat.lo_le
  have hbound := hat.stop_le_bound
  have hfins := hat.fin_le body.proper
  have hrows : body.Within v (init ++ [row]) := by
    intro other hother cell hcell
    have hsplit := flatMap_cells init row []
    rw [List.append_nil] at hsplit
    rw [flatMap_cells] at hchain
    have hlast := fin_le_last hchain (hsplit ▸ List.mem_flatMap_of_mem hother hcell)
    omega
  have hkept := kept_emitRows hvalid hv _ hrows h.handed.sub_rows h.handed.kept
  obtain ⟨buf', passed, hedited, hremovals, hemit⟩ := h.emitPending_eq hfin hbuf
    (body.base + origin) remaining stop run
  rw [hemit]
  cases hresult : emitRows body.acc ((init ++ [row]).map body.recordOf) w.state with
  | mk state result =>
      rw [hresult] at hkept
      cases result with
      | error err =>
          exact ⟨hkept,
            fun _ => .rejected (h.handed.reject hresult) (rejects_of_emitRows _ hresult)⟩
      | ok =>
          simp only
          have hend := @handoff_eq _ body origin (by omega) row.final (by omega) stop
          rw [← hremaining, ← hrun.1] at hend
          rw [hend]
          cases stop with
          | true =>
              exact ⟨hkept, rfl, h.handed.stop hbefore (hstop.mp rfl) hresult⟩
          | false =>
              have hbefore' : body.base + row.final.bound < body.chunkEnd := by
                by_contra hpast
                exact absurd (hstop.mpr (by omega)) Bool.false_ne_true
              obtain ⟨hrun₂, hinside⟩ : run.2 = some (row.final.bound - origin) ∧
                  row.final.bound < upTo := by
                rcases hrun.2 with hsome | ⟨-, hpast⟩
                · exact hsome
                · omega
              have hhanded := h.handed.emit hvalid hv hrows (fun other hother => by
                rcases List.mem_append.mp hother with hinit | hlast
                · exact hbefore other hinit
                · rw [List.mem_singleton.mp hlast]
                  exact hbefore') hresult
              rw [behind_rows, endOf, List.getLast?_append_of_ne_nil _ (List.cons_ne_nil _ _)]
                at hhanded
              refine ⟨hinside, ?_, ⟨rfl, hedited.length, rfl, fun hnone => by cases hnone⟩⟩
              exact h.handedOut hfin hedited hremovals.1 hremovals.2
                (by simp only [hrun₂]; omega) hhanded

end Emission

/-! ## Terminator runs -/

/-- The walk from where a field ends to the run behind it. -/
theorem Shows.runLength_field {buf : Bytes} (h : body.Shows origin lo buf) {cell : Cell}
    (hat : body.marks.CellAt cell) (hlo : lo ≤ cell.lo) {limit : ℕ}
    (hfin : body.marks.fin cell ≤ origin + limit) (hlimit : limit ≤ buf.length)
    (hlast : cell.stop < origin + limit → cell.last = true) :
    body.finAt origin cell +
        runLength (fun c => !body.config.isTerminator c) buf (body.finAt origin cell) limit =
      min cell.stop (origin + limit) - origin := by
  have horigin := h.origin_le
  have hcell := hat.lo_le
  have hbound := hat.stop_le_bound
  obtain ⟨hfinStop, hfinLo⟩ := hat.fin_le body.proper
  -- what lies between is a closing quote
  have hquiet : ∀ i, body.marks.fin cell ≤ i → i < cell.stop → body.marks.term i = false := by
    intro i hi hi'
    have hcloses : lag body.marks.closes cell.stop = true := by
      by_contra hnot
      rw [Marks.fin, if_neg hnot] at hi
      omega
    rw [Marks.fin, if_pos hcloses] at hi
    rw [show cell.stop = i + 1 by omega, lag_succ, Marks.closes, Bool.and_eq_true,
      Bool.and_eq_true] at hcloses
    exact (body.proper.quote i hcloses.1.1).2
  rw [finAt, runLength_eq (min cell.stop (origin + limit) - origin) (by omega) (by omega) hlimit]
  · omega
  · intro i hi hi'
    have hthere := h.term (i := origin + i) (by omega) (by omega)
    rw [hquiet (origin + i) (by omega) (by omega), Nat.add_sub_cancel_left,
      List.getElem?_eq_getElem (by omega), Option.any_some] at hthere
    rw [List.getElem?_eq_getElem (by omega), Option.any_some, hthere]
    rfl
  · intro hlt
    obtain ⟨-, hrun, -⟩ := hat.term (hlast (by omega))
    have hterm := hrun cell.stop le_rfl hbound
    rw [Marks.termOoq, Bool.and_eq_true] at hterm
    have hthere := h.term (i := cell.stop) (by omega) (by omega)
    rw [hterm.1, List.getElem?_eq_getElem (by omega), Option.any_some] at hthere
    rw [show min cell.stop (origin + limit) = cell.stop by omega,
      List.getElem?_eq_getElem (by omega), Option.any_some, hthere]
    rfl

/-- The walk from where a field ends to the run, and over it. -/
theorem Shows.termOf_eq {buf : Bytes} (h : body.Shows origin lo buf) {cell : Cell}
    (hat : body.marks.CellAt cell) (hlo : lo ≤ cell.lo) (hfin : body.marks.fin cell < upTo)
    (hupTo : upTo ≤ origin + buf.length) (hlast : cell.stop < upTo → cell.last = true)
    {walkCap : ℕ} (hcap : walkCap ≤ upTo - origin) :
    termOf body.config.isTerminator buf (upTo - origin) walkCap (body.finAt origin cell) =
      if upTo ≤ cell.stop then none
      else if cell.bound - origin + 1 < walkCap then
        some (cell.stop - origin, some (cell.bound - origin))
      else if walkCap < upTo - origin then some (cell.stop - origin, none)
      else none := by
  have horigin := h.origin_le
  have hcell := hat.lo_le
  have hbound := hat.stop_le_bound
  have hfinLo := (hat.fin_le body.proper).2
  have hwalk := h.runLength_field hat hlo (by omega) (show upTo - origin ≤ buf.length by omega)
    fun hlt => hlast (by omega)
  rw [show origin + (upTo - origin) = upTo by omega] at hwalk
  rw [termOf]
  simp only [hwalk]
  by_cases hpast : upTo ≤ cell.stop
  · rw [if_pos hpast, if_pos (by omega)]
  · rw [if_neg hpast, if_neg (by omega), show min cell.stop upTo = cell.stop by omega]
    by_cases hnear : cell.stop < origin + walkCap
    · rw [h.runLength_run hat hlo (hlast (by omega)) (by omega) hnear]
      by_cases hend : cell.bound - origin + 1 < walkCap
      · rw [if_pos hend, if_pos (by omega), show min (cell.bound - origin) (walkCap - 1) =
          cell.bound - origin by omega]
      · rw [if_neg hend, if_neg (by omega)]
    · rw [runLength_of_le (by omega),
        if_neg (show ¬ cell.stop - origin + 0 + 1 < walkCap by omega),
        if_neg (show ¬ cell.bound - origin + 1 < walkCap by omega)]

/-! ## The records at hand -/

section AtHand

variable {cell : Cell} {i phase : ℕ}

theorem mem_finished (hcell : cell ∈ body.finished upTo rest) : body.marks.fin cell < upTo := by
  have hfin := List.mem_takeWhile_imp hcell
  exact of_decide_eq_true hfin

theorem split_of_finished (hget : (body.finished upTo rest)[i]? = some cell) :
    ∃ front back, rest = front ++ cell :: back ∧ front.length = i ∧
      body.marks.fin cell < upTo := by
  obtain ⟨hi, hcell⟩ := List.getElem?_eq_some_iff.mp hget
  obtain ⟨more, hmore⟩ : body.finished upTo rest <+: rest := List.takeWhile_prefix _
  refine ⟨(body.finished upTo rest).take i, (body.finished upTo rest).drop (i + 1) ++ more, ?_, ?_,
    ?_⟩
  · rw [← List.cons_append, ← hcell, ← List.drop_eq_getElem_cons hi, ← List.append_assoc,
      List.take_append_drop, hmore]
  · rw [List.length_take]
    omega
  · exact mem_finished (hcell ▸ List.getElem_mem hi)

/-- A field that has another behind it ends on a boundary that was verified. -/
theorem bound_of_finished (hchain : body.marks.Chain lo rest)
    (hget : (body.finished upTo rest)[i]? = some cell)
    (hmore : i + 1 < (body.finished upTo rest).length) : cell.bound + 1 < upTo := by
  obtain ⟨front, back, hrest, hlength, -⟩ := split_of_finished hget
  obtain ⟨front', back', hrest', hlength', hfin⟩ :=
    split_of_finished (List.getElem?_eq_getElem hmore)
  rw [hrest'] at hchain
  obtain ⟨hat, hle⟩ := hchain.append.cellAt List.mem_cons_self
  have hmem : cell ∈ front' := by
    have hthere : (front' ++ (body.finished upTo rest)[i + 1] :: back')[i]? = some cell := by
      rw [← hrest', hrest, List.getElem?_append_right (by omega), hlength, Nat.sub_self]
      rfl
    rw [List.getElem?_append_left (by omega)] at hthere
    exact List.mem_of_getElem? hthere
  have hlt := hchain.bound_lt_behind hmem
  have hlo := (hat.fin_le body.proper).2
  omega

theorem last_of_finished (hchain : body.marks.Chain lo rest)
    (hphase : phaseAfter body.n 0
      ((rest.takeWhile fun cell => decide (cell.bound < upTo)).map Cell.last) = some phase)
    (hget : (body.finished upTo rest)[i]? = some cell) (hbound : cell.bound < upTo) :
    cell.last = true ↔ i % body.n = body.n - 1 := by
  have hn := body.n_pos
  obtain ⟨front, back, hrest, hlength, -⟩ := split_of_finished hget
  have hall : ∀ other ∈ front, decide (other.bound < upTo) = true := by
    intro other hother
    rw [hrest] at hchain
    obtain ⟨hat, hle⟩ := hchain.append.cellAt List.mem_cons_self
    have hlt := hchain.bound_lt_behind hother
    have hlo := hat.lo_le_bound
    exact decide_eq_true (by omega)
  have hthere : ((rest.takeWhile fun cell => decide (cell.bound < upTo)).map Cell.last)[i]? =
      some cell.last := by
    rw [hrest, List.takeWhile_append_of_pos hall, List.takeWhile_cons,
      if_pos (decide_eq_true hbound), List.getElem?_map,
      List.getElem?_append_right (by omega), hlength, Nat.sub_self]
    rfl
  have hrect := ((phaseAfter_eq_some (by omega) _ _).mp hphase).1 i _ hthere
  rwa [Nat.add_zero] at hrect

/-- A record's last field, at hand and ended in front of `upTo`, is one. -/
theorem last_of_record (hchain : body.marks.Chain lo rest)
    (hphase : phaseAfter body.n 0
      ((rest.takeWhile fun cell => decide (cell.bound < upTo)).map Cell.last) = some phase)
    {k : ℕ} (hget : (body.finished upTo rest)[(k + 1) * body.n - 1]? = some cell)
    (hstop : cell.stop < upTo) : cell.last = true := by
  have hn := body.n_pos
  have hmul : (k + 1) * body.n = k * body.n + body.n := Nat.succ_mul _ _
  rcases Nat.lt_or_ge cell.bound upTo with hlt | hge
  · refine (last_of_finished hchain hphase hget hlt).mpr ?_
    rw [show (k + 1) * body.n - 1 = body.n - 1 + body.n * k by
      rw [hmul, Nat.mul_comm body.n k]
      omega, Nat.add_mul_mod_self_left, Nat.mod_eq_of_lt (by omega)]
  · obtain ⟨front, back, hrest, -⟩ := split_of_finished hget
    obtain ⟨hat, -⟩ := hchain.cellAt (show cell ∈ rest by rw [hrest]; simp)
    by_contra hfalse
    have heq := (hat.delim (Bool.eq_false_of_not_eq_true hfalse)).2
    omega

/-- The records up to one whose run is resolved. -/
theorem rows_of_finished (hchain : body.marks.Chain lo rest)
    (hphase : phaseAfter body.n 0
      ((rest.takeWhile fun cell => decide (cell.bound < upTo)).map Cell.last) = some phase)
    {avail : ℕ} (havail : (avail + 1) * body.n ≤ (body.finished upTo rest).length)
    (hget : (body.finished upTo rest)[(avail + 1) * body.n - 1]? = some cell)
    (hstop : cell.stop < upTo) :
    ∃ (rows : List (Row body.n)) (more : List Cell), rows.length = avail + 1 ∧
      body.finished upTo rest = rows.flatMap Row.cells ++ more := by
  have hn := body.n_pos
  refine Row.exists_rows hn.1 (avail + 1) _ fun i hi => ?_
  have hlt : i < (body.finished upTo rest).length := by omega
  refine ⟨_, List.getElem?_eq_getElem hlt, ?_⟩
  by_cases hlast : i + 1 = (avail + 1) * body.n
  · have hi' : i = (avail + 1) * body.n - 1 := by omega
    have hmul : (avail + 1) * body.n = body.n * avail + body.n := by
      rw [Nat.succ_mul, Nat.mul_comm]
    have hmod : i % body.n = body.n - 1 := by
      rw [show i = body.n - 1 + body.n * avail by omega, Nat.add_mul_mod_self_left,
        Nat.mod_eq_of_lt (by omega)]
    have hcell : (body.finished upTo rest)[i] = cell := by
      rw [← hi', List.getElem?_eq_getElem hlt, Option.some.injEq] at hget
      exact hget
    rw [hcell, hmod]
    exact ⟨fun _ => rfl, fun _ => last_of_record hchain hphase hget hstop⟩
  · refine last_of_finished hchain hphase (List.getElem?_eq_getElem hlt) ?_
    have hbound := bound_of_finished hchain (List.getElem?_eq_getElem hlt) (by omega)
    omega

end AtHand

/-! ## The flush -/

section Flushes

variable {w : Flush SimdIndexStepper σ} {rows : List (Row body.n)} {more : List Cell}
  {remaining count phase v : ℕ} {stop : Bool} {run : ℕ × Option ℕ}

theorem Waiting.emit_plan (h : body.Waiting origin lo upTo rest w)
    (hrows : body.finished upTo rest = rows.flatMap Row.cells ++ more) (hvalid : body.valid v)
    (hv : v ≤ body.text.length) (hupTo : upTo ≤ v) (hbuf : upTo ≤ origin + w.buf.length)
    (hremaining : remaining = body.chunkEnd - (body.base + origin))
    (hplan : Plan origin remaining rows count stop)
    (hrun : ∀ row, rows[count - 1]? = some row → RunOf origin upTo remaining row.final run) :
    ∃ (taken : List (Row body.n)) (back : List Cell),
      rest = taken.flatMap Row.cells ++ back ∧
        body.Handed origin (Marks.behind lo (taken.flatMap Row.cells)) upTo back
          (taken.length * body.n) w
          (SimdIndexStepper.emitPending body.acc (body.base + origin) remaining count stop run
            w) := by
  obtain ⟨hpos, hle, hbefore, hlast⟩ := hplan
  have horigin := h.shows.origin_le
  obtain ⟨tail, htail⟩ : body.finished upTo rest <+: rest := List.takeWhile_prefix _
  have hlt : count - 1 < rows.length := by omega
  have hget := List.getElem?_eq_getElem hlt
  have hrest : rest = (rows.take (count - 1) ++ [rows[count - 1]]).flatMap Row.cells ++
      ((rows.drop count).flatMap Row.cells ++ (more ++ tail)) := by
    rw [← split_rows _ hpos hlt, ← List.append_assoc, ← hrows, htail]
  refine ⟨_, _, hrest, ?_⟩
  have hlength : (rows.take (count - 1)).length + 1 = count := by
    rw [List.length_take]
    omega
  have hmem : ∀ row ∈ rows, origin ≤ row.final.bound ∧ body.marks.fin row.final < upTo := by
    intro row hrow
    have hcell : row.final ∈ body.finished upTo rest := by
      rw [hrows]
      exact List.mem_append_left _ (List.mem_flatMap_of_mem hrow row.final_mem)
    obtain ⟨hat, hle⟩ := h.handed.chain.cellAt (htail ▸ List.mem_append_left tail hcell)
    have hbound := hat.lo_le_bound
    exact ⟨by omega, mem_finished hcell⟩
  rw [hrest] at h
  have hthis := hmem _ (List.getElem_mem hlt)
  have hbefore' : ∀ other ∈ rows.take (count - 1),
      body.base + other.final.bound < body.chunkEnd := by
    intro other hother
    obtain ⟨k, hk, hother'⟩ := List.mem_take_iff_getElem.mp hother
    have hnear := hbefore k other (by omega) (by rw [List.getElem?_eq_getElem (by omega), hother'])
    have hfar := (hmem other (hother' ▸ List.getElem_mem _)).1
    omega
  have hstop : stop = true ↔ body.chunkEnd ≤ body.base + rows[count - 1].final.bound := by
    rw [hlast _ hget]
    omega
  have hhanded := h.handOut hthis.2 (by omega) hvalid hv (by omega) hremaining (hrun _ hget)
    hbefore' hstop
  rw [behind_rows, List.length_append, List.length_singleton]
  rw [hlength] at hhanded ⊢
  exact hhanded

theorem ends_before_eq {resolve : ℕ → Option (ℕ × Option ℕ)} {records : ℕ} {cell : Cell}
    (hresolve : resolve records = some run) (hrun : RunOf origin upTo remaining cell run) :
    (match resolve records with
      | some (_, some end_) => decide (end_ < remaining)
      | _ => false) = decide (cell.bound - origin < remaining) := by
  rw [← hrun.ends_before, hresolve]
  obtain ⟨start, _ | end_⟩ := run <;> rfl

/-- What a flush finds of the run behind a record at hand. -/
theorem Waiting.termOf_record (h : body.Waiting origin lo upTo rest w)
    (hphase : phaseAfter body.n 0
      ((rest.takeWhile fun cell => decide (cell.bound < upTo)).map Cell.last) = some phase)
    (hbuf : upTo ≤ origin + w.buf.length) {walkCap : ℕ} (hcap : walkCap ≤ upTo - origin) {k : ℕ}
    {cell : Cell} (hcell : (body.finished upTo rest)[(k + 1) * body.n - 1]? = some cell) :
    termOf body.config.isTerminator w.buf (upTo - origin) walkCap
        (w.st.eOffs.getD (w.head + (k + 1) * body.n - 1) 0) =
      if upTo ≤ cell.stop then none
      else if cell.bound - origin + 1 < walkCap then
        some (cell.stop - origin, some (cell.bound - origin))
      else if walkCap < upTo - origin then some (cell.stop - origin, none)
      else none := by
  have hpos : 1 ≤ (k + 1) * body.n := Nat.mul_pos (Nat.succ_pos _) body.n_pos.1
  obtain ⟨front, back, hsplit, -, hfin⟩ := split_of_finished hcell
  obtain ⟨hcellAt, hle⟩ := h.handed.chain.cellAt (show cell ∈ rest by rw [hsplit]; simp)
  have hend : w.st.eOffs.getD (w.head + (k + 1) * body.n - 1) 0 = body.finAt origin cell := by
    rw [show w.head + (k + 1) * body.n - 1 = w.head + ((k + 1) * body.n - 1) by omega,
      h.getD_eOffs hcell]
  rw [hend]
  exact h.shows.termOf_eq hcellAt hle hfin hbuf
    (last_of_record h.handed.chain hphase hcell) hcap

/-- The records at hand up to one whose run is resolved, each with its own run. -/
theorem Waiting.rows_resolved (h : body.Waiting origin lo upTo rest w)
    (hphase : phaseAfter body.n 0
      ((rest.takeWhile fun cell => decide (cell.bound < upTo)).map Cell.last) = some phase)
    (hbuf : upTo ≤ origin + w.buf.length) {resolve : ℕ → Option (ℕ × Option ℕ)}
    (hresolve : ∀ records, termOf body.config.isTerminator w.buf (upTo - origin)
      (min (upTo - origin) (remaining + 1)) (w.st.eOffs.getD (w.head + records * body.n - 1) 0) =
        resolve records) {avail : ℕ}
    (havail : (avail + 1) * body.n ≤ (body.finished upTo rest).length)
    (hfound : resolve (avail + 1) = some run) :
    ∃ (rows : List (Row body.n)) (more : List Cell), rows.length = avail + 1 ∧
      body.finished upTo rest = rows.flatMap Row.cells ++ more ∧
      ∀ k row, rows[k]? = some row → ∃ run, resolve (k + 1) = some run ∧
        RunOf origin upTo remaining row.final run := by
  have hn := body.n_pos
  have hchain := h.handed.chain
  have hat := fun k cell
      (hcell : (body.finished upTo rest)[(k + 1) * body.n - 1]? = some cell) =>
    (hresolve (k + 1)).symm.trans (h.termOf_record hphase hbuf
      (Nat.min_le_left _ (remaining + 1)) hcell)
  have hpos : 1 ≤ (avail + 1) * body.n := Nat.mul_pos (Nat.succ_pos _) hn.1
  have hget := List.getElem?_eq_getElem
    (show (avail + 1) * body.n - 1 < (body.finished upTo rest).length by omega)
  have hstop : (body.finished upTo rest)[(avail + 1) * body.n - 1].stop < upTo := by
    by_contra hpast
    rw [hat avail _ hget, if_pos (by omega)] at hfound
    cases hfound
  obtain ⟨rows, more, hcount, hrows⟩ := rows_of_finished hchain hphase havail hget hstop
  refine ⟨rows, more, hcount, hrows, fun k row hrow => ?_⟩
  have hlt := (List.getElem?_eq_some_iff.mp hrow).1
  have hfinal : (body.finished upTo rest)[(k + 1) * body.n - 1]? = some row.final := by
    rw [hrows, Row.getElem?_flatMap hn.1 rows more hlt, hrow]
    rfl
  -- a record with another behind it ends on a boundary that was verified
  have hbound : resolve (k + 1) = none → row.final.bound + 1 < upTo := by
    intro hnone
    have hk : k ≠ avail := by
      rintro rfl
      rw [hfound] at hnone
      cases hnone
    have hmul : (k + 1 + 1) * body.n ≤ (avail + 1) * body.n := Nat.mul_le_mul_right _ (by omega)
    have hsucc : (k + 1 + 1) * body.n = (k + 1) * body.n + body.n := Nat.succ_mul _ _
    have hpos : 1 ≤ (k + 1) * body.n := Nat.mul_pos (Nat.succ_pos _) hn.1
    exact bound_of_finished hchain hfinal (by omega)
  obtain ⟨hcellAt, hle⟩ :=
    hchain.cellAt ((List.takeWhile_sublist _).mem (List.mem_of_getElem? hfinal))
  have hcell := hcellAt.lo_le
  have hstop := hcellAt.stop_le_bound
  have horigin := h.shows.origin_le
  rw [hat k _ hfinal] at hbound ⊢
  split_ifs at hbound ⊢ with hpast hends hcapped
  · have hlate := hbound rfl
    omega
  · exact ⟨_, rfl, rfl, Or.inl ⟨rfl, by omega⟩⟩
  · exact ⟨_, rfl, rfl, Or.inr ⟨rfl, by omega⟩⟩
  · have hlate := hbound rfl
    omega

/-- A flush hands out records that are there, to the chunk's end at most. -/
theorem Waiting.flush (h : body.Waiting origin lo upTo rest w) (hlo : lo ≤ upTo)
    (hphase : phaseAfter body.n 0
      ((rest.takeWhile fun cell => decide (cell.bound < upTo)).map Cell.last) = some phase)
    (hvalid : body.valid v) (hv : v ≤ body.text.length) (hupTo : upTo ≤ v)
    (hbuf : upTo ≤ origin + w.buf.length)
    (hremaining : remaining = body.chunkEnd - (body.base + origin)) :
    ∃ (taken : List (Row body.n)) (back : List Cell),
      rest = taken.flatMap Row.cells ++ back ∧
        body.Handed origin (Marks.behind lo (taken.flatMap Row.cells)) upTo back
          (taken.length * body.n) w
          (SimdIndexStepper.flushRecords body.acc (upTo - origin) remaining (body.base + origin)
            w) := by
  have hn := body.n_pos
  have hchain := h.handed.chain
  have hlengths : w.st.eOffs.length - w.head = (body.finished upTo rest).length := by
    have hends := congrArg List.length h.ends
    rwa [List.length_drop, List.length_map] at hends
  rw [SimdIndexStepper.flushRecords]
  obtain ⟨resolve, hresolve⟩ : ∃ resolve : ℕ → Option (ℕ × Option ℕ), ∀ records,
      termOf body.config.isTerminator w.buf (upTo - origin) (min (upTo - origin) (remaining + 1))
        (w.st.eOffs.getD (w.head + records * body.n - 1) 0) = resolve records :=
    ⟨_, fun _ => rfl⟩
  have hisTerm : (scannerConfigOf body.config).isTerm = body.config.isTerminator := rfl
  simp only [h.count, h.scannerConfig, hisTerm, hlengths, hresolve]
  split
  · exact ⟨[], rest, rfl, hlo, h,
      ⟨rfl, rfl, by rw [List.length_nil, Nat.zero_mul]; rfl, fun hnone => hnone⟩⟩
  · rename_i count last hlast
    obtain ⟨hpos, hle, hfound⟩ := lastResolved_spec hlast
    obtain ⟨avail, rfl⟩ : ∃ avail, count = avail + 1 := ⟨count - 1, by omega⟩
    have havail : (avail + 1) * body.n ≤ (body.finished upTo rest).length :=
      (Nat.le_div_iff_mul_le (by omega)).mp hle
    obtain ⟨rows, more, hcount, hrows, hruns⟩ :=
      h.rows_resolved hphase hbuf hresolve havail hfound
    have hrunLast : ∀ row, rows[avail]? = some row →
        RunOf origin upTo remaining row.final last := by
      intro row hrow
      obtain ⟨run, hrun, hspec⟩ := hruns avail row hrow
      rw [hfound] at hrun
      cases hrun
      exact hspec
    have hrun : ∀ count, 1 ≤ count → ∀ row, rows[count - 1]? = some row →
        RunOf origin upTo remaining row.final
          (if count ≠ avail + 1 then (resolve count).getD last else last) := by
      intro count hcount row hrow
      split_ifs with hlast
      · obtain ⟨run, hrun, hspec⟩ := hruns _ row hrow
        rw [Nat.sub_add_cancel hcount] at hrun
        rw [hrun]
        exact hspec
      · rw [not_not.mp hlast, Nat.add_sub_cancel] at hrow
        exact hrunLast row hrow
    have hlastRow := List.getElem?_eq_getElem (show avail < rows.length by omega)
    have hlastEnds := (hrunLast _ hlastRow).ends_before
    by_cases hzero : remaining = 0
    · simp only [if_pos hzero]
      exact h.emit_plan hrows hvalid hv hupTo hbuf hremaining
        (plan_first (List.getElem?_eq_getElem (by omega)) hzero) (hrun 1 le_rfl)
    · simp only [if_neg hzero, hlastEnds, decide_eq_true_eq]
      by_cases hall : rows[avail].final.bound - origin < remaining
      · simp only [if_pos hall]
        refine h.emit_plan hrows hvalid hv hupTo hbuf hremaining ?_
          (hrun (avail + 1) (Nat.succ_pos _))
        rw [← hcount]
        refine plan_all (by omega) (fun k row row' hk hrow hrow' => ?_) fun row hrow => ?_
        · obtain ⟨tail, htail⟩ : body.finished upTo rest <+: rest := List.takeWhile_prefix _
          rw [← htail, hrows, List.append_assoc] at hchain
          exact bound_lt_of_rows hchain hrow hrow' (by omega)
        · rw [hcount, Nat.add_sub_cancel, hlastRow, Option.some.injEq] at hrow
          rwa [← hrow]
      · simp only [if_neg hall]
        refine h.emit_plan hrows hvalid hv hupTo hbuf hremaining ?_ (hrun _ (Nat.succ_pos _))
        rw [← hcount]
        refine plan_until (fun k row hrow => ?_) ⟨_, ?_, Nat.le_of_not_lt hall⟩
        · obtain ⟨run, hrun, hspec⟩ := hruns k row hrow
          exact ends_before_eq hrun hspec
        · exact (congrArg (rows[·]?) (show rows.length - 1 = avail by omega)).trans hlastRow

end Flushes

end Body

end Csveee.Simd
