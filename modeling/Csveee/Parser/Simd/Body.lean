import Csveee.Parser.Simd.Offsets

/-!
# A body and how far it is handed out

The text a stepper parses, with all that does not change while it does: its cells, where
the chunk ends, what the byte automaton comes to.  Both steppers hand out its rows in turn,
and stop at the first that reaches the chunk's end.
-/

namespace Csveee.Simd

open Positions Dfa Slice

/-- What one run works on.  The accumulator's states keep a property, as long as the
records are cut from bytes that passed the validation. -/
structure Body (σ : Type) where
  config : Config
  acc : Accumulator σ
  output : Output
  n : ℕ
  text : Bytes
  base : ℕ
  chunkEnd : ℕ
  initial : σ
  cells : List Cell
  /-- The text's first bytes, that many, passed the validation. -/
  valid : ℕ → Prop
  kept : σ → Prop
  supported : Supported config
  distinct : config.Distinct
  count : config.fieldCount = some n
  base_le : base ≤ chunkEnd
  chain : (marksOf config (terminated config text)).Chain 0 cells
  valid_zero : valid 0
  validates : ∀ v w k, valid v → w ≤ text.length →
    output.validateChunk ((text.take w).drop v) = .ok k → valid (v + k)
  kept_initial : kept initial
  keeps : ∀ v state (row : Row n), valid v → v ≤ text.length →
    (∀ cell ∈ row.cells, cell ∈ cells ∧
      (marksOf config (terminated config text)).fin cell ≤ v) → kept state →
    kept (acc state (row.cells.map (content config (terminated config text)))).state

namespace Body

variable {σ : Type} (body : Body σ)

/-- The text with its last terminator. -/
def ended : Bytes := terminated body.config body.text

def marks : Marks := marksOf body.config body.ended

/-- The record of a row. -/
def recordOf (row : Row body.n) : Record := row.cells.map (content body.config body.ended)

/-- The cells, handed out up to a chunk's end. -/
def emit (chunkEnd : ℕ) (cells : List Cell) (lo : ℕ) (lastRecordEnd : Option ℕ) (state : σ) :
    BodyOutcome σ :=
  emitCells body.acc body.n (content body.config body.ended) (closed body.config body.ended)
    chunkEnd body.base cells lo lo [] lastRecordEnd state

/-- What the byte automaton comes to, for a chunk that ends there. -/
def outcome (chunkEnd : ℕ) : BodyOutcome σ := body.emit chunkEnd body.cells 0 none body.initial

/-- A chunk's end past the text. -/
def far : ℕ := max body.chunkEnd (body.base + body.ended.length)

/-- The body does not parse to its end. -/
def Fails : Prop := ∃ state err, body.outcome body.far = (state, .error err)

theorem proper : body.marks.Proper body.ended.length := proper_marksOf body.distinct

theorem n_pos : 1 ≤ body.n ∧ body.n ≤ 63 := by
  obtain ⟨n, hn, hpos, hle⟩ := body.supported.fieldCount
  rw [body.count] at hn
  cases hn
  exact ⟨hpos, hle⟩

theorem length_ended : body.text.length ≤ body.ended.length ∧
    body.ended.length ≤ body.text.length + 1 := length_terminated _ _

/-- Between two rows: what was handed out, and what is left. -/
structure At (lo : ℕ) (rest : List Cell) (lastRecordEnd : Option ℕ) (state : σ) : Prop where
  chain : body.marks.Chain lo rest
  /-- A record ends in front. -/
  record : lo = 0 ∨ lag body.marks.runEnd lo = true
  sub : ∀ cell ∈ rest, cell ∈ body.cells
  kept : body.kept state
  lo_le : body.base + lo ≤ body.chunkEnd
  outcome : ∀ chunkEnd, body.chunkEnd ≤ chunkEnd →
    body.outcome chunkEnd = body.emit chunkEnd rest lo lastRecordEnd state

theorem at_start : body.At 0 body.cells none body.initial where
  chain := body.chain
  record := Or.inl rfl
  sub := fun _ hcell => hcell
  kept := body.kept_initial
  lo_le := body.base_le
  outcome := fun _ _ => rfl

/-- The buffer shows the text, from a place on. -/
structure Shows (origin lo : ℕ) (buf : Bytes) : Prop where
  origin_le : origin ≤ lo
  long : origin + buf.length ≤ body.text.length
  view : ∀ i, lo ≤ i → i < origin + buf.length → buf[i - origin]? = body.text[i]?
  /-- The byte in front, too. -/
  edge : origin < lo → lo ≤ origin + buf.length → buf[lo - 1 - origin]? = body.text[lo - 1]?

namespace Shows

variable {body : Body σ} {origin lo : ℕ} {buf buf' : Bytes} (h : body.Shows origin lo buf)

include h

theorem getElem?_ended {i : ℕ} (hlo : lo ≤ i) (hi : i < origin + buf.length) :
    buf[i - origin]? = body.ended[i]? := by
  have hlong := h.long
  rw [h.view i hlo hi, ended, getElem?_terminated (by omega)]

theorem term {i : ℕ} (hlo : lo ≤ i) (hi : i < origin + buf.length) :
    buf[i - origin]?.any body.config.isTerminator = body.marks.term i := by
  rw [h.getElem?_ended hlo hi, marks, marksOf_term]

/-- What is left behind in front of a place does not show from there on. -/
theorem edited {lo' hi : ℕ} (hedited : Edited buf buf' 0 hi) (hlo : lo ≤ lo')
    (hhi : origin + hi < lo') : body.Shows origin lo' buf' where
  origin_le := le_trans h.origin_le hlo
  long := by
    rw [hedited.length]
    exact h.long
  view := by
    intro i hlo' hi'
    rw [hedited.length] at hi'
    rw [hedited.getElem?_after (by omega), h.view i (by omega) hi']
  edge := by
    intro horigin hlength
    rw [hedited.length] at hlength
    rw [hedited.getElem?_after (by omega)]
    rcases Nat.lt_or_ge lo lo' with hlt | hge
    · exact h.view _ (by omega) (by omega)
    · rw [show lo' = lo by omega]
      exact h.edge (by omega) (by omega)

theorem mono {lo' : ℕ} (hlo : lo ≤ lo') : body.Shows origin lo' buf where
  origin_le := le_trans h.origin_le hlo
  long := h.long
  view := fun i hlo' hi => h.view i (le_trans hlo hlo') hi
  edge := by
    intro horigin hlength
    rcases Nat.lt_or_ge lo lo' with hlt | hge
    · exact h.view _ (by omega) (by omega)
    · rw [show lo' = lo by omega]
      exact h.edge (by omega) (by omega)

theorem take (n : ℕ) : body.Shows origin lo (buf.take n) where
  origin_le := h.origin_le
  long := by
    have hlong := h.long
    rw [List.length_take]
    omega
  view := by
    intro i hlo hi
    have horigin := h.origin_le
    rw [List.length_take] at hi
    rw [List.getElem?_take_of_lt (by omega), h.view i hlo (by omega)]
  edge := by
    intro horigin hlength
    rw [List.length_take] at hlength
    rw [List.getElem?_take_of_lt (by omega), h.edge horigin (by omega)]

end Shows

/-- The bytes that are walked to place an error: how much of the text lies in front of them,
and where in them the oldest record begins that is not handed out. -/
structure Walk where
  origin : ℕ
  view : Bytes
  start : ℕ

/-- Boundaries that complete no records, and the bytes that were walked to place the error:
all up to these boundaries, or all there are. -/
inductive Misfit (walk : Walk) (state : σ) : Error → Prop
  | intro {lo upTo : ℕ} {rest : List Cell} {lastRecordEnd : Option ℕ} {start found : ℕ} :
      lo = walk.origin + walk.start → body.At lo rest lastRecordEnd state →
      body.Shows walk.origin lo walk.view →
      upTo ≤ walk.origin + walk.view.length ∨
        walk.origin + walk.view.length = body.text.length →
      phaseAfter body.n 0 ((rest.takeWhile fun cell => decide (cell.bound < upTo)).map
        Cell.last) = none →
      locateBadRecord walk.view walk.start body.n body.config.delimiter
        body.config.terminator.bytes.1 body.config.terminator.bytes.2 body.config.quote =
          (start, found) →
      Misfit walk state (.numberOfFields body.n found (body.base + walk.origin + start))

/-- What a run reports of its text: a record that was rejected, a record that does not have
its fields, or a field that is not closed, behind records that do. -/
inductive Blames (walk : Walk) (state : σ) : Error → Prop
  | rejected {err : Error} : body.outcome body.far = (state, .error err) →
      Rejects body.acc state err → Blames walk state err
  | misfit {err : Error} : body.Misfit walk state err → Blames walk state err
  | unclosed {lo phase : ℕ} {rest : List Cell} {lastRecordEnd : Option ℕ} :
      body.At lo rest lastRecordEnd state → closed body.config body.ended = false →
      phaseAfter body.n 0 (rest.map Cell.last) = some phase →
      Blames walk state (.unclosedQuote (body.base + Marks.behind lo rest))

variable {body} {lo : ℕ} {rest : List Cell} {lastRecordEnd : Option ℕ} {state : σ}

theorem lt_far {cell : Cell} (hcell : cell ∈ body.cells) :
    body.base + cell.bound < body.far := by
  have hlt : cell.bound < body.ended.length := body.chain.bound_lt body.proper hcell
  have hle := le_max_right body.chunkEnd (body.base + body.ended.length)
  rw [far]
  omega

/-- The rows lie in the bytes that passed the validation. -/
def Within (body : Body σ) (v : ℕ) (rows : List (Row body.n)) : Prop :=
  ∀ row ∈ rows, ∀ cell ∈ row.cells, body.marks.fin cell ≤ v

theorem kept_emitRows {v : ℕ} (hv : body.valid v) (hle : v ≤ body.text.length)
    (rows : List (Row body.n)) (hwithin : body.Within v rows)
    (hsub : ∀ row ∈ rows, ∀ cell ∈ row.cells, cell ∈ body.cells) (hkept : body.kept state) :
    body.kept (emitRows body.acc (rows.map body.recordOf) state).1 := by
  induction rows generalizing state with
  | nil => exact hkept
  | cons row rows ih =>
      have hwithin' : body.Within v rows :=
        fun other hother => hwithin other (List.mem_cons_of_mem _ hother)
      have hthis := body.keeps v state row hv hle (fun cell hcell =>
        ⟨hsub row List.mem_cons_self cell hcell, hwithin row List.mem_cons_self cell hcell⟩) hkept
      rw [List.map_cons, emitRows]
      cases (body.acc state (body.recordOf row)).result with
      | error err => exact hthis
      | ok =>
          exact ih hwithin' (fun other hother => hsub other (List.mem_cons_of_mem _ hother)) hthis

section Rows

variable {rows : List (Row body.n)} {front back : List Cell}

theorem behind_rows (row : Row body.n) :
    Marks.behind lo ((rows ++ [row]).flatMap Row.cells) = row.final.bound + 1 := by
  rw [List.flatMap_append, Marks.behind_append, List.flatMap_singleton, Row.cells,
    Marks.behind_append]
  rfl

theorem At.sub_rows (h : body.At lo (rows.flatMap Row.cells ++ back) lastRecordEnd state) :
    ∀ row ∈ rows, ∀ cell ∈ row.cells, cell ∈ body.cells := by
  intro row hrow cell hcell
  exact h.sub cell (List.mem_append_left _ (List.mem_flatMap_of_mem hrow hcell))

theorem At.reject (h : body.At lo (rows.flatMap Row.cells ++ back) lastRecordEnd state)
    {state' : σ} {err : Error}
    (hemit : emitRows body.acc (rows.map body.recordOf) state = (state', .error err)) :
    body.outcome body.far = (state', .error err) := by
  have hrows := emitCells_rows body.acc (content body.config body.ended)
    (closed body.config body.ended) body.far body.base rows back
    (fun row hrow => lt_far (h.sub_rows row hrow _ row.final_mem)) lo lastRecordEnd state
  have hout := h.outcome body.far (le_max_left _ _)
  rw [emit, hrows] at hout
  rw [show (fun row : Row body.n => row.cells.map (content body.config body.ended)) =
    body.recordOf from rfl, hemit] at hout
  exact hout

/-- The rows end before the chunk does. -/
theorem At.emit {v : ℕ} (hv : body.valid v) (hle : v ≤ body.text.length)
    (h : body.At lo (rows.flatMap Row.cells ++ back) lastRecordEnd state)
    (hwithin : body.Within v rows)
    (hrows : ∀ row ∈ rows, body.base + row.final.bound < body.chunkEnd) {state' : σ}
    (hemit : emitRows body.acc (rows.map body.recordOf) state = (state', .ok ())) :
    body.At (Marks.behind lo (rows.flatMap Row.cells)) back (endOf body.base rows lastRecordEnd)
      state' where
  chain := h.chain.append
  record := by
    rcases List.eq_nil_or_concat rows with rfl | ⟨init, row, rfl⟩
    · exact h.record
    · rw [List.concat_eq_append, behind_rows, lag_succ]
      have hmem : row.final ∈ body.cells := h.sub_rows row (by simp) _ row.final_mem
      rw [((body.chain.cellAt hmem).1.runEnd_bound body.proper), row.term]
      exact Or.inr rfl
  sub := fun cell hcell => h.sub cell (List.mem_append_right _ hcell)
  kept := by
    have hkept := kept_emitRows hv hle rows hwithin h.sub_rows h.kept
    rwa [hemit] at hkept
  lo_le := by
    rcases List.eq_nil_or_concat rows with rfl | ⟨init, row, rfl⟩
    · exact h.lo_le
    · have hlast := hrows row (by simp)
      rw [List.concat_eq_append, behind_rows]
      omega
  outcome := by
    intro chunkEnd hpast
    have hcells := emitCells_rows body.acc (content body.config body.ended)
      (closed body.config body.ended) chunkEnd body.base rows back
      (fun row hrow => lt_of_lt_of_le (hrows row hrow) hpast) lo lastRecordEnd state
    rw [h.outcome chunkEnd hpast, Body.emit, hcells]
    rw [show (fun row : Row body.n => row.cells.map (content body.config body.ended)) =
      body.recordOf from rfl, hemit]
    rfl

/-- The last of the rows reaches the chunk's end. -/
theorem At.stop {row : Row body.n}
    (h : body.At lo ((rows ++ [row]).flatMap Row.cells ++ back) lastRecordEnd state)
    (hrows : ∀ row ∈ rows, body.base + row.final.bound < body.chunkEnd)
    (hrow : body.chunkEnd ≤ body.base + row.final.bound) {state' : σ}
    (hemit : emitRows body.acc ((rows ++ [row]).map body.recordOf) state = (state', .ok ())) :
    body.outcome body.chunkEnd =
      (state', .ok (some (max body.chunkEnd (body.base + row.final.stop)))) := by
  have hcells := emitCells_rows body.acc (content body.config body.ended)
    (closed body.config body.ended) body.chunkEnd body.base rows (row.cells ++ back) hrows lo
    lastRecordEnd state
  rw [List.map_append, emitRows_append] at hemit
  rw [h.outcome _ le_rfl, Body.emit, List.flatMap_append, List.flatMap_singleton,
    List.append_assoc, hcells]
  rw [show (fun row : Row body.n => row.cells.map (content body.config body.ended)) =
    body.recordOf from rfl]
  cases hfront : emitRows body.acc (rows.map body.recordOf) state with
  | mk state₁ result =>
      rw [hfront] at hemit
      cases result with
      | error err => cases hemit
      | ok =>
          simp only [List.map_cons, List.map_nil, emitRows] at hemit ⊢
          rw [emitCells_row]
          rw [show row.cells.map (content body.config body.ended) = body.recordOf row from rfl]
          cases hverdict : (body.acc state₁ (body.recordOf row)).result with
          | error err =>
              rw [hverdict] at hemit
              cases hemit
          | ok =>
              rw [hverdict] at hemit
              simp only at hemit ⊢
              rw [if_pos hrow, (Prod.mk.inj hemit).1]

end Rows

/-- Out of quotes, the last cell ends its record. -/
theorem last_of_closed (hchain : body.marks.Chain lo rest)
    (hclosed : closed body.config body.ended = true) {cell : Cell}
    (hlast : rest.getLast? = some cell) : cell.last = true := by
  obtain ⟨front, rfl⟩ : ∃ front, rest = front ++ [cell] :=
    ⟨rest.dropLast, (List.dropLast_append_getLast? cell hlast).symm⟩
  have hback := hchain.append
  generalize Marks.behind lo front = mid at hback
  cases hback with
  | cons hcell hnil =>
      have hquiet := hnil.starts.quiet body.proper hnil.stops_nil
      have hpast := length_le_of_closed hclosed fun i hi => (hquiet i hi).2
      have hlt := hchain.bound_lt body.proper (List.mem_append_right _ List.mem_cons_self)
      by_contra hfalse
      obtain ⟨hdelim, hbound⟩ := hcell.delim (Bool.eq_false_of_not_eq_true hfalse)
      have hterm := @term_last body.config body.text (List.ne_nil_of_length_pos (by
        change 0 < body.ended.length
        omega))
      rw [Marks.delimOoq, Bool.and_eq_true] at hdelim
      change body.marks.term (body.ended.length - 1) = true at hterm
      change body.ended.length ≤ cell.bound + 1 at hpast
      rw [show body.ended.length - 1 = cell.stop by omega,
        body.proper.not_term _ hdelim.1] at hterm
      cases hterm

/-- A text that parses to its end consists of rows, out of quotes. -/
theorem At.parses (h : body.At lo rest lastRecordEnd state) (hfine : ¬ body.Fails) :
    closed body.config body.ended = true ∧
      phaseAfter body.n 0 (rest.map Cell.last) = some 0 := by
  have hn := body.n_pos
  cases hout : body.outcome body.far with
  | mk state' result =>
      cases result with
      | error err => exact absurd ⟨state', err, hout⟩ hfine
      | ok next =>
          rw [h.outcome body.far (le_max_left _ _)] at hout
          exact emitCells_ok (by rw [List.length_nil]; omega)
            (fun cell hcell => lt_far (h.sub cell hcell))
            (fun hclosed cell hcell => last_of_closed h.chain hclosed hcell)
            (fun _ hne => absurd rfl hne) hout

/-- The boundaries of some of the cells do not complete records. -/
theorem At.not_rows {front back : List Cell}
    (h : body.At lo (front ++ back) lastRecordEnd state)
    (hphase : phaseAfter body.n 0 (front.map Cell.last) = none) : body.Fails := by
  by_contra hfine
  have hrows := (h.parses hfine).2
  rw [List.map_append, phaseAfter_append, hphase] at hrows
  cases hrows

theorem At.fails_of_open (h : body.At lo rest lastRecordEnd state)
    (hopen : closed body.config body.ended = false) : body.Fails := by
  by_contra hfine
  rw [(h.parses hfine).1] at hopen
  cases hopen

theorem Blames.fails {walk : Walk} {err : Error} (h : body.Blames walk state err) :
    body.Fails := by
  cases h with
  | rejected hout _ => exact ⟨state, err, hout⟩
  | misfit h =>
      obtain ⟨-, h, -, -, hphase, -⟩ := h
      rename_i upTo rest _ _ _
      rw [← List.takeWhile_append_dropWhile (p := fun cell => decide (cell.bound < upTo))
        (l := rest)] at h
      exact h.not_rows hphase
  | unclosed h hopen _ => exact h.fails_of_open hopen

/-- All is handed out. -/
theorem At.finish (h : body.At lo [] lastRecordEnd state)
    (hclosed : closed body.config body.ended = true) :
    body.outcome body.chunkEnd = (state, .ok lastRecordEnd) := by
  rw [h.outcome _ le_rfl, Body.emit, emitCells, if_pos hclosed]

/-- At the text's end nothing is left. -/
theorem At.at_end (h : body.At lo rest lastRecordEnd state) (hend : lo = body.text.length) :
    rest = [] ∧ closed body.config body.ended = true := by
  have hlength := body.length_ended
  have hwhole : body.ended.length = body.text.length := by
    by_contra hne
    obtain ⟨hnot, hpos⟩ := @term_of_spliced body.config body.text (by
      change body.ended.length = _
      omega)
    rcases h.record with hzero | hterm
    · omega
    · rw [hend, show body.text.length = body.text.length - 1 + 1 by omega, lag_succ,
        Marks.runEnd, Marks.termOoq] at hterm
      change body.marks.term _ = false at hnot
      rw [hnot] at hterm
      cases hterm
  refine ⟨?_, ?_⟩
  · rw [List.eq_nil_iff_forall_not_mem]
    intro cell hcell
    have hlt := h.chain.bound_lt body.proper hcell
    obtain ⟨hat, hle⟩ := h.chain.cellAt hcell
    have hbound := hat.lo_le_bound
    omega
  · have hout := h.chain.starts.outside
    rw [hend, ← hwhole] at hout
    rw [closed, Bool.not_eq_true']
    exact hout

end Body

end Csveee.Simd
