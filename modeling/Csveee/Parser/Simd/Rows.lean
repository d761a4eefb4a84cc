import Csveee.Parser.Contract
import Csveee.Parser.Simd.Boundary
import Csveee.Parser.Simd.Cells
import Csveee.Parser.Simd.Verify

/-!
# The byte automaton on cells

What the reference comes to on a text, told by the text's cells: it collects their
content, and hands out a record where a cell ends one.
-/

namespace Csveee.Simd

open Positions Dfa

/-! ## The cells of a text -/

section Text

variable (config : Config) (text : Bytes)

/-- The text with a terminator behind it, unless it ends on one. -/
def terminated : Bytes :=
  if text = [] ∨ text.getLast?.any config.isTerminator = true then text
  else text ++ [config.terminator.bytes.1]

/-- The bytes from `lo` up to `hi` that are content. -/
def kept (lo hi : ℕ) : Bytes :=
  (positions ((marksOf config text).keep config.doubledQuotes) lo hi).map fun i => text.getD i 0

def content (cell : Cell) : Bytes := kept config text cell.lo cell.stop

/-- The text does not end in quotes. -/
def closed : Bool := !lag (marksOf config text).inQuotes text.length

variable {config text}

theorem marksOf_delim (i : ℕ) :
    (marksOf config text).delim i = text[i]?.any (· == config.delimiter) := by
  simp only [marksOf, Marks.of, scannerConfigOf]
  cases text[i]? <;> rfl

theorem proper_marksOf (h : config.Distinct) : (marksOf config text).Proper text.length where
  not_term := by
    intro i hdelim
    rw [marksOf_delim, Option.any_eq_true] at hdelim
    obtain ⟨b, hb, heq⟩ := hdelim
    rw [marksOf_term, hb, Option.any_some, eq_of_beq heq]
    exact h.delimiter
  quote := by
    intro i hquote
    rw [marksOf_quote, Option.any_eq_true] at hquote
    obtain ⟨b, hb, hq⟩ := hquote
    obtain ⟨hdelim, hterm⟩ := h.quote b (eq_of_beq hq)
    rw [marksOf_delim, marksOf_term, hb, Option.any_some, Option.any_some]
    exact ⟨beq_eq_false_iff_ne.mpr hdelim, hterm⟩
  past := fun i hi => Marks.of_past hi

theorem terminated_nil : terminated config [] = [] := rfl

theorem terminated_cases (config : Config) (text : Bytes) :
    (terminated config text = text ∧
        (text = [] ∨ text.getLast?.any config.isTerminator = true)) ∨
      (terminated config text = text ++ [config.terminator.bytes.1] ∧ text ≠ [] ∧
        text.getLast?.any config.isTerminator = false) := by
  rw [terminated]
  split_ifs with hend
  · exact Or.inl ⟨rfl, hend⟩
  · rw [not_or, Bool.not_eq_true] at hend
    exact Or.inr ⟨rfl, hend⟩

theorem getElem?_terminated {i : ℕ} (hi : i < text.length) :
    (terminated config text)[i]? = text[i]? := by
  rcases terminated_cases config text with ⟨heq, -⟩ | ⟨heq, -⟩
  · rw [heq]
  · rw [heq, List.getElem?_append_left hi]

theorem isTerminator_first (config : Config) :
    config.isTerminator config.terminator.bytes.1 = true := by
  rw [Config.isTerminator, beq_self_eq_true, Bool.true_or]

/-- The last byte of a text with its terminator is one. -/
theorem term_last (hne : terminated config text ≠ []) :
    (marksOf config (terminated config text)).term ((terminated config text).length - 1) =
      true := by
  rw [marksOf_term, ← List.getLast?_eq_getElem?]
  rcases terminated_cases config text with ⟨heq, hend⟩ | ⟨heq, -⟩
  · rw [heq] at hne ⊢
    exact hend.resolve_left hne
  · rw [heq, List.getLast?_append_of_ne_nil _ (List.cons_ne_nil _ _)]
    exact isTerminator_first config

theorem length_terminated (config : Config) (text : Bytes) :
    text.length ≤ (terminated config text).length ∧
      (terminated config text).length ≤ text.length + 1 := by
  rcases terminated_cases config text with ⟨heq, -⟩ | ⟨heq, -⟩
  · rw [heq]
    omega
  · rw [heq, List.length_append, List.length_singleton]
    omega

/-- A terminator spliced in is a run of its own. -/
theorem term_of_spliced (hspliced : (terminated config text).length = text.length + 1) :
    (marksOf config (terminated config text)).term (text.length - 1) = false ∧
      0 < text.length := by
  rcases terminated_cases config text with ⟨heq, -⟩ | ⟨-, hne, hend⟩
  · rw [heq] at hspliced
    omega
  · have hpos := List.length_pos_iff.mpr hne
    rw [marksOf_term, getElem?_terminated (by omega), ← List.getLast?_eq_getElem?]
    exact ⟨hend, hpos⟩

end Text

/-! ## Records from cells -/

section Emission

variable {σ : Type} (acc : Accumulator σ)

/-- Hand out a record, if it has the fields it must have. -/
def handOut (n recordInStart : ℕ) (fields : Record) (state : σ) : σ × Except Error Unit :=
  if fields.length = n then
    ((acc state fields).state, (acc state fields).result.mapError Error.fromUser)
  else (state, .error (.numberOfFields n fields.length recordInStart))

/-- Collect fields, and hand them out where a record ends.  The chunk is done once a
boundary lies at or past its end. -/
def emitCells (n : ℕ) (fieldOf : Cell → Bytes) (closed : Bool) (chunkEnd base : ℕ) :
    List Cell → ℕ → ℕ → Record → Option ℕ → σ → BodyOutcome σ
  | [], lo, _, _, lastRecordEnd, state =>
      if closed then (state, .ok lastRecordEnd)
      else (state, .error (.unclosedQuote (base + lo)))
  | cell :: cells, _, recordLo, fields, lastRecordEnd, state =>
      let fields := fields ++ [fieldOf cell]
      let next := cell.bound + 1
      if cell.last then
        match handOut acc n (base + recordLo) fields state with
        | (state, .error err) => (state, .error err)
        | (state, .ok ()) =>
            if chunkEnd ≤ base + cell.bound then
              (state, .ok (some (max chunkEnd (base + cell.stop))))
            else emitCells n fieldOf closed chunkEnd base cells next next []
              (some (base + cell.stop)) state
      else emitCells n fieldOf closed chunkEnd base cells next recordLo fields lastRecordEnd state

end Emission

/-! ## Within a cell -/

section Within

variable (config : Config) (text : Bytes)

/-- What is collected of a cell whose bytes before `i` were read.  Of a closing quote it is
not known yet whether it is doubled. -/
def collected (lo i : ℕ) : Bytes :=
  let marks := marksOf config text
  kept config text lo (if lag marks.quote i && !lag marks.inQuotes i then i - 1 else i)

/-- The automaton's state ahead of the byte at `i`. -/
def stateAt (fields : Record) (lo i : ℕ) : State :=
  let marks := marksOf config text
  if i = lo then (if fields.isEmpty then .recordStart else .fieldStart)
  else if lag marks.inQuotes i then .inQuotedField
  else if lag marks.quote i then .afterClosingQuote
  else .inField

/-- The reference, with the bytes before `i` of the cell at `lo` read. -/
structure InCell {σ : Type} (base recordLo lo : ℕ) (fields : Record) (lastRecordEnd : Option ℕ)
    (state : σ) (i : ℕ) (s : RefState σ) : Prop where
  dfaState : s.dfaState = stateAt config text fields lo i
  fields : s.fields = fields
  field : s.field = collected config text lo i
  lastRecordEnd : s.lastRecordEnd = lastRecordEnd
  state : s.state = state
  begun : s.dfaState ≠ .recordStart →
    s.recordInStart = base + recordLo ∧ s.fieldInStart = base + lo

end Within

section Automaton

variable {config : Config} (hs : Supported config) (h : config.Distinct) (endian : Endian)

theorem kept_self (text : Bytes) (lo : ℕ) : kept config text lo lo = [] := by
  rw [kept, positions_of_le le_rfl, List.map_nil]

theorem kept_succ {text : Bytes} {lo i : ℕ} {b : Byte} (hlo : lo ≤ i) (hb : text[i]? = some b) :
    kept config text lo (i + 1) = kept config text lo i ++
      if (marksOf config text).keep config.doubledQuotes i = true then [b] else [] := by
  rw [kept, positions_succ hlo, List.map_append, kept]
  split_ifs with hkeep
  · rw [List.map_singleton, List.getD_eq_getElem?_getD, hb, Option.getD_some]
  · rfl

include hs h in
theorem transition_stateAt {text : Bytes} (fields : Record) {lo i : ℕ} {b : Byte}
    (hstarts : (marksOf config text).Starts lo) (hlo : lo ≤ i) (hb : text[i]? = some b)
    (hdelim : (marksOf config text).delimOoq i = false)
    (hterm : (marksOf config text).termOoq i = false) :
    let trans := (Dfa.new endian config).transition (stateAt config text fields lo i) b
    trans.next = stateAt config text fields lo (i + 1) ∧
      collected config text lo (i + 1) =
        collected config text lo i ++ (if trans.hasOutput then [b] else []) := by
  have hout := hstarts.outside
  have hparity := (marksOf config text).inQuotes_eq i
  have hcases := hs.symbol_cases h b
  have hrow : stateAt config text fields lo i ≠ .inComment := by
    rw [stateAt]
    split_ifs <;> simp
  have hbDelim := @marksOf_delim config text i
  have hbTerm := @marksOf_term config text i
  have hbQuote := @marksOf_quote config text i
  rw [hb, Option.any_some] at hbDelim hbTerm hbQuote
  rw [Marks.delimOoq] at hdelim
  rw [Marks.termOoq] at hterm
  have hinside : config.symbol b = .delimiter ∨ config.symbol b = .terminator →
      (marksOf config text).inQuotes i = true := by
    rintro (hsymbol | hsymbol)
    · rw [(Dfa.symbol_tests h b).1.mp hsymbol, beq_self_eq_true] at hbDelim
      rwa [hbDelim, Bool.true_and, Bool.not_eq_false'] at hdelim
    · rw [(Dfa.symbol_tests h b).2.1.mp hsymbol] at hbTerm
      rwa [hbTerm, Bool.true_and, Bool.not_eq_false'] at hterm
  have hsucc := @kept_succ config text lo i b hlo hb
  rw [Marks.keep] at hsucc
  simp only [Dfa.transition_eq h endian _ hrow b, hs.toggle, collected, lag_succ,
    Nat.add_sub_cancel]
  rcases Nat.eq_or_lt_of_le hlo with rfl | hlt
  · -- the cell's first byte
    have hnoQuote := hstarts.not_quote (proper_marksOf h)
    rw [hout, Bool.false_xor] at hparity
    rw [kept_self] at hsucc
    rcases hcases with ⟨hsymbol, -, hbq, -⟩ | ⟨hsymbol, -, hbq, -⟩ | ⟨hsymbol, -, hbq, -⟩ |
      ⟨hsymbol, -, hbq, -⟩ <;> rw [hbq] at hbQuote <;> rw [hbQuote] at hparity
    · rw [hinside (Or.inl hsymbol)] at hparity
      cases hparity
    · rw [hinside (Or.inr hsymbol)] at hparity
      cases hparity
    all_goals
      cases hfields : fields.isEmpty <;>
        simp [stateAt, hfields, hsymbol, Dfa.symbolRow, hparity, hbQuote, hnoQuote, hsucc,
          kept_self]
  · obtain ⟨k, rfl⟩ : ∃ k, i = k + 1 := ⟨i - 1, by omega⟩
    have hne : k + 1 ≠ lo := by omega
    have hne' : k + 1 + 1 ≠ lo := by omega
    obtain ⟨prev, hprev⟩ : ∃ prev, text[k]? = some prev := by
      have hlen := (List.getElem?_eq_some_iff.mp hb).1
      exact ⟨_, List.getElem?_eq_getElem (Nat.lt_of_succ_lt hlen)⟩
    have hsuccPrev := @kept_succ config text lo k prev (by omega) hprev
    have hprevQuote := @marksOf_quote config text k
    rw [hprev, Option.any_some] at hprevQuote
    rw [lag_succ] at hparity
    rw [Marks.keep] at hsuccPrev
    have hsame : (marksOf config text).quote k = true → isQuote config b = true → prev = b := by
      intro hquote hbq
      rw [hquote] at hprevQuote
      exact Option.some.inj ((eq_of_beq hprevQuote.symm).symm.trans (eq_of_beq hbq))
    rcases hcases with ⟨hsymbol, -, hbq, -⟩ | ⟨hsymbol, -, hbq, -⟩ | ⟨hsymbol, -, hbq, -⟩ |
      ⟨hsymbol, -, hbq, -⟩ <;> rw [hbq] at hbQuote <;> rw [hbQuote] at hparity hsuccPrev hsucc
    · have hin := hinside (Or.inl hsymbol)
      rw [hparity, Bool.xor_false] at hin
      simp [stateAt, hne, hne', hsymbol, Dfa.symbolRow, hparity, hbQuote, hsucc, hin]
    · have hin := hinside (Or.inr hsymbol)
      rw [hparity, Bool.xor_false] at hin
      simp [stateAt, hne, hne', hsymbol, Dfa.symbolRow, hparity, hbQuote, hsucc, hin]
    · cases hin : (marksOf config text).inQuotes k <;>
        cases hquote : (marksOf config text).quote k <;>
          cases hdoubled : config.doubledQuotes <;>
            simp [stateAt, hne, hne', hsymbol, Dfa.symbolRow, hparity, hbQuote, hsucc, hsuccPrev,
              hin, hquote, hdoubled]
      exact hsame hquote hbq
    · cases hin : (marksOf config text).inQuotes k <;>
        cases hquote : (marksOf config text).quote k <;>
          simp [stateAt, hne, hne', hsymbol, Dfa.symbolRow, hparity, hbQuote, hsucc, hsuccPrev,
            hin, hquote]

section Steps

variable {σ : Type} {text : Bytes} {base recordLo lo i : ℕ}
  {fields : Record} {lastRecordEnd : Option ℕ} {state : σ} {s : RefState σ} {b : Byte}

theorem stateAt_eq_recordStart {text : Bytes} {fields : Record} {lo i : ℕ}
    (h : stateAt config text fields lo i = .recordStart) : i = lo ∧ fields = [] := by
  rw [stateAt] at h
  split_ifs at h with hfirst hempty
  · exact ⟨hfirst, List.isEmpty_iff.mp hempty⟩

/-- Nothing blank starts a cell, unless its terminator does. -/
theorem InCell.not_blank (h : config.Distinct)
    (hcell : InCell config text base recordLo lo fields lastRecordEnd state i s)
    (hstarts : (marksOf config text).Starts lo) (hb : text[i]? = some b)
    (hterm : fields = [] → (marksOf config text).termOoq lo = false) :
    s.isBlank (reference endian config) b = false := by
  by_contra hblank
  rw [Bool.not_eq_false, RefState.isBlank, Bool.and_eq_true] at hblank
  obtain ⟨hstate, hnext⟩ := hblank
  have hbt := (blank_reference h endian b).mp (eq_of_beq hnext)
  obtain ⟨rfl, hfields⟩ := stateAt_eq_recordStart (hcell.dfaState.symm.trans (eq_of_beq hstate))
  have hmark : (marksOf config text).term i = true := by rw [marksOf_term, hb, Option.any_some, hbt]
  have hquote : (marksOf config text).quote i = false := by
    by_contra htrue
    have hnone := ((proper_marksOf h).quote i (Bool.eq_true_of_not_eq_false htrue)).2
    rw [hmark] at hnone
    cases hnone
  have hnot := hterm hfields
  rw [Marks.termOoq, hmark, Marks.inQuotes_eq, hstarts.outside, hquote] at hnot
  cases hnot

/-- A byte that begins the record is its first. -/
theorem InCell.begin_eq (hcell : InCell config text base recordLo lo fields lastRecordEnd state i s)
    (hrow : fields = [] → recordLo = lo) :
    s.begin (base + i) =
      { s with recordInStart := base + recordLo, fieldInStart := base + lo } := by
  rw [RefState.begin]
  split_ifs with hstate
  · obtain ⟨rfl, hfields⟩ := stateAt_eq_recordStart (hcell.dfaState.symm.trans hstate)
    rw [hrow hfields]
  · obtain ⟨hrecord, hfield⟩ := hcell.begun hstate
    rw [← hrecord, ← hfield]

include hs h

theorem InCell.step (acc : Accumulator σ) (chunkEnd : ℕ)
    (hcell : InCell config text base recordLo lo fields lastRecordEnd state i s)
    (hstarts : (marksOf config text).Starts lo) (hlo : lo ≤ i) (hb : text[i]? = some b)
    (hrow : fields = [] → recordLo = lo ∧ (marksOf config text).termOoq lo = false)
    (hdelim : (marksOf config text).delimOoq i = false)
    (hterm : (marksOf config text).termOoq i = false) :
    ∃ s', s.step (reference endian config) acc chunkEnd (base + i) b = .inl s' ∧
      InCell config text base recordLo lo fields lastRecordEnd state (i + 1) s' := by
  have hblank := hcell.not_blank endian h hstarts hb fun hfields => (hrow hfields).2
  obtain ⟨hnext, hcollected⟩ := transition_stateAt hs h endian fields hstarts hlo hb
    hdelim hterm
  rw [← hcell.dfaState] at hnext hcollected
  have hinterior : stateAt config text fields lo (i + 1) = .inQuotedField ∨
      stateAt config text fields lo (i + 1) = .afterClosingQuote ∨
        stateAt config text fields lo (i + 1) = .inField := by
    rw [stateAt, if_neg (show i + 1 ≠ lo by omega)]
    split_ifs <;> simp
  have hbegin := hcell.begin_eq fun hfields => (hrow hfields).1
  have hdfa : (reference endian config).dfa = Dfa.new endian config := rfl
  refine ⟨{ s with
    dfaState := stateAt config text fields lo (i + 1)
    field := collected config text lo (i + 1)
    recordInStart := base + recordLo
    fieldInStart := base + lo }, ?_, ?_⟩
  · rw [RefState.step, hblank]
    simp only [Bool.false_eq_true, if_false, hbegin, RefState.push, hdfa, hnext, hcollected,
      ← hcell.field]
    rcases hinterior with hstate | hstate | hstate <;> rw [hstate] <;> split_ifs <;> simp
  · exact {
      dfaState := rfl
      fields := hcell.fields
      field := rfl
      lastRecordEnd := hcell.lastRecordEnd
      state := hcell.state
      begun := fun _ => ⟨rfl, rfl⟩ }

theorem InCell.run_to (acc : Accumulator σ) (chunkEnd : ℕ) {bytes : Bytes} {j : ℕ}
    (hcell : InCell config text base recordLo lo fields lastRecordEnd state i s)
    (hstarts : (marksOf config text).Starts lo) (hlo : lo ≤ i) (hij : i ≤ j)
    (hj : j ≤ bytes.length) (hbytes : ∀ k < j, text[k]? = bytes[k]?)
    (hrow : fields = [] → recordLo = lo ∧ (marksOf config text).termOoq lo = false)
    (hquiet : ∀ k, lo ≤ k → k < j → (marksOf config text).delimOoq k = false ∧
      (marksOf config text).termOoq k = false) :
    ∃ s', s.run (reference endian config) acc chunkEnd (base + i) (bytes.drop i) =
        s'.run (reference endian config) acc chunkEnd (base + j) (bytes.drop j) ∧
      InCell config text base recordLo lo fields lastRecordEnd state j s' := by
  induction hk : j - i generalizing i s with
  | zero =>
      obtain rfl : i = j := by omega
      exact ⟨s, rfl, hcell⟩
  | succ k ih =>
      have hlt : i < bytes.length := by omega
      have hb : text[i]? = some bytes[i] := by
        rw [hbytes i (by omega), List.getElem?_eq_getElem hlt]
      obtain ⟨hdelim, hterm⟩ := hquiet i hlo (by omega)
      obtain ⟨next, hstep, hnext⟩ := hcell.step hs h endian acc chunkEnd
        hstarts hlo hb hrow hdelim hterm
      obtain ⟨s', hrun, hcell'⟩ := ih hnext (by omega) (by omega) (by omega)
      refine ⟨s', ?_, hcell'⟩
      rw [List.drop_eq_getElem_cons hlt, RefState.run, hstep]
      exact hrun

omit hs in
/-- Where its field ends, a cell's content is known. -/
theorem collected_stop (hstarts : (marksOf config text).Starts lo) (hlo : lo ≤ i)
    (hquote : (marksOf config text).quote i = false) :
    collected config text lo i = kept config text lo i := by
  rw [collected]
  by_cases hcloser : (lag (marksOf config text).quote i && !lag (marksOf config text).inQuotes i) =
      true
  · rw [if_pos hcloser]
    rw [Bool.and_eq_true, Bool.not_eq_true'] at hcloser
    obtain ⟨hprev, hout⟩ := hcloser
    have hne : lo ≠ i := by
      rintro rfl
      rw [hstarts.not_quote (proper_marksOf h)] at hprev
      cases hprev
    obtain ⟨k, rfl⟩ : ∃ k, i = k + 1 := ⟨i - 1, by omega⟩
    rw [lag_succ] at hprev hout
    have hkeep : (marksOf config text).keep config.doubledQuotes k = false := by
      rw [Marks.keep, hprev, hquote, Bool.and_false]
      rfl
    rw [kept, kept, Nat.add_sub_cancel, positions_succ (by omega), hkeep, if_neg Bool.false_ne_true,
      List.append_nil]
  · rw [if_neg hcloser]

theorem transition_stop (fields : Record) (lo : ℕ)
    (hout : lag (marksOf config text).inQuotes i = false) :
    let state := stateAt config text fields lo i
    (config.symbol b = .delimiter →
        (Dfa.new endian config).transition state b = ⟨.fieldEnd, false, false⟩) ∧
      (config.symbol b = .terminator → state ≠ .recordStart →
        (Dfa.new endian config).transition state b = ⟨.recordEnd, false, false⟩) := by
  have hrow : stateAt config text fields lo i ≠ .inComment := by
    rw [stateAt]
    split_ifs <;> simp
  have hstate : stateAt config text fields lo i = .recordStart ∨
      stateAt config text fields lo i = .fieldStart ∨
        stateAt config text fields lo i = .afterClosingQuote ∨
          stateAt config text fields lo i = .inField := by
    rw [stateAt, hout]
    split_ifs <;> simp_all
  simp only [Dfa.transition_eq h endian _ hrow b, hs.toggle]
  refine ⟨fun hsymbol => ?_, fun hsymbol hne => ?_⟩
  · rw [hsymbol]
    rcases hstate with hstate | hstate | hstate | hstate <;> rw [hstate] <;> rfl
  · rw [hsymbol]
    rcases hstate with hstate | hstate | hstate | hstate
    · exact absurd hstate hne
    all_goals
      rw [hstate]
      rfl

end Steps

/-! ## From cell to cell -/

section Cells

variable {σ : Type} (acc : Accumulator σ) (chunkEnd : ℕ) {text : Bytes} {base recordLo n : ℕ}
  {fields : Record} {lastRecordEnd : Option ℕ} {state : σ} {s : RefState σ} {b : Byte}
  {lo : ℕ} {cell : Cell}

theorem emit_eq (hcount : config.fieldCount = some n) (s : RefState σ) :
    s.emit (reference endian config) acc = handOut acc n s.recordInStart s.fields s.state := by
  have hexpected : (reference endian config).expectedFields = some n := hcount
  rw [RefState.emit, hexpected, handOut]
  simp only [Option.all_some, beq_iff_eq, Option.getD_some]

include h

theorem InCell.field_eq
    (hcell : InCell config text base recordLo cell.lo fields lastRecordEnd state cell.stop s)
    (hat : (marksOf config text).CellAt cell) : s.field = content config text cell := by
  have hquote := hat.not_quote (proper_marksOf h) cell.stop le_rfl hat.stop_le_bound
  rw [hcell.field, collected_stop h hat.starts hat.lo_le hquote, content]

theorem outside_stop (hat : (marksOf config text).CellAt cell) :
    lag (marksOf config text).inQuotes cell.stop = false := by
  have hquote := hat.not_quote (proper_marksOf h) cell.stop le_rfl hat.stop_le_bound
  have hstop := hat.inQuotes_stop
  rwa [Marks.inQuotes_eq, hquote, Bool.xor_false] at hstop

/-- A cell starts with nothing collected. -/
theorem inCell_start (hstarts : (marksOf config text).Starts lo) (hfields : s.fields = fields)
    (hfield : s.field = []) (hlast : s.lastRecordEnd = lastRecordEnd) (hstate : s.state = state)
    (hdfaState : s.dfaState = if fields.isEmpty = true then .recordStart else .fieldStart)
    (hbegun : s.dfaState ≠ .recordStart →
      s.recordInStart = base + recordLo ∧ s.fieldInStart = base + lo) :
    InCell config text base recordLo lo fields lastRecordEnd state lo s where
  dfaState := by rw [hdfaState, stateAt, if_pos rfl]
  fields := hfields
  field := by
    rw [hfield, collected, hstarts.not_quote (proper_marksOf h), Bool.false_and,
      if_neg Bool.false_ne_true, kept_self]
  lastRecordEnd := hlast
  state := hstate
  begun := hbegun

include hs

theorem InCell.delim
    (hcell : InCell config text base recordLo cell.lo fields lastRecordEnd state cell.stop s)
    (hat : (marksOf config text).CellAt cell) (hb : text[cell.stop]? = some b)
    (hrow : fields = [] →
      recordLo = cell.lo ∧ (marksOf config text).termOoq cell.lo = false)
    (hlast : cell.last = false) :
    ∃ s', s.step (reference endian config) acc chunkEnd (base + cell.stop) b = .inl s' ∧
      InCell config text base recordLo (cell.bound + 1) (fields ++ [content config text cell])
        lastRecordEnd state (cell.bound + 1) s' := by
  have hproper := @proper_marksOf config text h
  obtain ⟨hdelim, hbound⟩ := hat.delim hlast
  have hsymbol : config.symbol b = .delimiter := by
    rw [Marks.delimOoq, Bool.and_eq_true, marksOf_delim, hb, Option.any_some] at hdelim
    exact (Dfa.symbol_tests h b).1.mpr (eq_of_beq hdelim.1)
  have htrans := (transition_stop hs h endian fields cell.lo (outside_stop h hat)).1 hsymbol
  rw [← hcell.dfaState] at htrans
  have hblank := hcell.not_blank endian h hat.starts hb fun hfields => (hrow hfields).2
  have hbegin := hcell.begin_eq fun hfields => (hrow hfields).1
  have hfield := hcell.field_eq h hat
  have hdfa : (reference endian config).dfa = Dfa.new endian config := rfl
  have htrim : (reference endian config).trimFields = false := hs.trim
  refine ⟨{ s with
    dfaState := .fieldStart
    fields := fields ++ [content config text cell]
    field := []
    recordInStart := base + recordLo
    fieldInStart := base + (cell.bound + 1) }, ?_, ?_⟩
  · rw [RefState.step, hblank]
    simp only [Bool.false_eq_true, if_false, hbegin, hdfa, htrans, RefState.push,
      RefState.closeField, htrim, hcell.fields, hfield, hbound, Nat.add_assoc]
  · exact inCell_start h (hat.starts_next hproper) rfl rfl hcell.lastRecordEnd hcell.state
      (by simp) fun _ => ⟨rfl, rfl⟩

theorem InCell.term (hcount : config.fieldCount = some n)
    (hcell : InCell config text base recordLo cell.lo fields lastRecordEnd state cell.stop s)
    (hat : (marksOf config text).CellAt cell) (hb : text[cell.stop]? = some b)
    (hrow : fields = [] →
      recordLo = cell.lo ∧ (marksOf config text).termOoq cell.lo = false)
    (hlast : cell.last = true) :
    s.step (reference endian config) acc chunkEnd (base + cell.stop) b =
      match handOut acc n (base + recordLo) (fields ++ [content config text cell]) state with
      | (state, .error err) => .inr (state, .error err)
      | (state, .ok ()) =>
          if chunkEnd ≤ base + cell.stop then .inr (state, .ok (some (base + cell.stop)))
          else .inl {
            dfaState := .recordStart
            fields := []
            field := []
            recordInStart := base + recordLo
            fieldInStart := base + cell.stop + 1
            lastRecordEnd := some (base + cell.stop)
            state := state } := by
  have hterm := (hat.term hlast).2.1 cell.stop le_rfl hat.stop_le_bound
  have hsymbol : config.symbol b = .terminator := by
    rw [Marks.termOoq, Bool.and_eq_true, marksOf_term, hb, Option.any_some] at hterm
    exact (Dfa.symbol_tests h b).2.1.mpr hterm.1
  have hne : stateAt config text fields cell.lo cell.stop ≠ .recordStart := by
    intro hstate
    obtain ⟨heq, hfields⟩ := stateAt_eq_recordStart hstate
    have hnot := (hrow hfields).2
    rw [← heq, hterm] at hnot
    cases hnot
  have htrans := (transition_stop hs h endian fields cell.lo (outside_stop h hat)).2 hsymbol hne
  rw [← hcell.dfaState] at htrans
  have hblank := hcell.not_blank endian h hat.starts hb fun hfields => (hrow hfields).2
  have hbegin := hcell.begin_eq fun hfields => (hrow hfields).1
  have hfield := hcell.field_eq h hat
  have hdfa : (reference endian config).dfa = Dfa.new endian config := rfl
  have htrim : (reference endian config).trimFields = false := hs.trim
  rw [RefState.step, hblank]
  rcases hhanded : handOut acc n (base + recordLo) (fields ++ [content config text cell]) state with
    ⟨state, _ | _⟩ <;>
  simp only [Bool.false_eq_true, if_false, hbegin, hdfa, htrans, RefState.push,
    RefState.endRecord, RefState.closeField, htrim, hcell.fields, hfield, hcell.state,
    emit_eq endian acc hcount, hhanded]

omit hs in
theorem run_blank {bytes : Bytes} {i j : ℕ} (hstate : s.dfaState = .recordStart) (hij : i ≤ j)
    (hterms : ∀ k, i ≤ k → k < j → ∃ b, bytes[k]? = some b ∧ config.isTerminator b = true) :
    s.run (reference endian config) acc chunkEnd (base + i) (bytes.drop i) =
      if i < j ∧ chunkEnd < base + j then (s.state, .ok (some (max chunkEnd (base + i))))
      else s.run (reference endian config) acc chunkEnd (base + j) (bytes.drop j) := by
  induction hk : j - i generalizing i with
  | zero =>
      obtain rfl : i = j := by omega
      rw [if_neg fun hlt => lt_irrefl i hlt.1]
  | succ k ih =>
      obtain ⟨b, hb, hterm⟩ := hterms i le_rfl (by omega)
      obtain ⟨hlt, hget⟩ := List.getElem?_eq_some_iff.mp hb
      have hnext := (blank_reference h endian b).mpr hterm
      have hskip : s.isBlank (reference endian config) b = true := by
        rw [RefState.isBlank, hstate, hnext]
        rfl
      rw [List.drop_eq_getElem_cons hlt, hget, RefState.run, RefState.step, if_pos hskip]
      by_cases hend : chunkEnd ≤ base + i
      · rw [if_pos hend, if_pos ⟨by omega, by omega⟩, max_eq_right hend]
      · rw [if_neg hend]
        have hrest := @ih (i + 1) (by omega) (fun k hle hlt => hterms k (by omega) hlt) (by omega)
        change s.run (reference endian config) acc chunkEnd (base + i + 1) (bytes.drop (i + 1)) = _
        rw [Nat.add_assoc, hrest]
        by_cases hlast : i + 1 < j
        · by_cases hpast : chunkEnd < base + j
          · rw [if_pos ⟨hlast, hpast⟩, if_pos ⟨by omega, hpast⟩, max_eq_left (by omega),
              max_eq_left (by omega)]
          · rw [if_neg fun hboth => hpast hboth.2, if_neg fun hboth => hpast hboth.2]
        · rw [if_neg fun hboth => hlast hboth.1, if_neg fun hboth => by omega]

omit hs h in
/-- Out of quotes, a text ends with a cell. -/
theorem length_le_of_closed {bytes : Bytes}
    (hclosed : closed config (terminated config bytes) = true)
    (hquiet : ∀ i, lo ≤ i → (marksOf config (terminated config bytes)).termOoq i = false) :
    (terminated config bytes).length ≤ lo := by
  by_contra hlt
  have hne : terminated config bytes ≠ [] := by
    intro hnil
    rw [hnil, List.length_nil] at hlt
    omega
  have hterm := term_last hne
  obtain ⟨k, hk⟩ : ∃ k, (terminated config bytes).length = k + 1 :=
    ⟨(terminated config bytes).length - 1, by omega⟩
  rw [closed, hk, lag_succ, Bool.not_eq_true'] at hclosed
  rw [hk, Nat.add_sub_cancel] at hterm
  have hnot := hquiet k (by omega)
  rw [Marks.termOoq, hterm, hclosed] at hnot
  cases hnot

omit hs in
/-- A text that ends in quotes does so with or without its terminator. -/
theorem inQuotes_of_not_closed {bytes : Bytes}
    (hopen : closed config (terminated config bytes) = false) :
    lag (marksOf config (terminated config bytes)).inQuotes bytes.length = true ∧
      lag (marksOf config (terminated config bytes)).inQuotes
        (terminated config bytes).length = true := by
  rw [closed, Bool.not_eq_false'] at hopen
  refine ⟨?_, hopen⟩
  rcases terminated_cases config bytes with ⟨heq, -⟩ | ⟨heq, -⟩
  · rw [heq] at hopen ⊢
    exact hopen
  · have hlength : (terminated config bytes).length = bytes.length + 1 := by
      rw [heq, List.length_append, List.length_singleton]
    have hterm := @term_last config bytes (by rw [heq]; simp)
    have hquote : (marksOf config (terminated config bytes)).quote bytes.length = false := by
      rw [hlength, Nat.add_sub_cancel] at hterm
      by_contra htrue
      have hnone := ((proper_marksOf h).quote _ (Bool.eq_true_of_not_eq_false htrue)).2
      rw [hterm] at hnone
      cases hnone
    rw [hlength, lag_succ, Marks.inQuotes_eq, hquote, Bool.xor_false] at hopen
    exact hopen

theorem run_behind {bytes : Bytes}
    (hstarts : (marksOf config (terminated config bytes)).Starts lo)
    (hstops : ∀ i, lo ≤ i → (marksOf config (terminated config bytes)).stops i = false)
    (hcell : InCell config (terminated config bytes) base recordLo lo fields lastRecordEnd state
      lo s)
    (hrow : fields = [] → recordLo = lo ∧
      (marksOf config (terminated config bytes)).termOoq lo = false)
    (hmore : fields ≠ [] → lo < (terminated config bytes).length) :
    s.run (reference endian config) acc chunkEnd (base + lo) (bytes.drop lo) =
      if closed config (terminated config bytes) then (state, .ok lastRecordEnd)
      else (state, .error (.unclosedQuote (base + lo))) := by
  have hproper := @proper_marksOf config (terminated config bytes) h
  have hlength := length_terminated config bytes
  have hquiet := hstarts.quiet hproper hstops
  have hle := hstarts.le hproper
  split_ifs with hclosed
  · have hpast := length_le_of_closed hclosed fun i hi => (hquiet i hi).2
    have hfields : fields = [] := by
      by_contra hne
      have hlt := hmore hne
      omega
    have hstate := hcell.dfaState
    rw [stateAt, if_pos rfl, hfields, List.isEmpty_nil, if_pos rfl] at hstate
    rw [List.drop_eq_nil_of_le (by omega), RefState.run, RefState.finish, hstate]
    simp only [hcell.state, hcell.lastRecordEnd]
  · obtain ⟨hinside, hend⟩ := inQuotes_of_not_closed h (Bool.eq_false_of_not_eq_true hclosed)
    have hne : lo ≠ bytes.length := by
      rintro rfl
      rw [hstarts.outside] at hinside
      cases hinside
    have hne' : lo ≠ (terminated config bytes).length := by
      intro heq
      rw [← heq, hstarts.outside] at hend
      cases hend
    obtain ⟨s', hrun, hcell'⟩ := hcell.run_to hs h endian acc chunkEnd (j := bytes.length) hstarts
      le_rfl (by omega) le_rfl (fun k hk => getElem?_terminated hk) hrow
      fun k hk _ => hquiet k hk
    have hstate := hcell'.dfaState
    rw [stateAt, if_neg (Ne.symm hne), hinside, if_pos rfl] at hstate
    have hbegun := (hcell'.begun (by rw [hstate]; simp)).2
    rw [hrun, List.drop_length, RefState.run, RefState.finish, hstate]
    simp only [hcell'.state, hbegun]

omit hs h in
/-- The run of terminators a cell ends on does not run into a terminator spliced in. -/
theorem bound_lt_length {bytes : Bytes}
    (hat : (marksOf config (terminated config bytes)).CellAt cell)
    (hbound : cell.bound < (terminated config bytes).length) (hstop : cell.stop < bytes.length) :
    cell.bound < bytes.length := by
  have hlength := length_terminated config bytes
  by_contra hge
  obtain ⟨hnot, hpos⟩ := @term_of_spliced config bytes (by omega)
  cases hlast : cell.last with
  | false =>
      have heq := (hat.delim hlast).2
      omega
  | true =>
      have hterm := (hat.term hlast).2.1 (bytes.length - 1) (by omega) (by omega)
      rw [Marks.termOoq, hnot] at hterm
      cases hterm

omit hs in
/-- Only a record ends past the text. -/
theorem last_of_spliced {bytes : Bytes}
    (hat : (marksOf config (terminated config bytes)).CellAt cell)
    (hbound : cell.bound < (terminated config bytes).length) (hge : bytes.length ≤ cell.stop) :
    cell.last = true ∧ cell.stop = cell.bound := by
  have hlength := length_terminated config bytes
  have hstop := hat.stop_le_bound
  refine ⟨?_, by omega⟩
  by_contra hfalse
  obtain ⟨hdelim, -⟩ := hat.delim (Bool.eq_false_of_not_eq_true hfalse)
  have hterm := @term_last config bytes
    (List.ne_nil_of_length_pos (Nat.lt_of_le_of_lt (Nat.zero_le _) hbound))
  rw [Marks.delimOoq, Bool.and_eq_true] at hdelim
  rw [show (terminated config bytes).length - 1 = cell.stop by omega,
    (proper_marksOf h).not_term _ hdelim.1] at hterm
  cases hterm

theorem run_spliced {bytes : Bytes} (hcount : config.fieldCount = some n)
    (hat : (marksOf config (terminated config bytes)).CellAt cell)
    (hbound : cell.bound < (terminated config bytes).length) (hge : bytes.length ≤ cell.stop)
    (hcell : InCell config (terminated config bytes) base recordLo cell.lo fields lastRecordEnd
      state cell.lo s)
    (hrow : fields = [] → recordLo = cell.lo ∧
      (marksOf config (terminated config bytes)).termOoq cell.lo = false) :
    s.run (reference endian config) acc chunkEnd (base + cell.lo) (bytes.drop cell.lo) =
      match handOut acc n (base + recordLo)
        (fields ++ [content config (terminated config bytes) cell]) state with
      | (state, .error err) => (state, .error err)
      | (state, .ok ()) => (state, .ok (some (base + cell.stop))) := by
  have hproper := @proper_marksOf config (terminated config bytes) h
  have hlength := length_terminated config bytes
  have hstop := hat.stop_le_bound
  obtain ⟨hlast, -⟩ := last_of_spliced h hat hbound hge
  obtain ⟨-, hterms, -⟩ := hat.term hlast
  obtain ⟨s', hrun, hcell'⟩ := hcell.run_to hs h endian acc chunkEnd (j := cell.stop)
    hat.starts le_rfl hat.lo_le (by omega) (fun k hk => getElem?_terminated (by omega))
    hrow (hat.quiet hproper)
  have hne : s'.dfaState ≠ .recordStart := by
    intro hstate
    obtain ⟨heq, hfields⟩ := stateAt_eq_recordStart (hcell'.dfaState.symm.trans hstate)
    have hnot := (hrow hfields).2
    rw [← heq, hterms _ le_rfl hstop] at hnot
    cases hnot
  have hstate : s'.dfaState = .fieldStart ∨ s'.dfaState = .inField ∨
      s'.dfaState = .afterClosingQuote := by
    have hdfa := hcell'.dfaState
    rw [stateAt, outside_stop h hat] at hdfa
    split_ifs at hdfa with hfirst hempty hquote <;> simp_all
  have htrim : (reference endian config).trimFields = false := hs.trim
  have hemit : (s'.closeField (reference endian config)).emit (reference endian config) acc =
      handOut acc n (base + recordLo)
        (fields ++ [content config (terminated config bytes) cell]) state := by
    rw [emit_eq endian acc hcount, RefState.closeField, htrim, hcell'.field_eq h hat]
    simp only [hcell'.fields, hcell'.state, (hcell'.begun hne).1, Bool.false_eq_true, if_false]
  rw [hrun, List.drop_eq_nil_of_le hge, RefState.run, ← hemit]
  exact RefState.finish_open _ _ _ hstate

/-- The reference, from where a cell starts on. -/
theorem run_eq_emitCells {bytes : Bytes} {cells : List Cell} (hcount : config.fieldCount = some n)
    (hchain : (marksOf config (terminated config bytes)).Chain lo cells)
    (hcell : InCell config (terminated config bytes) base recordLo lo fields lastRecordEnd state
      lo s)
    (hrow : fields = [] → recordLo = lo ∧
      (marksOf config (terminated config bytes)).termOoq lo = false)
    (hmore : fields ≠ [] → lo < (terminated config bytes).length) :
    s.run (reference endian config) acc chunkEnd (base + lo) (bytes.drop lo) =
      emitCells acc n (content config (terminated config bytes))
        (closed config (terminated config bytes)) chunkEnd base cells lo recordLo fields
        lastRecordEnd state := by
  have hproper := @proper_marksOf config (terminated config bytes) h
  have hlength := length_terminated config bytes
  induction hchain generalizing s recordLo fields lastRecordEnd state with
  | nil hstarts hstops => exact run_behind hs h endian acc chunkEnd hstarts hstops hcell hrow hmore
  | @cons cell cells hat hrest ih =>
      have hbound := (Marks.Chain.cons hat hrest).bound_lt hproper List.mem_cons_self
      have hstop := hat.stop_le_bound
      have hquiet := hat.quiet hproper
      have hstarts := hat.starts_next hproper
      rw [emitCells]
      rcases Nat.lt_or_ge cell.stop bytes.length with hlt | hge
      · -- the field ends on a byte of the text
        obtain ⟨s', hrun, hcell'⟩ := hcell.run_to hs h endian acc chunkEnd hat.starts le_rfl
          hat.lo_le hlt.le (fun k hk => getElem?_terminated (by omega)) hrow hquiet
        have hb : (terminated config bytes)[cell.stop]? = some bytes[cell.stop] := by
          rw [getElem?_terminated hlt, List.getElem?_eq_getElem hlt]
        rw [hrun, List.drop_eq_getElem_cons hlt, RefState.run]
        cases hlast : cell.last with
        | false =>
            obtain ⟨s'', hstep, hcell''⟩ := hcell'.delim hs h endian acc chunkEnd hat hb hrow hlast
            obtain ⟨hdelim, heq⟩ := hat.delim hlast
            have hinner : cell.bound + 1 < (terminated config bytes).length := by
              by_contra hge
              have hterm := @term_last config bytes
                (List.ne_nil_of_length_pos (Nat.lt_of_le_of_lt (Nat.zero_le _) hbound))
              rw [Marks.delimOoq, Bool.and_eq_true] at hdelim
              rw [show (terminated config bytes).length - 1 = cell.stop by omega,
                hproper.not_term _ hdelim.1] at hterm
              cases hterm
            rw [hstep, if_neg Bool.false_ne_true, ← ih hcell'' (fun hnil => by simp at hnil)
              fun _ => hinner, heq]
            rfl
        | true =>
            have hinner := bound_lt_length hat hbound hlt
            obtain ⟨-, hterms, hend⟩ := hat.term hlast
            rw [hcell'.term hs h endian acc chunkEnd hcount hat hb hrow hlast, if_pos rfl]
            rcases handOut acc n (base + recordLo)
              (fields ++ [content config (terminated config bytes) cell]) state with
                ⟨state', err | ok⟩
            · rfl
            · simp only
              by_cases hdone : chunkEnd ≤ base + cell.stop
              · rw [if_pos hdone, if_pos (by omega), max_eq_right hdone]
              · rw [if_neg hdone]
                set s'' : RefState σ := {
                  dfaState := .recordStart
                  fields := []
                  field := []
                  recordInStart := base + recordLo
                  fieldInStart := base + cell.stop + 1
                  lastRecordEnd := some (base + cell.stop)
                  state := state' }
                have hblank := @run_blank config h endian σ acc chunkEnd base s'' bytes
                  (cell.stop + 1) (cell.bound + 1) rfl (by omega) fun k hk hk' => by
                    have hterm := hterms k (by omega) (by omega)
                    rw [Marks.termOoq, Bool.and_eq_true, marksOf_term,
                      getElem?_terminated (by omega), Option.any_eq_true] at hterm
                    exact hterm.1
                simp only
                rw [Nat.add_assoc, hblank]
                by_cases hpast : chunkEnd ≤ base + cell.bound
                · rw [if_pos ⟨by omega, by omega⟩, if_pos hpast, max_eq_left (by omega),
                    max_eq_left (by omega)]
                · rw [if_neg fun hboth => by omega, if_neg hpast]
                  refine ih (inCell_start h hstarts rfl rfl rfl rfl rfl fun hne => absurd rfl hne)
                    (fun _ => ⟨rfl, hend⟩) fun hne => absurd rfl hne
      · -- the field ends on a terminator spliced in
        obtain ⟨hlast, heq⟩ := last_of_spliced h hat hbound hge
        have hnil : cells = [] := by
          cases cells with
          | nil => rfl
          | cons next rest =>
              have hnext := hrest.bound_lt hproper List.mem_cons_self
              obtain ⟨hat', hle⟩ := hrest.cellAt List.mem_cons_self
              have hle' := hat'.lo_le_bound
              omega
        have hclosed : closed config (terminated config bytes) = true := by
          rw [closed, show (terminated config bytes).length = cell.stop + 1 by omega, lag_succ,
            hat.inQuotes_stop]
          rfl
        rw [run_spliced hs h endian acc chunkEnd hcount hat hbound hge hcell hrow, if_pos hlast]
        rcases handOut acc n (base + recordLo)
          (fields ++ [content config (terminated config bytes) cell]) state with
            ⟨state', err | ok⟩
        · rfl
        · simp only [hnil, emitCells, hclosed, if_true]
          split_ifs with hdone
          · rw [max_eq_right (by omega)]
          · rfl

/-- What the reference comes to on a body that starts on a record. -/
theorem refParse_eq_emitCells {bytes : Bytes} {cells : List Cell}
    (hcount : config.fieldCount = some n) (hblank : blankRun config bytes = 0)
    (hchain : (marksOf config (terminated config bytes)).Chain 0 cells) :
    refParse (reference endian config) acc chunkEnd base bytes state =
      emitCells acc n (content config (terminated config bytes))
        (closed config (terminated config bytes)) chunkEnd base cells 0 0 [] none state := by
  have hfirst : (marksOf config (terminated config bytes)).termOoq 0 = false := by
    cases bytes with
    | nil => rw [Marks.termOoq, marksOf_term, terminated_nil, List.getElem?_nil, Option.any_none,
        Bool.false_and]
    | cons b rest =>
        rw [blankRun, List.length_eq_zero_iff, List.takeWhile_eq_nil_iff] at hblank
        have hnot : config.isTerminator b = false := Bool.eq_false_of_not_eq_true (hblank (by simp))
        rw [Marks.termOoq, marksOf_term, getElem?_terminated (by simp), List.getElem?_cons_zero,
          Option.any_some, hnot, Bool.false_and]
  exact run_eq_emitCells hs h endian acc chunkEnd hcount hchain
    (inCell_start h hchain.starts rfl rfl rfl rfl rfl fun hne => absurd rfl hne)
    (fun _ => ⟨rfl, hfirst⟩) fun hne => absurd rfl hne

end Cells

end Automaton

/-! ## Rows -/

/-- The cells of a record of `n` fields. -/
structure Row (n : ℕ) where
  init : List Cell
  final : Cell
  length : init.length + 1 = n
  delims : ∀ cell ∈ init, cell.last = false
  term : final.last = true

namespace Row

variable {n : ℕ} (row : Row n)

def cells : List Cell := row.init ++ [row.final]

theorem length_cells : row.cells.length = n := by
  rw [cells, List.length_append, List.length_singleton, row.length]

theorem final_mem : row.final ∈ row.cells := List.mem_append_right _ List.mem_cons_self

theorem length_flatMap (rows : List (Row n)) : (rows.flatMap cells).length = rows.length * n := by
  induction rows with
  | nil => rw [List.flatMap_nil, List.length_nil, List.length_nil, Nat.zero_mul]
  | cons row rows ih =>
      rw [List.flatMap_cons, List.length_append, length_cells, ih, List.length_cons,
        Nat.succ_mul, Nat.add_comm]

theorem getElem?_flatMap (hn : 1 ≤ n) (rows : List (Row n)) (more : List Cell) {k : ℕ}
    (hk : k < rows.length) :
    (rows.flatMap cells ++ more)[(k + 1) * n - 1]? = rows[k]?.map final := by
  induction rows generalizing k with
  | nil => cases hk
  | cons row rows ih =>
      have hlength := row.length_cells
      rw [List.flatMap_cons, List.append_assoc]
      cases k with
      | zero =>
          have hinit := row.length
          rw [List.getElem?_append_left (by omega), cells, List.getElem?_append_right (by omega),
            show (0 + 1) * n - 1 - row.init.length = 0 by omega]
          rfl
      | succ k =>
          have hmul : (k + 1 + 1) * n = (k + 1) * n + n := Nat.succ_mul _ _
          have hpos : (k + 1) * n = k * n + n := Nat.succ_mul _ _
          rw [List.getElem?_append_right (by omega), hlength,
            show (k + 1 + 1) * n - 1 - n = (k + 1) * n - 1 by omega, List.getElem?_cons_succ]
          exact ih (Nat.lt_of_succ_lt_succ hk)

/-- Cells of which each `n`-th ends a record, and no other, make rows. -/
theorem exists_rows (hn : 1 ≤ n) (count : ℕ) (fields : List Cell)
    (hkinds : ∀ i < count * n, ∃ cell, fields[i]? = some cell ∧
      (cell.last = true ↔ i % n = n - 1)) :
    ∃ (rows : List (Row n)) (more : List Cell), rows.length = count ∧
      fields = rows.flatMap cells ++ more := by
  induction count generalizing fields with
  | zero => exact ⟨[], fields, rfl, rfl⟩
  | succ count ih =>
      rw [Nat.succ_mul] at hkinds
      obtain ⟨final, hfinal, hlast⟩ := hkinds (n - 1) (by omega)
      rw [Nat.mod_eq_of_lt (by omega)] at hlast
      have hlong := (List.getElem?_eq_some_iff.mp hfinal).1
      obtain ⟨rows, more, hcount, hrest⟩ := ih (fields.drop n) fun i hi => by
        obtain ⟨cell, hcell, hkind⟩ := hkinds (n + i) (by omega)
        rw [Nat.add_mod_left] at hkind
        exact ⟨cell, by rw [List.getElem?_drop, hcell], hkind⟩
      refine ⟨⟨fields.take (n - 1), final, ?_, ?_, hlast.mpr rfl⟩ :: rows, more, ?_, ?_⟩
      · rw [List.length_take]
        omega
      · intro cell hcell
        obtain ⟨i, hi, hget⟩ := List.mem_take_iff_getElem.mp hcell
        obtain ⟨other, hother, hkind⟩ := hkinds i (by omega)
        rw [List.getElem?_eq_getElem (by omega), hget, Option.some.injEq] at hother
        rw [Nat.mod_eq_of_lt (by omega), ← hother] at hkind
        exact Bool.eq_false_of_not_eq_true fun htrue => by
          have heq := hkind.mp htrue
          omega
      · rw [List.length_cons, hcount]
      · rw [List.flatMap_cons, cells, List.append_assoc, List.append_assoc, ← hrest]
        have hdrop : fields.drop (n - 1) = final :: fields.drop n := by
          rw [List.drop_eq_getElem_cons hlong, Nat.sub_add_cancel hn]
          rw [List.getElem?_eq_getElem hlong, Option.some.injEq] at hfinal
          rw [hfinal]
        rw [List.singleton_append, ← hdrop, List.take_append_drop]

/-- Rows leave the verifier where it started. -/
theorem phaseAfter_flatMap (hn : 1 ≤ n) (rows : List (Row n)) (more : List Bool) :
    phaseAfter n 0 ((rows.flatMap cells).map Cell.last ++ more) = phaseAfter n 0 more := by
  induction rows with
  | nil => rfl
  | cons row rows ih =>
      have hlength := row.length
      have hdelims : row.init.map Cell.last = List.replicate row.init.length false := by
        rw [List.eq_replicate_iff, List.length_map]
        refine ⟨rfl, fun isTerm hmem => ?_⟩
        obtain ⟨cell, hcell, rfl⟩ := List.mem_map.mp hmem
        exact row.delims cell hcell
      rw [List.flatMap_cons, cells, List.map_append, List.map_append, hdelims, List.append_assoc,
        List.append_assoc, phaseAfter_delimiters (by omega), if_pos (by omega), Nat.zero_add,
        List.map_singleton, List.singleton_append, phaseAfter, row.term,
        decide_eq_true hlength, if_pos rfl, if_pos rfl, ih]

end Row

section Rows

variable {σ : Type} (acc : Accumulator σ) {n : ℕ} (fieldOf : Cell → Bytes) (closed : Bool)
  (chunkEnd base : ℕ)

/-- Hand out records until one is rejected. -/
def emitRows : List Record → σ → σ × Except Error Unit
  | [], state => (state, .ok ())
  | record :: records, state =>
      match (acc state record).result with
      | .error err => ((acc state record).state, .error (Error.fromUser err))
      | .ok () => emitRows records (acc state record).state

/-- The accumulator rejected a record, with that error, and left that state. -/
def Rejects (state : σ) (err : Error) : Prop :=
  ∃ before record boxed, (acc before record).result = .error boxed ∧
    (acc before record).state = state ∧ err = Error.fromUser boxed

theorem rejects_of_emitRows {records : List Record} {state state' : σ} {err : Error}
    (h : emitRows acc records state = (state', .error err)) : Rejects acc state' err := by
  induction records generalizing state with
  | nil => cases h
  | cons record records ih =>
      rw [emitRows] at h
      cases hresult : (acc state record).result with
      | ok =>
          rw [hresult] at h
          exact ih h
      | error boxed =>
          rw [hresult] at h
          obtain ⟨hstate, herr⟩ := Prod.mk.inj h
          exact ⟨state, record, boxed, hresult, hstate, (Except.error.inj herr).symm⟩

theorem emitRows_append (front back : List Record) (state : σ) :
    emitRows acc (front ++ back) state =
      match emitRows acc front state with
      | (state, .error err) => (state, .error err)
      | (state, .ok ()) => emitRows acc back state := by
  induction front generalizing state with
  | nil => rfl
  | cons record front ih =>
      rw [List.cons_append, emitRows, emitRows]
      cases (acc state record).result with
      | error err => rfl
      | ok => exact ih _

theorem emitCells_delims (init cells : List Cell) (hinit : ∀ cell ∈ init, cell.last = false)
    (lo recordLo : ℕ) (fields : Record) (lastRecordEnd : Option ℕ) (state : σ) :
    emitCells acc n fieldOf closed chunkEnd base (init ++ cells) lo recordLo fields lastRecordEnd
        state =
      emitCells acc n fieldOf closed chunkEnd base cells (Marks.behind lo init) recordLo
        (fields ++ init.map fieldOf) lastRecordEnd state := by
  induction init generalizing lo fields with
  | nil => rw [List.nil_append, List.map_nil, List.append_nil, Marks.behind_nil]
  | cons cell init ih =>
      rw [List.forall_mem_cons] at hinit
      rw [List.cons_append, emitCells, hinit.1, if_neg Bool.false_ne_true, ih hinit.2,
        List.append_assoc]
      rfl

theorem emitCells_row (row : Row n) (cells : List Cell) (lo recordLo : ℕ)
    (lastRecordEnd : Option ℕ) (state : σ) :
    emitCells acc n fieldOf closed chunkEnd base (row.cells ++ cells) lo recordLo [] lastRecordEnd
        state =
      match (acc state (row.cells.map fieldOf)).result with
      | .error err => ((acc state (row.cells.map fieldOf)).state, .error (Error.fromUser err))
      | .ok () =>
          if chunkEnd ≤ base + row.final.bound then
            ((acc state (row.cells.map fieldOf)).state,
              .ok (some (max chunkEnd (base + row.final.stop))))
          else emitCells acc n fieldOf closed chunkEnd base cells (row.final.bound + 1)
            (row.final.bound + 1) [] (some (base + row.final.stop))
            (acc state (row.cells.map fieldOf)).state := by
  have hrecord : ([] : Record) ++ row.init.map fieldOf ++ [fieldOf row.final] =
      row.cells.map fieldOf := by
    rw [Row.cells, List.map_append, List.nil_append]
    rfl
  have hlength : (row.cells.map fieldOf).length = n := by rw [List.length_map, row.length_cells]
  rw [Row.cells, List.append_assoc,
    emitCells_delims acc fieldOf closed chunkEnd base _ _ row.delims, List.singleton_append,
    emitCells, row.term, if_pos rfl, ← Row.cells, hrecord, handOut, if_pos hlength]
  cases (acc state (row.cells.map fieldOf)).result <;> rfl

/-- The place behind the rows, and what their last record's end is reported as. -/
def endOf (base : ℕ) (rows : List (Row n)) (lastRecordEnd : Option ℕ) : Option ℕ :=
  (rows.getLast?.map fun row => base + row.final.stop).or lastRecordEnd

theorem emitCells_rows (rows : List (Row n)) (cells : List Cell)
    (hrows : ∀ row ∈ rows, base + row.final.bound < chunkEnd) (lo : ℕ)
    (lastRecordEnd : Option ℕ) (state : σ) :
    emitCells acc n fieldOf closed chunkEnd base (rows.flatMap Row.cells ++ cells) lo lo []
        lastRecordEnd state =
      match emitRows acc (rows.map fun row => row.cells.map fieldOf) state with
      | (state, .error err) => (state, .error err)
      | (state, .ok ()) =>
          emitCells acc n fieldOf closed chunkEnd base cells
            (Marks.behind lo (rows.flatMap Row.cells)) (Marks.behind lo (rows.flatMap Row.cells)) []
            (endOf base rows lastRecordEnd) state := by
  induction rows generalizing lo lastRecordEnd state with
  | nil => rfl
  | cons row rows ih =>
      rw [List.forall_mem_cons] at hrows
      have hbehind : Marks.behind lo (row.cells ++ rows.flatMap Row.cells) =
          Marks.behind (row.final.bound + 1) (rows.flatMap Row.cells) := by
        rw [Marks.behind_append, Row.cells, Marks.behind_append]
        rfl
      have hend : endOf base (row :: rows) lastRecordEnd =
          endOf base rows (some (base + row.final.stop)) := by
        rw [endOf, endOf, List.getLast?_cons]
        cases rows.getLast? <;> rfl
      rw [List.flatMap_cons, List.append_assoc, emitCells_row, List.map_cons, emitRows]
      cases (acc state (row.cells.map fieldOf)).result with
      | error err => rfl
      | ok =>
          simp only
          rw [if_neg (by omega), ih hrows.2, ← hbehind, hend]

/-! ## Texts that are not made of rows -/

variable {acc fieldOf closed chunkEnd base}

/-- A record that has grown too long is never handed out. -/
theorem emitCells_long {cells : List Cell} {lo recordLo : ℕ} {fields : Record}
    {lastRecordEnd : Option ℕ} {state : σ} (hlong : n ≤ fields.length)
    (hend : closed = true → ∀ cell, cells.getLast? = some cell → cell.last = true)
    (hmore : closed = true → cells ≠ []) :
    ∃ state' err, emitCells acc n fieldOf closed chunkEnd base cells lo recordLo fields
      lastRecordEnd state = (state', .error err) := by
  induction cells generalizing lo fields with
  | nil =>
      have hopen : closed = false := by
        by_contra htrue
        exact hmore (Bool.eq_true_of_not_eq_false htrue) rfl
      rw [emitCells, hopen]
      exact ⟨_, _, rfl⟩
  | cons cell cells ih =>
      rw [emitCells]
      cases hlast : cell.last with
      | false =>
          rw [if_neg Bool.false_ne_true]
          refine ih (by rw [List.length_append]; omega) (fun hclosed other hother => ?_)
            fun hclosed hnil => ?_
          · refine hend hclosed other ?_
            rw [List.getLast?_cons, hother]
            rfl
          · have hself := hend hclosed cell (by rw [hnil]; rfl)
            rw [hlast] at hself
            cases hself
      | true =>
          rw [if_pos rfl, handOut,
            if_neg (by rw [List.length_append, List.length_singleton]; omega)]
          exact ⟨_, _, rfl⟩

/-- A text that parses to its end consists of rows, out of quotes. -/
theorem emitCells_ok {cells : List Cell} {lo recordLo : ℕ} {fields : Record}
    {lastRecordEnd : Option ℕ} {state state' : σ} {next : Option ℕ}
    (hshort : fields.length < n) (hpast : ∀ cell ∈ cells, base + cell.bound < chunkEnd)
    (hend : closed = true → ∀ cell, cells.getLast? = some cell → cell.last = true)
    (hmore : closed = true → fields ≠ [] → cells ≠ [])
    (hok : emitCells acc n fieldOf closed chunkEnd base cells lo recordLo fields lastRecordEnd
      state = (state', .ok next)) :
    closed = true ∧ phaseAfter n fields.length (cells.map Cell.last) = some 0 := by
  induction cells generalizing lo recordLo fields lastRecordEnd state with
  | nil =>
      rw [emitCells] at hok
      split_ifs at hok with hclosed
      · refine ⟨hclosed, ?_⟩
        have hfields : fields = [] := by
          by_contra hne
          exact hmore hclosed hne rfl
        rw [hfields]
        rfl
      · cases hok
  | cons cell cells ih =>
      rw [List.forall_mem_cons] at hpast
      have hend' : closed = true → ∀ cell, cells.getLast? = some cell → cell.last = true := by
        intro hclosed other hother
        refine hend hclosed other ?_
        rw [List.getLast?_cons, hother]
        rfl
      rw [emitCells] at hok
      rw [List.map_cons, phaseAfter]
      cases hlast : cell.last with
      | false =>
          rw [hlast, if_neg Bool.false_ne_true] at hok
          have hmore' : closed = true → cells ≠ [] := by
            intro hclosed hnil
            have hself := hend hclosed cell (by rw [hnil]; rfl)
            rw [hlast] at hself
            cases hself
          have hne : fields.length + 1 ≠ n := by
            intro heq
            obtain ⟨_, _, herr⟩ := @emitCells_long _ acc n fieldOf closed chunkEnd base cells
              (cell.bound + 1) recordLo (fields ++ [fieldOf cell]) lastRecordEnd state
              (by rw [List.length_append, List.length_singleton]; omega) hend' hmore'
            have hfalse := hok.symm.trans herr
            cases hfalse
          have hrest := ih (by rw [List.length_append, List.length_singleton]; omega) hpast.2 hend'
            (fun hclosed _ => hmore' hclosed) hok
          rw [List.length_append, List.length_singleton] at hrest
          rw [decide_eq_false hne, if_pos rfl, if_neg Bool.false_ne_true]
          exact hrest
      | true =>
          rw [hlast, if_pos rfl, handOut] at hok
          by_cases hlength : (fields ++ [fieldOf cell]).length = n
          · rw [if_pos hlength] at hok
            rw [List.length_append, List.length_singleton] at hlength
            rw [decide_eq_true hlength, if_pos rfl, if_pos rfl]
            cases hverdict : (acc state (fields ++ [fieldOf cell])).result with
            | error err =>
                rw [hverdict] at hok
                cases hok
            | ok =>
                rw [hverdict] at hok
                simp only [Except.mapError] at hok
                rw [if_neg (by omega)] at hok
                exact ih (by rw [List.length_nil]; omega) hpast.2 hend'
                  (fun _ hne => absurd rfl hne) hok
          · rw [if_neg hlength] at hok
            cases hok

end Rows

end Csveee.Simd
