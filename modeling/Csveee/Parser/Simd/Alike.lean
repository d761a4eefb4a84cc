import Csveee.Parser.Simd.Locate

/-!
# Failing alike

What the two backends report of a text that neither of them parses.  The byte automaton
counts the fields of a record where it ends, the vectorized parser as it goes; so the two
name the same record, unless it never ends.
-/

namespace Csveee

/-- The same variant, at the same byte offset. -/
def Error.alike : Error → Error → Bool
  | .numberOfFields _ _ offset, .numberOfFields _ _ offset' => offset == offset'
  | .utf8 offset, .utf8 offset' => offset == offset'
  | .invalidQuote offset, .invalidQuote offset' => offset == offset'
  | .unclosedQuote offset, .unclosedQuote offset' => offset == offset'
  | .io _, .io _ | .invalidConfig _, .invalidConfig _ | .user _, .user _ => true
  | _, _ => false

namespace Simd

open Positions Dfa

/-! ## What emission reports -/

section Emission

variable {σ : Type} {acc : Accumulator σ} {n : ℕ} {fieldOf : Cell → Bytes} {closed : Bool}
  {chunkEnd base : ℕ}

/-- An error is met in a longer chunk as well. -/
theorem emitCells_error_mono {chunkEnd' : ℕ} (hle : chunkEnd ≤ chunkEnd') {cells : List Cell}
    {lo recordLo : ℕ} {fields : Record} {last : Option ℕ} {state state' : σ} {err : Error}
    (h : emitCells acc n fieldOf closed chunkEnd base cells lo recordLo fields last state =
      (state', .error err)) :
    emitCells acc n fieldOf closed chunkEnd' base cells lo recordLo fields last state =
      (state', .error err) := by
  induction cells generalizing lo recordLo fields last state with
  | nil => exact h
  | cons cell cells ih =>
      rw [emitCells] at h ⊢
      cases hlast : cell.last with
      | false =>
          rw [hlast, if_neg Bool.false_ne_true] at h
          rw [if_neg Bool.false_ne_true]
          exact ih h
      | true =>
          rw [hlast, if_pos rfl] at h
          rw [if_pos rfl]
          generalize handOut acc n (base + recordLo) (fields ++ [fieldOf cell]) state = handed
            at h ⊢
          obtain ⟨left, failed | accepted⟩ := handed
          · exact h
          · simp only at h ⊢
            split_ifs at h with hreached
            · cases h
            · rw [if_neg (by omega)]
              exact ih h

/-- A record that has grown too long stays so. -/
theorem phaseAfter_ge {phase phase' : ℕ} {kinds : List Bool} (hlong : n ≤ phase)
    (h : phaseAfter n phase kinds = some phase') : n ≤ phase' := by
  induction kinds generalizing phase with
  | nil =>
      cases h
      exact hlong
  | cons kind kinds ih =>
      rw [phaseAfter, decide_eq_false (by omega)] at h
      cases kind with
      | false => exact ih (Nat.le_succ_of_le hlong) h
      | true => cases h

/-- A record that has grown too long is reported, or the field that is not closed. -/
theorem emitCells_error_long {cells : List Cell} {lo recordLo : ℕ} {fields : Record}
    {last : Option ℕ} {state state' : σ} {err : Error} (hlong : n ≤ fields.length)
    (h : emitCells acc n fieldOf closed chunkEnd base cells lo recordLo fields last state =
      (state', .error err)) :
    (∃ found, err = .numberOfFields n found (base + recordLo)) ∨
      ∃ offset, err = .unclosedQuote offset := by
  induction cells generalizing lo fields with
  | nil =>
      rw [emitCells] at h
      split_ifs at h
      · cases h
      · cases h
        exact Or.inr ⟨_, rfl⟩
  | cons cell cells ih =>
      rw [emitCells] at h
      have hlonger : n < (fields ++ [fieldOf cell]).length := by
        rw [List.length_append, List.length_singleton]
        omega
      cases hlast : cell.last with
      | false =>
          rw [hlast, if_neg Bool.false_ne_true] at h
          exact ih hlonger.le h
      | true =>
          rw [hlast, if_pos rfl, handOut, if_neg hlonger.ne'] at h
          cases h
          exact Or.inl ⟨_, rfl⟩

variable (haccepts : ∀ state record, (acc state record).result = .ok ())

include haccepts

theorem handOut_accepted {start : ℕ} {fields : Record} (hlength : fields.length = n) (state : σ) :
    handOut acc n start fields state = ((acc state fields).state, .ok ()) := by
  rw [handOut, if_pos hlength, haccepts]
  rfl

/-- What is reported of records that have their fields, and a field that is not closed. -/
theorem emitCells_open {cells : List Cell} {lo recordLo : ℕ} {fields : Record}
    {last : Option ℕ} {state : σ} (hpast : ∀ cell ∈ cells, base + cell.bound < chunkEnd)
    {phase : ℕ} (hphase : phaseAfter n fields.length (cells.map Cell.last) = some phase) :
    ∃ state', emitCells acc n fieldOf false chunkEnd base cells lo recordLo fields last state =
      (state', .error (.unclosedQuote (base + Marks.behind lo cells))) := by
  induction cells generalizing lo recordLo fields last state with
  | nil => exact ⟨state, rfl⟩
  | cons cell cells ih =>
      rw [List.forall_mem_cons] at hpast
      rw [List.map_cons, phaseAfter] at hphase
      rw [emitCells, Marks.behind_cons]
      have hlength : (fields ++ [fieldOf cell]).length = fields.length + 1 := by
        rw [List.length_append, List.length_singleton]
      split_ifs at hphase with hkind hlast
      · rw [hlast] at hkind
        rw [if_pos hlast, handOut_accepted haccepts
          (hlength.trans (of_decide_eq_true hkind.symm))]
        simp only
        rw [if_neg (by omega)]
        exact ih hpast.2 hphase
      · rw [if_neg hlast]
        exact ih hpast.2 (by rw [hlength]; exact hphase)

/-- A record is reported for its fields: its boundaries, and those in front, are not those of
records of `n` fields. -/
theorem emitCells_misplaced {cells : List Cell} {lo recordLo : ℕ} {fields : Record}
    {last : Option ℕ} {state state' : σ} {expected found offset : ℕ}
    (h : emitCells acc n fieldOf closed chunkEnd base cells lo recordLo fields last state =
      (state', .error (.numberOfFields expected found offset))) :
    ∃ front final more, cells = front ++ final :: more ∧ final.last = true ∧
      phaseAfter n fields.length ((front ++ [final]).map Cell.last) = none := by
  induction cells generalizing lo recordLo fields last state with
  | nil =>
      rw [emitCells] at h
      split_ifs at h <;> cases h
  | cons cell cells ih =>
      have hlength : (fields ++ [fieldOf cell]).length = fields.length + 1 := by
        rw [List.length_append, List.length_singleton]
      rw [emitCells] at h
      cases hlast : cell.last with
      | false =>
          rw [hlast, if_neg Bool.false_ne_true] at h
          obtain ⟨front, final, more, rfl, hfinal, hphase⟩ := ih h
          rw [hlength] at hphase
          refine ⟨cell :: front, final, more, rfl, hfinal, ?_⟩
          rw [List.cons_append, List.map_cons, phaseAfter, hlast, if_neg Bool.false_ne_true, hphase,
            ite_self]
      | true =>
          rw [hlast, if_pos rfl] at h
          by_cases hfull : fields.length + 1 = n
          · rw [handOut_accepted haccepts (hlength.trans hfull)] at h
            simp only at h
            split_ifs at h
            · cases h
            · obtain ⟨front, final, more, rfl, hfinal, hphase⟩ := ih h
              refine ⟨cell :: front, final, more, rfl, hfinal, ?_⟩
              rw [List.length_nil] at hphase
              rw [List.cons_append, List.map_cons, phaseAfter, hlast, if_pos rfl, hphase, ite_self]
          · refine ⟨[], cell, cells, rfl, hlast, ?_⟩
            rw [List.nil_append, List.map_singleton, phaseAfter, hlast, decide_eq_false hfull,
              if_neg Bool.false_ne_true.symm]

/-- A field is reported as not closed: all records that end have their fields. -/
theorem emitCells_unclosed (hn : 1 ≤ n) {cells : List Cell} {lo recordLo : ℕ} {fields : Record}
    {last : Option ℕ} {state state' : σ} {offset : ℕ}
    (h : emitCells acc n fieldOf closed chunkEnd base cells lo recordLo fields last state =
      (state', .error (.unclosedQuote offset))) :
    closed = false ∧ ∃ front behind, cells = front ++ behind ∧
      (∀ cell ∈ behind, cell.last = false) ∧
      (front = [] ∨ phaseAfter n fields.length (front.map Cell.last) = some 0) := by
  induction cells generalizing lo recordLo fields last state with
  | nil =>
      rw [emitCells] at h
      cases closed with
      | true => cases h
      | false =>
          exact ⟨rfl, [], [], rfl, fun cell hcell => (List.not_mem_nil hcell).elim, Or.inl rfl⟩
  | cons cell cells ih =>
      have hlength : (fields ++ [fieldOf cell]).length = fields.length + 1 := by
        rw [List.length_append, List.length_singleton]
      rw [emitCells] at h
      cases hlast : cell.last with
      | false =>
          rw [hlast, if_neg Bool.false_ne_true] at h
          obtain ⟨hopen, front, behind, rfl, hbehind, hfront⟩ := ih h
          refine ⟨hopen, ?_⟩
          rcases hfront with rfl | hphase
          · refine ⟨[], cell :: behind, rfl, ?_, Or.inl rfl⟩
            rw [List.forall_mem_cons]
            exact ⟨hlast, hbehind⟩
          · rw [hlength] at hphase
            refine ⟨cell :: front, behind, rfl, hbehind, Or.inr ?_⟩
            have hshort : fields.length + 1 ≠ n := by
              intro hfull
              have hmany := phaseAfter_ge hfull.ge hphase
              omega
            rw [List.map_cons, phaseAfter, hlast, decide_eq_false hshort, if_pos rfl,
              if_neg Bool.false_ne_true, hphase]
      | true =>
          rw [hlast, if_pos rfl] at h
          by_cases hfull : fields.length + 1 = n
          · rw [handOut_accepted haccepts (hlength.trans hfull)] at h
            simp only at h
            split_ifs at h
            · cases h
            · obtain ⟨hopen, front, behind, rfl, hbehind, hfront⟩ := ih h
              refine ⟨hopen, cell :: front, behind, rfl, hbehind, Or.inr ?_⟩
              rw [List.map_cons, phaseAfter, hlast, decide_eq_true hfull, if_pos rfl, if_pos rfl]
              rcases hfront with rfl | hphase
              · rfl
              · exact hphase
          · rw [handOut, if_neg (by rw [hlength]; exact hfull)] at h
            cases h

end Emission

/-! ## The record that is reported -/

section Reported

variable {marks : Marks} {m n lo hi : ℕ} {cells : List Cell}

theorem Marks.Chain.kindsIn (hproper : marks.Proper n) (hchain : marks.Chain lo cells) (hi : ℕ) :
    marks.kindsIn lo hi =
      (cells.takeWhile fun cell => decide (cell.bound < hi)).map Cell.last := by
  rw [Marks.kindsIn, hchain.positions_dStruct hproper, List.map_map]
  apply List.map_congr_left
  intro cell hcell
  exact (hchain.cellAt ((List.takeWhile_sublist _).mem hcell)).1.runEnd_bound hproper

/-- Boundaries of a range, as cells. -/
theorem Marks.Chain.split (hproper : marks.Proper n) (hchain : marks.Chain lo cells) {hi : ℕ}
    {kinds : List Bool} (hkinds : marks.kindsIn lo hi = kinds) :
    ∃ front more, cells = front ++ more ∧ front.map Cell.last = kinds ∧
      ∀ cell ∈ front, cell.bound < hi := by
  refine ⟨cells.takeWhile fun cell => decide (cell.bound < hi),
    cells.dropWhile fun cell => decide (cell.bound < hi), ?_, ?_, ?_⟩
  · rw [List.takeWhile_append_dropWhile]
  · rw [← hchain.kindsIn hproper hi, hkinds]
  · intro cell hcell
    have hlt := List.mem_takeWhile_imp hcell
    exact of_decide_eq_true hlt

theorem delims_of_kinds {init : List Cell} {k : ℕ}
    (hkinds : init.map Cell.last = List.replicate k false) :
    (∀ cell ∈ init, cell.last = false) ∧ init.length = k := by
  rw [List.eq_replicate_iff, List.length_map] at hkinds
  exact ⟨fun cell hcell => hkinds.2 _ (List.mem_map_of_mem hcell), hkinds.1⟩

/-- A record, as cells: its delimiters, and where it ends. -/
theorem Marks.Chain.split_record (hproper : marks.Proper n) (hchain : marks.Chain lo cells)
    {hi k : ℕ} (hkinds : marks.kindsIn lo hi = List.replicate k false ++ [true]) :
    ∃ init final more, cells = init ++ final :: more ∧ (∀ cell ∈ init, cell.last = false) ∧
      init.length = k ∧ final.last = true ∧ final.bound < hi := by
  obtain ⟨front, more, rfl, hfront, hlt⟩ := hchain.split hproper hkinds
  obtain ⟨init, ends, rfl, hinit, hends⟩ := List.map_eq_append_iff.mp hfront
  obtain ⟨final, rfl, hfinal⟩ := List.map_eq_singleton_iff.mp hends
  obtain ⟨hdelims, hlength⟩ := delims_of_kinds hinit
  refine ⟨init, final, more, ?_, hdelims, hlength, hfinal, hlt final ?_⟩
  · rw [List.append_assoc, List.singleton_append]
  · exact List.mem_append_right _ List.mem_cons_self

/-- A run of terminators comes to an end. -/
theorem exists_runEnd (hproper : marks.Proper n) (hterm : marks.termOoq lo = true) :
    ∃ hi, lo < hi ∧ (∀ i, lo ≤ i → i < hi → marks.termOoq i = true) ∧
      marks.termOoq hi = false := by
  have hexists : ∃ k, marks.termOoq (lo + 1 + k) = false := by
    refine ⟨n, ?_⟩
    rw [Marks.termOoq, (hproper.past (lo + 1 + n) (by omega)).2.1, Bool.false_and]
  refine ⟨lo + 1 + Nat.find hexists, by omega, fun i hge hlt => ?_, Nat.find_spec hexists⟩
  rcases Nat.lt_or_eq_of_le hge with hlt' | rfl
  · have hnot := Nat.find_min hexists (show i - (lo + 1) < Nat.find hexists by omega)
    rw [Nat.add_sub_cancel' (by omega), Bool.not_eq_false] at hnot
    exact hnot
  · exact hterm

variable {σ : Type} {acc : Accumulator σ} {fieldOf : Cell → Bytes} {closed : Bool}
  {chunkEnd base recordLo : ℕ} {last : Option ℕ} {state state' : σ} {err : Error}

/-- A record that ends with too few fields or too many. -/
theorem emitCells_wrong {init : List Cell} {final : Cell} {more : List Cell}
    (hdelims : ∀ cell ∈ init, cell.last = false) (hfinal : final.last = true)
    (hwrong : init.length + 1 ≠ n) :
    emitCells acc n fieldOf closed chunkEnd base (init ++ final :: more) lo recordLo [] last state =
      (state, .error (.numberOfFields n (init.length + 1) (base + recordLo))) := by
  have hlength : (([] : Record) ++ init.map fieldOf ++ [fieldOf final]).length =
      init.length + 1 := by
    rw [List.nil_append, List.length_append, List.length_map, List.length_singleton]
  rw [emitCells_delims acc fieldOf closed chunkEnd base _ _ hdelims, emitCells, hfinal, if_pos rfl,
    handOut, hlength, if_neg hwrong]

theorem emitCells_right (haccepts : ∀ state record, (acc state record).result = .ok ())
    {init : List Cell} {final : Cell} {more : List Cell}
    (hdelims : ∀ cell ∈ init, cell.last = false) (hfinal : final.last = true)
    (hright : init.length + 1 = n) (hbefore : base + final.bound < chunkEnd) :
    ∃ left, emitCells acc n fieldOf closed chunkEnd base (init ++ final :: more) lo recordLo [] last
        state =
      emitCells acc n fieldOf closed chunkEnd base more (final.bound + 1) (final.bound + 1) []
        (some (base + final.stop)) left := by
  have hlength : (([] : Record) ++ init.map fieldOf ++ [fieldOf final]).length = n := by
    rw [List.nil_append, List.length_append, List.length_map, List.length_singleton, hright]
  refine ⟨(acc state (([] : Record) ++ init.map fieldOf ++ [fieldOf final])).state, ?_⟩
  rw [emitCells_delims acc fieldOf closed chunkEnd base _ _ hdelims, emitCells, hfinal, if_pos rfl,
    handOut_accepted haccepts hlength]
  simp only
  rw [if_neg (by omega)]

/-- A record that has too many fields already. -/
theorem emitCells_overfull {mid fields : ℕ} {inQuotes : Bool} (hproper : marks.Proper m)
    (hchain : marks.Chain lo cells) (hcounted : Counted marks lo mid fields inQuotes)
    (hmany : n < fields)
    (herr : emitCells acc n fieldOf closed chunkEnd base cells lo lo [] last state =
      (state', .error err)) :
    (∃ found, err = .numberOfFields n found (base + lo)) ∨
      ∃ offset, err = .unclosedQuote offset := by
  obtain ⟨init, more, rfl, hkinds, -⟩ := hchain.split hproper hcounted.kindsIn
  obtain ⟨hdelims, hcount⟩ := delims_of_kinds hkinds
  rw [emitCells_delims acc fieldOf closed chunkEnd base _ _ hdelims] at herr
  refine emitCells_error_long ?_ herr
  rw [List.nil_append, List.length_map]
  omega

/-- A record that ends with a wrong number of fields. -/
theorem emitCells_misfit {mid fields : ℕ} {inQuotes : Bool} (hproper : marks.Proper m)
    (hchain : marks.Chain lo cells) (hcounted : Counted marks lo mid fields inQuotes)
    (hlo : lo ≤ mid) (hterm : marks.termOoq mid = true) (hne : fields ≠ n)
    (herr : emitCells acc n fieldOf closed chunkEnd base cells lo lo [] last state =
      (state', .error err)) :
    ∃ found, err = .numberOfFields n found (base + lo) := by
  obtain ⟨hi, hlt, hrun, hend⟩ := exists_runEnd hproper hterm
  have hkinds := hcounted.kindsIn_record hproper hlo hlt hrun
  rw [hend, if_neg Bool.false_ne_true] at hkinds
  obtain ⟨init, final, more, rfl, hdelims, hcount, hfinal, -⟩ :=
    hchain.split_record hproper hkinds
  have hpos := hcounted.pos
  rw [emitCells_wrong hdelims hfinal (by omega)] at herr
  cases herr
  exact ⟨_, rfl⟩

/-- The last cell of a record ends where the run behind it does. -/
theorem Counted.bound_final {mid hi fields : ℕ} {inQuotes : Bool} {final : Cell}
    (hproper : marks.Proper m) (hcounted : Counted marks lo mid fields inQuotes)
    (hat : marks.CellAt final) (hlo : lo ≤ final.bound) (hfinal : final.last = true)
    (hlt : final.bound < hi) (hrun : ∀ i, mid ≤ i → i < hi → marks.termOoq i = true) :
    final.bound + 1 = hi := by
  have hlast := hat.runEnd_bound hproper
  rw [hfinal, Marks.runEnd, lead, Bool.and_eq_true, Bool.not_eq_true'] at hlast
  rcases Nat.lt_or_ge final.bound mid with hin | hout
  · have hquiet := hcounted.quiet final.bound hlo hin
    rw [hlast.1] at hquiet
    cases hquiet
  · by_contra hne
    have hmore := hrun (final.bound + 1) (by omega) (by omega)
    rw [hlast.2] at hmore
    cases hmore

/-- A text that ends within a record of too few fields. -/
theorem emitCells_short {config : Config} (h : config.Distinct) {text : Bytes} {fields : ℕ}
    {inQuotes : Bool} (hchain : (marksOf config (terminated config text)).Chain lo cells)
    (hcounted : Counted (marksOf config (terminated config text)) lo text.length fields inQuotes)
    (hlo : lo ≤ text.length) (hfew : fields < n)
    (herr : emitCells acc n fieldOf closed chunkEnd base cells lo lo [] last state =
      (state', .error err)) :
    (∃ found, err = .numberOfFields n found (base + lo)) ∨
      ∃ offset, err = .unclosedQuote offset := by
  have hproper := @proper_marksOf config (terminated config text) h
  have hlength := length_terminated config text
  have hkinds := @kindsIn_append (marksOf config (terminated config text)) _ _ _ hlo
    (show text.length ≤ text.length + 1 by omega)
  rw [hcounted.kindsIn] at hkinds
  rcases kindsIn_end h (text.length + 1) with hnil | ⟨hlast, -⟩
  · -- nothing is spliced in, so a field is not closed
    have hwhole : cells.takeWhile (fun cell => decide (cell.bound < text.length + 1)) = cells := by
      rw [List.takeWhile_eq_self_iff]
      intro cell hcell
      have hbound := hchain.bound_lt hproper hcell
      exact decide_eq_true (by omega)
    rw [hnil, List.append_nil, hchain.kindsIn hproper, hwhole] at hkinds
    have hdelims := (delims_of_kinds hkinds.symm).1
    rw [← List.append_nil cells, emitCells_delims acc fieldOf closed chunkEnd base _ _ hdelims,
      emitCells] at herr
    split_ifs at herr
    · cases herr
    · cases herr
      exact Or.inr ⟨_, rfl⟩
  · rw [hlast] at hkinds
    obtain ⟨init, final, more, rfl, hdelims, hcount, hfinal, -⟩ :=
      hchain.split_record hproper hkinds.symm
    have hpos := hcounted.pos
    rw [emitCells_wrong hdelims hfinal (by omega)] at herr
    cases herr
    exact Or.inl ⟨_, rfl⟩

end Reported

/-- The record that the walk comes to is the one the byte automaton reports, unless that
reports a field that is not closed. -/
theorem FirstBad.reported {σ : Type} {config : Config} (h : config.Distinct) {text : Bytes}
    {n stop : ℕ} {acc : Accumulator σ} {fieldOf : Cell → Bytes} {closed : Bool}
    {chunkEnd base : ℕ} (haccepts : ∀ state record, (acc state record).result = .ok ())
    {bytes : Bytes} {skipped found : ℕ}
    (hbad : FirstBad config.delimiter config.isTerminator config.quote n
      (fun fields => n < fields ∨ fields < n ∧ stop = text.length) bytes skipped found)
    (hthere : ∃ c, bytes[skipped]? = some c) {lo : ℕ} (hstop : lo + bytes.length = stop)
    (hlong : stop ≤ text.length) (hbytes : ∀ i < bytes.length, text[lo + i]? = bytes[i]?)
    {cells : List Cell} (hchain : (marksOf config (terminated config text)).Chain lo cells)
    (hpast : ∀ cell ∈ cells, base + cell.bound < chunkEnd) {last : Option ℕ} {state state' : σ}
    {err : Error} (herr : emitCells acc n fieldOf closed chunkEnd base cells lo lo [] last state =
      (state', .error err)) :
    (∃ k, err = .numberOfFields n k (base + (lo + skipped))) ∨
      ∃ offset, err = .unclosedQuote offset := by
  have hproper := @proper_marksOf config (terminated config text) h
  have hlength := length_terminated config text
  induction hbad generalizing lo cells last state with
  | @here content rest fields inQuotes hcontent hend =>
      rw [List.length_append] at hstop
      have hcounted := hcontent.counted h hchain.starts.outside fun i hi => by
        rw [getElem?_terminated (by omega), hbytes i (by rw [List.length_append]; omega),
          List.getElem?_append_left hi]
      rcases hend with ⟨rfl, hmany | ⟨hfew, hall⟩⟩ | ⟨rfl, hterm, hne⟩
      · exact emitCells_overfull hproper hchain hcounted hmany herr
      · rw [List.length_nil, Nat.add_zero] at hstop
        rw [hstop, hall] at hcounted
        exact emitCells_short h hchain hcounted (by omega) hfew herr
      · obtain ⟨t, behind, rfl⟩ : ∃ t behind, rest = t :: behind := by
          cases rest with
          | nil => cases hterm
          | cons t behind => exact ⟨t, behind, rfl⟩
        rw [List.length_cons] at hstop
        have htext : text[lo + content.length]? = some t := by
          rw [hbytes _ (by rw [List.length_append, List.length_cons]; omega),
            List.getElem?_append_right le_rfl, Nat.sub_self]
          rfl
        have htermOoq := (outside_run hproper hcounted.inQuotes
          (Nat.le_succ (lo + content.length)) fun i hge hlt => by
            rw [show i = lo + content.length by omega, marksOf_term, getElem?_terminated (by omega),
              htext]
            exact hterm).2 (lo + content.length) le_rfl (Nat.lt_succ_self _)
        exact Or.inl (emitCells_misfit hproper hchain hcounted (Nat.le_add_right _ _) htermOoq hne
          herr)
  | @behind content run rest skipped found hcontent hrun hterms hnext hbad ih =>
      obtain ⟨hcontent', hrun', hrest⟩ := bytes_parts hbytes
      rw [List.length_append, List.length_append] at hstop
      have hrunPos := List.length_pos_iff.mpr hrun
      obtain ⟨c, hc⟩ := hthere
      rw [List.getElem?_append_right (by rw [List.length_append]; omega), List.length_append,
        Nat.add_sub_cancel_left] at hc
      have hrestPos : 0 < rest.length := by
        have hlt := (List.getElem?_eq_some_iff.mp hc).1
        omega
      have hcounted := hcontent.counted h hchain.starts.outside fun i hi => by
        rw [getElem?_terminated (by omega), hcontent' i hi]
      have hterm := term_of_run hterms (by omega) hrun'
      have hrunOoq := (outside_run hproper hcounted.inQuotes (Nat.le_add_right _ run.length)
        hterm).2
      generalize hq : lo + content.length + run.length = q at hrunOoq hterm hrest
      have hopen := not_term_behind h (hterm (q - 1) (by omega) (by omega)) (by omega) hrest
        hnext fun hnil => by
          rw [hnil, List.length_nil] at hrestPos
          omega
      have hkinds := hcounted.kindsIn_record hproper (show lo ≤ lo + content.length by omega)
        (show lo + content.length < q by omega) hrunOoq
      rw [hopen, if_neg Bool.false_ne_true] at hkinds
      obtain ⟨init, final, more, rfl, hdelims, hcount, hfinal, hlt⟩ :=
        hchain.split_record hproper hkinds
      have hmem : final ∈ init ++ final :: more :=
        List.mem_append_right _ List.mem_cons_self
      obtain ⟨hat, hle⟩ := hchain.cellAt hmem
      have hplace := hcounted.bound_final hproper hat (hle.trans hat.lo_le_bound) hfinal hlt
        hrunOoq
      have hpos := hcounted.pos
      obtain ⟨left, hright⟩ := @emitCells_right n lo _ acc fieldOf closed chunkEnd base lo last
        state haccepts init final more hdelims hfinal (by omega) (hpast final hmem)
      rw [hright, hplace] at herr
      rw [← List.singleton_append, ← List.append_assoc] at hchain
      have hchain' := hchain.append
      rw [Marks.behind_append, Marks.behind_cons, Marks.behind_nil, hplace] at hchain'
      have hresult := ih ⟨c, hc⟩ (by omega) hrest hchain' (fun cell hcell =>
        hpast cell (List.mem_append_right _ (List.mem_cons_of_mem _ hcell))) herr
      rwa [show lo + (content.length + run.length + skipped) = q + skipped by omega]

/-! ## A record that never ends -/

/-- The text ends in quotes, within a record that has too many fields already; all records in
front of it have `n`. -/
def EndsOverlong (config : Config) (n : ℕ) (text : Bytes) : Prop :=
  let marks := marksOf config (terminated config text)
  ∃ start fields, (start = 0 ∨ lag marks.runEnd start = true) ∧ start ≤ text.length ∧
    phaseAfter n 0 (marks.kindsIn 0 start) = some 0 ∧
    Counted marks start text.length fields true ∧ n < fields

section Overlong

variable {marks : Marks} {n m lo : ℕ}

theorem phase_of_record {phase : ℕ} (hrecord : lo = 0 ∨ lag marks.runEnd lo = true)
    (hphase : phaseAfter n 0 (marks.kindsIn 0 lo) = some phase) : phase = 0 := by
  cases lo with
  | zero =>
      rw [Marks.kindsIn, positions_of_le le_rfl] at hphase
      cases hphase
      rfl
  | succ k =>
      have hend : marks.runEnd k = true := hrecord.resolve_left (Nat.succ_ne_zero k)
      have hboundary : marks.dStruct k = true := by rw [Marks.dStruct, hend, Bool.or_true]
      rw [Marks.kindsIn, positions_succ (Nat.zero_le k), if_pos hboundary, List.map_append,
        phaseAfter_append, List.map_singleton, hend] at hphase
      cases hbefore : phaseAfter n 0 ((positions marks.dStruct 0 k).map marks.runEnd) with
      | none =>
          rw [hbefore] at hphase
          cases hphase
      | some before =>
          rw [hbefore, Option.bind_some, phaseAfter, if_pos rfl] at hphase
          split_ifs at hphase
          cases hphase
          rfl

/-- Boundaries that complete records from the start complete them from each record on. -/
theorem phase_from_record {hi phase : ℕ} (hrecord : lo = 0 ∨ lag marks.runEnd lo = true)
    (hle : lo ≤ hi) (hphase : phaseAfter n 0 (marks.kindsIn 0 hi) = some phase) :
    phaseAfter n 0 (marks.kindsIn lo hi) = some phase := by
  rw [← kindsIn_append (Nat.zero_le lo) hle, phaseAfter_append] at hphase
  cases hfront : phaseAfter n 0 (marks.kindsIn 0 lo) with
  | none =>
      rw [hfront] at hphase
      cases hphase
  | some front =>
      rw [hfront, phase_of_record hrecord hfront] at hphase
      exact hphase

theorem Marks.Chain.kindsIn_behind (hproper : marks.Proper m) {front back : List Cell}
    (hchain : marks.Chain lo (front ++ back)) :
    marks.kindsIn lo (Marks.behind lo front) = front.map Cell.last := by
  have hbefore : ∀ cell ∈ front, decide (cell.bound < Marks.behind lo front) = true :=
    fun cell hcell => decide_eq_true (hchain.bound_lt_behind hcell)
  have hafter : back.takeWhile (fun cell => decide (cell.bound < Marks.behind lo front)) = [] :=
    hchain.append.takeWhile_eq_nil (fun _ hcell => hcell.lo_le_bound) le_rfl
  rw [hchain.kindsIn hproper, List.takeWhile_append_of_pos hbefore, hafter, List.append_nil]

end Overlong

section Open

variable {config : Config} {text : Bytes} {n start fields : ℕ} (h : config.Distinct)
  (hcounted : Counted (marksOf config (terminated config text)) start text.length fields true)

include h hcounted

/-- In quotes to the end, no terminator ends a record any more. -/
theorem Counted.no_runEnd (i : ℕ) (hi : start ≤ i) :
    (marksOf config (terminated config text)).runEnd i = false := by
  have hproper := @proper_marksOf config (terminated config text) h
  have hlength := length_terminated config text
  have hterm : (marksOf config (terminated config text)).termOoq i = false := by
    rcases Nat.lt_trichotomy i text.length with hlt | rfl | hgt
    · exact hcounted.quiet i hi hlt
    · by_contra hterm
      rw [Bool.not_eq_false, Marks.termOoq, Bool.and_eq_true, Bool.not_eq_true',
        Marks.inQuotes_eq, hcounted.inQuotes, Bool.true_xor, Bool.not_eq_false'] at hterm
      have hnot := (hproper.quote _ hterm.2).2
      rw [hterm.1] at hnot
      cases hnot
    · rw [Marks.termOoq, (hproper.past i (by omega)).2.1, Bool.false_and]
  rw [Marks.runEnd, hterm, Bool.false_and]

/-- No record boundary lies behind. -/
theorem Counted.record_le {lo : ℕ} (hrecord : lo = 0 ∨
    lag (marksOf config (terminated config text)).runEnd lo = true) : lo ≤ start := by
  rcases hrecord with rfl | hend
  · exact Nat.zero_le start
  · by_contra hlt
    rw [← Nat.sub_add_cancel (show 1 ≤ lo by omega), lag_succ,
      hcounted.no_runEnd h _ (by omega)] at hend
    cases hend

end Open

/-! ## Two errors of one body -/

namespace Body

variable {σ : Type} {body : Body σ} {lo : ℕ} {rest : List Cell} {last : Option ℕ}

/-- In a text that ends overlong, the automaton reports no record for its fields. -/
theorem not_misplaced_of_overlong (hoverlong : EndsOverlong body.config body.n body.text)
    (haccepts : ∀ state record, (body.acc state record).result = .ok ()) {chunkEnd : ℕ}
    {state : σ} {expected found offset : ℕ} (hout : body.outcome chunkEnd =
      (state, .error (.numberOfFields expected found offset))) : False := by
  obtain ⟨start, fields, hrecord, -, hphase, hcounted, -⟩ := hoverlong
  obtain ⟨front, final, more, hcells, hfinal, hnone⟩ := emitCells_misplaced haccepts hout
  have hchain := body.chain
  rw [hcells, ← List.singleton_append, ← List.append_assoc] at hchain
  obtain ⟨hat, -⟩ := hchain.cellAt (show final ∈ _ from
    List.mem_append_left _ (List.mem_append_right _ List.mem_cons_self))
  have hend := hat.runEnd_bound body.proper
  rw [hfinal] at hend
  have hle : final.bound + 1 ≤ start := hcounted.record_le body.distinct (Or.inr hend)
  have hkinds := hchain.kindsIn_behind body.proper
  rw [Marks.behind_append, Marks.behind_cons, Marks.behind_nil] at hkinds
  rw [List.length_nil, ← hkinds] at hnone
  have hrejected := hphase.symm.trans (phaseAfter_front (Nat.zero_le _) hle hnone)
  cases hrejected

/-- In a text that ends overlong, the verifier does not get through. -/
theorem rejected_of_overlong (hoverlong : EndsOverlong body.config body.n body.text)
    {state : σ} (h : body.At lo rest last state) :
    phaseAfter body.n 0 (rest.map Cell.last) = none := by
  obtain ⟨start, fields, -, hstart, -, hcounted, hmany⟩ := hoverlong
  have hlength := body.length_ended
  have hle := hcounted.record_le body.distinct h.record
  have hn := body.n_pos
  rw [← takeWhile_all h.chain (le_refl body.ended.length), ← kinds_eq h.chain]
  change phaseAfter body.n 0 (body.marks.kindsIn lo body.ended.length) = none
  rw [← kindsIn_append hle (hstart.trans hlength.1), phaseAfter_append,
    ← kindsIn_append hstart hlength.1]
  cases hfront : phaseAfter body.n 0 (body.marks.kindsIn lo start) with
  | none => rfl
  | some phase =>
      have hphase := phaseAfter_lt (by omega) hfront
      have hkinds : body.marks.kindsIn start body.text.length =
          List.replicate (fields - 1) false := hcounted.kindsIn
      rw [Option.bind_some, hkinds, phaseAfter_delimiters hphase, if_neg (by omega)]

/-- Records that have their fields end on a record's end. -/
theorem record_of_phase {front back : List Cell} (hchain : body.marks.Chain 0 (front ++ back))
    (hphase : front = [] ∨ phaseAfter body.n 0 (front.map Cell.last) = some 0) :
    Marks.behind 0 front = 0 ∨ lag body.marks.runEnd (Marks.behind 0 front) = true := by
  rcases List.eq_nil_or_concat front with rfl | ⟨init, cell, rfl⟩
  · exact Or.inl rfl
  · rw [List.concat_eq_append] at hphase hchain ⊢
    refine Or.inr ?_
    obtain ⟨hat, -⟩ := hchain.cellAt (show cell ∈ _ from
      List.mem_append_left _ (List.mem_append_right _ List.mem_cons_self))
    rw [Marks.behind_append, Marks.behind_cons, Marks.behind_nil, lag_succ,
      hat.runEnd_bound body.proper]
    have hkinds := hphase.resolve_left (List.append_ne_nil_of_right_ne_nil _ (List.cons_ne_nil _ _))
    rw [List.map_append, phaseAfter_append, List.map_singleton] at hkinds
    cases hbefore : phaseAfter body.n 0 (init.map Cell.last) with
    | none =>
        rw [hbefore] at hkinds
        cases hkinds
    | some phase =>
        rw [hbefore, Option.bind_some, phaseAfter, phaseAfter] at hkinds
        cases hlast : cell.last with
        | true => rfl
        | false =>
            rw [hlast, if_neg Bool.false_ne_true] at hkinds
            split_ifs at hkinds
            cases hkinds

/-- Where no cell ends a record, no terminator is out of quotes. -/
theorem quiet_of_delims {start : ℕ} {behind : List Cell} (hback : body.marks.Chain start behind)
    (hdelims : ∀ cell ∈ behind, cell.last = false) (i : ℕ) (hi : start ≤ i) :
    body.marks.termOoq i = false := by
  by_contra hterm
  obtain ⟨hi', hlt, hrun, hend⟩ := exists_runEnd body.proper (Bool.eq_true_of_not_eq_false hterm)
  have hrunEnd : body.marks.runEnd (hi' - 1) = true := by
    rw [Marks.runEnd, hrun _ (by omega) (by omega), lead, Nat.sub_add_cancel (by omega), hend]
    rfl
  have hmem : hi' - 1 ∈ positions body.marks.dStruct start hi' :=
    mem_positions.mpr ⟨by omega, by rw [Marks.dStruct, hrunEnd, Bool.or_true]⟩
  rw [hback.positions_dStruct body.proper] at hmem
  obtain ⟨cell, hcell, hbound⟩ := List.mem_map.mp hmem
  have hthere := (List.takeWhile_sublist _).mem hcell
  have hkind := (hback.cellAt hthere).1.runEnd_bound body.proper
  rw [hbound, hrunEnd, hdelims cell hthere] at hkind
  cases hkind

/-- What was left when boundaries completed no records. -/
theorem Misfit.parts {walk : Walk} {state : σ} {err : Error} (h : body.Misfit walk state err) :
    ∃ lo upTo rest last, lo = walk.origin + walk.start ∧ body.At lo rest last state ∧
      body.Shows walk.origin lo walk.view ∧ phaseAfter body.n 0
        ((rest.takeWhile fun cell => decide (cell.bound < upTo)).map Cell.last) = none := by
  obtain ⟨hlo, hat, hshows, -, hnone, -⟩ := h
  exact ⟨_, _, _, _, hlo, hat, hshows, hnone⟩

/-- Boundaries that complete no records, where the automaton reports a field that is not
closed: the text ends overlong. -/
theorem Misfit.overlong (haccepts : ∀ state record, (body.acc state record).result = .ok ())
    {walk : Walk} {state : σ} {err : Error} (h : body.Misfit walk state err) {chunkEnd : ℕ}
    {state' : σ} {offset : ℕ} (hout : body.outcome chunkEnd =
      (state', .error (.unclosedQuote offset))) : EndsOverlong body.config body.n body.text := by
  have hn := body.n_pos
  have hlength := body.length_ended
  obtain ⟨hopen, front, behind, hcells, hbehind, hfront⟩ := emitCells_unclosed haccepts hn.1 hout
  have hchain : body.marks.Chain 0 (front ++ behind) := hcells ▸ body.chain
  have hback := hchain.append
  have hkinds := hchain.kindsIn_behind body.proper
  have hrecord := record_of_phase hchain hfront
  generalize Marks.behind 0 front = start at hback hkinds hrecord
  have hphase : phaseAfter body.n 0 (body.marks.kindsIn 0 start) = some 0 := by
    rw [hkinds]
    rcases hfront with rfl | hphase
    · rfl
    · exact hphase
  have hquiet := quiet_of_delims hback hbehind
  have hinside : lag body.marks.inQuotes body.ended.length = true := by
    rw [closed, Bool.not_eq_false'] at hopen
    exact hopen
  have hstart : start < body.ended.length := by
    rcases Nat.lt_or_eq_of_le (hback.starts.le body.proper) with hlt | heq
    · exact hlt
    · have houtside := hback.starts.outside
      rw [heq, hinside] at houtside
      cases houtside
  have hend : lag body.marks.inQuotes body.text.length = true := by
    rcases Nat.lt_or_eq_of_le hlength.1 with hlt | heq
    · have hspliced : body.ended.length = body.text.length + 1 := by omega
      have hterm := @term_last body.config body.text (List.ne_nil_of_length_pos (by
        change 0 < body.ended.length
        omega))
      change body.marks.term (body.ended.length - 1) = true at hterm
      rw [hspliced, Nat.add_sub_cancel] at hterm
      have hquote : body.marks.quote body.text.length = false := by
        by_contra hquote
        have hnot := (body.proper.quote _ (Bool.eq_true_of_not_eq_false hquote)).2
        rw [hterm] at hnot
        cases hnot
      rw [hspliced, lag_succ, Marks.inQuotes_eq, hquote, Bool.xor_false] at hinside
      exact hinside
    · rw [heq]
      exact hinside
  have hcounted : Counted body.marks start body.text.length
      ((positions body.marks.delimOoq start body.text.length).length + 1) true :=
    ⟨hend, rfl, fun i hi _ => hquiet i hi⟩
  refine ⟨start, _, hrecord, by omega, hphase, hcounted, ?_⟩
  -- with fewer delimiters the verifier gets through
  by_contra hfew
  obtain ⟨lo, upTo, rest, last, -, hat, -, hnone⟩ := h.parts
  rw [← kinds_eq hat.chain] at hnone
  have hpast : lo ≤ upTo := by
    by_contra hlt
    rw [positions_of_le (by omega)] at hnone
    cases hnone
  have hpassed : phaseAfter body.n 0
      (body.marks.kindsIn 0 (max upTo body.text.length)) = none := by
    refine phaseAfter_front (Nat.zero_le upTo) (le_max_left _ _) ?_
    by_contra hsome
    obtain ⟨phase, hphase'⟩ := Option.ne_none_iff_exists'.mp hsome
    have hfrom := phase_from_record hat.record hpast hphase'
    have hfalse := hnone.symm.trans hfrom
    cases hfalse
  rw [← kindsIn_append (Nat.zero_le start) (show start ≤ max upTo body.text.length by omega),
    phaseAfter_append, hphase, Option.bind_some,
    ← kindsIn_append (show start ≤ body.text.length by omega) (le_max_right _ _),
    phaseAfter_append, hcounted.phase hn.1, if_pos (by omega), Option.bind_some] at hpassed
  rcases kindsIn_end body.distinct (max upTo body.text.length) with hnil | ⟨hlast, -⟩
  · rw [show body.marks.kindsIn body.text.length (max upTo body.text.length) = [] from hnil]
      at hpassed
    cases hpassed
  · have hmem : true ∈ body.marks.kindsIn body.text.length (max upTo body.text.length) := by
      rw [show body.marks.kindsIn body.text.length (max upTo body.text.length) = [true] from hlast]
      exact List.mem_cons_self
    obtain ⟨i, hi, hrunEnd⟩ := List.mem_map.mp hmem
    have hnot := hcounted.no_runEnd body.distinct i (by
      have hrange := (mem_positions.mp hi).1.1
      omega)
    have hfalse := hrunEnd.symm.trans hnot
    cases hfalse

/-- Two errors of one body are alike, unless the text ends overlong. -/
theorem Blames.alike_iff (haccepts : ∀ state record, (body.acc state record).result = .ok ())
    (hblank : blankRun body.config body.text = 0) {walk : Walk} {state state' : σ}
    {simd dfa : Error} (h : body.Blames walk state simd)
    (hout : body.outcome body.far = (state', .error dfa)) :
    simd.alike dfa = true ↔ ¬EndsOverlong body.config body.n body.text := by
  cases h with
  | rejected _ hrejects =>
      obtain ⟨before, record, boxed, hrejected, -⟩ := hrejects
      rw [haccepts] at hrejected
      cases hrejected
  | misfit hmisfit =>
      obtain ⟨place, found, herr, hplaced⟩ := hmisfit.placed hblank
      obtain ⟨lo, upTo, rest, last, hlo, hat, hshows, -⟩ := hmisfit.parts
      obtain ⟨c, hc, -⟩ := hplaced.content
      have hplace := (List.getElem?_eq_some_iff.mp hc).1
      have hstart := hplaced.start_le
      have hlong := hshows.long
      have hrest := hout
      rw [hat.outcome body.far (le_max_left _ _), Body.emit] at hrest
      have hreported := hplaced.firstBad.reported body.distinct haccepts
        ⟨c, by rw [List.getElem?_drop, Nat.add_sub_cancel' hstart, hc]⟩
        (show lo + (walk.view.drop walk.start).length = walk.origin + walk.view.length by
          rw [List.length_drop]
          omega) hlong (fun i hi => by
            rw [List.length_drop] at hi
            rw [List.getElem?_drop, hplaced.shows _ (by omega) (by omega), hlo, Nat.add_assoc])
        hat.chain (fun cell hcell => lt_far (hat.sub cell hcell)) hrest
      rcases hreported with ⟨k, rfl⟩ | ⟨offset, rfl⟩
      · refine ⟨fun _ hends => not_misplaced_of_overlong hends haccepts hout, fun _ => ?_⟩
        rw [herr, Error.alike, beq_iff_eq]
        omega
      · refine ⟨fun halike => ?_, fun hnot => absurd (hmisfit.overlong haccepts hout) hnot⟩
        rw [herr] at halike
        cases halike
  | @unclosed lo phase rest last hat hopen hphase =>
      have hrest := hout
      rw [hat.outcome body.far (le_max_left _ _), Body.emit, hopen] at hrest
      obtain ⟨left, hreported⟩ := @emitCells_open σ body.acc body.n
        (content body.config body.ended) body.far body.base haccepts rest lo lo [] last state
        (fun cell hcell => lt_far (hat.sub cell hcell)) phase hphase
      obtain ⟨-, herr⟩ := Prod.mk.inj (hrest.symm.trans hreported)
      cases herr
      refine ⟨fun _ hends => ?_, fun _ => beq_self_eq_true _⟩
      have hfalse := (rejected_of_overlong hends hat).symm.trans hphase
      cases hfalse

end Body

/-! ## Two errors of one parse -/

section Parse

theorem error_of_ofBody {σ : Type} {start : ℕ} {body : BodyOutcome σ} {err : Error}
    (h : (PassResult.ofBody start body).result = .error err) :
    ∃ state, body = (state, .error err) := by
  obtain ⟨state, outcome⟩ := body
  cases outcome with
  | error _ =>
      cases h
      exact ⟨state, rfl⟩
  | ok _ => cases h

variable {σ : Type} (config : ValidConfig) (hsupports : supports config.config = .ok ())
  (endian : Endian) (level : Isa) (acc : Accumulator σ)
  (haccepts : ∀ state record, (acc state record).result = .ok ())

include hsupports haccepts

/-- Where both backends fail on a whole source, they fail alike, unless it ends overlong. -/
theorem parse_fails_alike_iff {reader reader' : ChunkReader}
    (hreliable : reader.schedule.Reliable) (hreliable' : reader'.schedule.Reliable)
    (hpending : reader.pending = reader'.pending)
    (hchunk : reader.chunkRemaining = reader'.chunkRemaining)
    (hwhole : reader.pending.length ≤ reader.chunkRemaining) (state : σ) (assumption : Assumption)
    {simd dfa : Error}
    (hsimd : (((SimdChunkParser.mk config.config level).chunkParser .bytes acc).parse reader state
      assumption .no).result = .error simd)
    (hdfa : (((DfaChunkParser.new endian config.config).chunkParser .bytes acc).parse reader' state
      assumption .no).result = .error dfa) :
    simd.alike dfa = true ↔ ¬EndsOverlong config.config (config.config.fieldCount.getD 0)
      (reader.pending.drop (blankRun config.config reader.pending)) := by
  have h := config.distinct
  have hs := supported_of_supports h hsupports
  have hrun := blankRun_le config.config reader.pending
  have hparsed := parseBody_eq endian config.config acc hreliable' (.refl reader') state
  rw [ChunkParser.parse, ChunkParser.scan] at hdfa hsimd
  simp only at hdfa hsimd
  rw [hparsed, ← hpending, ← hchunk, passFrom, List.drop_zero, if_neg (by omega)] at hdfa
  rw [ChunkParser.parseBody,
    show ((SimdChunkParser.mk config.config level).chunkParser .bytes acc).config = config.config
      from rfl] at hsimd
  have hskip := skipEmptyLines_spec config.config reader
  cases hresult : skipEmptyLines config.config reader with
  | error err =>
      rw [hresult] at hskip
      obtain ⟨failure, hfails, -⟩ := hskip
      exact absurd hfails (hreliable.not_failsWith failure)
  | ok found =>
      obtain ⟨later, skipped, straddles⟩ := found
      rw [hresult] at hskip
      obtain ⟨hskipped, hstraddles, hlater⟩ := hskip
      rw [decide_eq_false (by omega)] at hstraddles
      rw [min_eq_left (by omega)] at hskipped
      subst hskipped hstraddles
      have hblank := blankRun_of_skip hresult
      obtain ⟨n, cells, hcount, hchain⟩ := exists_cells hs h later.pending
      have hremaining := hlater.chunkRemaining
      have hle := Nat.le_add_right (blankRun config.config reader.pending) later.chunkRemaining
      let body := Body.plain hs h acc .bytes hcount later.pending hle state hchain
      rw [hresult] at hsimd
      simp only [Nat.zero_add, Nat.sub_zero] at hsimd hdfa
      have hpost : body.Post later.schedule ((SimdChunkParser.mk config.config level).runSteppers
          .bytes acc later state (blankRun config.config reader.pending)) :=
        body.post level rfl (Nat.add_sub_cancel_left _ _).symm
      have hends := hpost.ends
      simp only [SimdChunkParser.chunkParser] at hsimd
      generalize (SimdChunkParser.mk config.config level).runSteppers .bytes acc later state
        (blankRun config.config reader.pending) = ran at hsimd hends
      obtain ⟨left, err | next⟩ := ran
      · cases hsimd
        obtain ⟨state', hreference⟩ := error_of_ofBody hdfa
        have hout : body.outcome body.chunkEnd = (state', .error dfa) := by
          rw [body.outcome_eq h endian hblank]
          change refParse _ _ (blankRun config.config reader.pending + later.chunkRemaining) _
            later.pending state = _
          rw [hremaining, hlater.pending]
          exact hreference
        rw [hcount, Option.getD_some, ← hlater.pending]
        rcases hends with ⟨walk, hblames⟩ | ⟨failure, hfails, -⟩ | ⟨v, rel, -, hrefuses, -⟩
        · exact hblames.alike_iff haccepts hblank (emitCells_error_mono (le_max_left _ _) hout)
        · exact absurd hfails ((hlater.schedule.reliable hreliable).not_failsWith failure)
        · exact absurd hrefuses (not_refuses_bytes _ _ _)
      · cases hsimd

end Parse

/-- Both report the second record. -/
theorem parse_fails_alike_short : ¬EndsOverlong pairs.config 2 [97, 44, 98, 10, 99, 10] :=
  (@parse_fails_alike_iff _ pairs rfl .little ⟨false⟩ RecordWise.acceptAll.accumulator
    (fun _ _ => rfl) (.whole [97, 44, 98, 10, 99, 10]) (.whole [97, 44, 98, 10, 99, 10])
    Schedule.reliable_exact Schedule.reliable_exact rfl rfl le_rfl [] .outOfQuotes
    (.numberOfFields 2 1 4) (.numberOfFields 2 1 4) (by decide +kernel) (by decide +kernel)).mp rfl

/-- The default dialect, with one field a record. -/
def singles : ValidConfig := ⟨{ Config.default with fieldCount := some 1 }, rfl⟩

/-- A second field, with a quote that stays open. -/
theorem parse_fails_unlike :
    (((SimdChunkParser.mk singles.config ⟨false⟩).chunkParser .bytes
        RecordWise.acceptAll.accumulator).parse (.whole [97, 44, 34, 98]) [] .outOfQuotes
          .no).result = .error (.numberOfFields 1 2 0) ∧
      (((DfaChunkParser.new .little singles.config).chunkParser .bytes
        RecordWise.acceptAll.accumulator).parse (.whole [97, 44, 34, 98]) [] .outOfQuotes
          .no).result = .error (.unclosedQuote 2) ∧
      (Error.numberOfFields 1 2 0).alike (.unclosedQuote 2) = false :=
  ⟨by decide +kernel, by decide +kernel, rfl⟩

end Simd

end Csveee
