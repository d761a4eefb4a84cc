import Csveee.Parser.Dfa.Quoting

/-!
# Anchors

Under the toggling dialect the parse of a chunk may stop at every terminator outside of
quotes, and nowhere else.  The boundary scan of the next chunk, in the state that stands
for the true one, finds the same terminators.
-/

namespace Csveee.Dfa

open RefState

/-- A terminator outside of quotes, as a run from the state sees it. -/
def Anchor (dfa : Dfa) (config : Config) (state : State) (bytes : Bytes) (i : ℕ) : Prop :=
  (∃ b, bytes[i]? = some b ∧ config.isTerminator b = true) ∧
    (dfa.stateAfter state (bytes.take i)).inQuotes = false

section

variable {dfa : Dfa} {config : Config} {state : State} {b : Byte} {bytes : Bytes} {i : ℕ}

theorem anchor_zero : Anchor dfa config state (b :: bytes) 0 ↔
    config.isTerminator b = true ∧ state.inQuotes = false := by
  constructor
  · rintro ⟨⟨c, hc, hterm⟩, hquotes⟩
    cases hc
    exact ⟨hterm, hquotes⟩
  · rintro ⟨hterm, hquotes⟩
    exact ⟨⟨b, rfl, hterm⟩, hquotes⟩

theorem Anchor.lt (h : Anchor dfa config state bytes i) : i < bytes.length := by
  obtain ⟨⟨b, hb, -⟩, -⟩ := h
  exact (List.getElem?_eq_some_iff.mp hb).1

/-- Anchors are counted from where the run starts. -/
theorem anchor_drop {n : ℕ} (hn : n ≤ i) : Anchor dfa config state bytes i ↔
    Anchor dfa config (dfa.stateAfter state (bytes.take n)) (bytes.drop n) (i - n) := by
  rw [Anchor, Anchor, List.getElem?_drop, Nat.add_sub_cancel' hn,
    show bytes.take i = bytes.take n ++ (bytes.drop n).take (i - n) by
      rw [← List.take_add, Nat.add_sub_cancel' hn],
    stateAfter, stateAfter, stateAfter, List.foldl_append]

theorem anchor_take {n : ℕ} : Anchor dfa config state (bytes.take n) i ↔
    i < n ∧ Anchor dfa config state bytes i := by
  by_cases hi : i < n
  · rw [Anchor, Anchor, List.getElem?_take_of_lt hi, List.take_take, min_eq_left hi.le]
    exact (and_iff_right hi).symm
  · constructor
    · intro h
      have hlt := h.lt
      rw [List.length_take] at hlt
      omega
    · exact fun h => absurd h.1 hi

end

/-- A record ends on the byte, or at the end of the bytes, and none starts behind it. -/
def LastEnd (dfa : Dfa) (config : Config) (state : State) (bytes : Bytes) (i : ℕ) : Prop :=
  (i = bytes.length ∨ Anchor dfa config state bytes i) ∧
    dfa.stateAfter state (bytes.take i) ≠ .recordStart ∧
    ∀ j b, i < j → bytes[j]? = some b → config.isTerminator b = true

theorem LastEnd.cons {dfa : Dfa} {config : Config} {state : State} {b : Byte} {rest : Bytes}
    {i : ℕ} (h : LastEnd dfa config (dfa.advance state b) rest i) :
    LastEnd dfa config state (b :: rest) (i + 1) := by
  obtain ⟨hend, hstate, hbehind⟩ := h
  refine ⟨hend.imp (congrArg (· + 1)) id, hstate, fun j b' hj hget => ?_⟩
  cases j with
  | zero => exact absurd hj (Nat.not_lt_zero _)
  | succ j => exact hbehind j b' (Nat.lt_of_succ_lt_succ hj) hget

/-- Past a byte that does not end it, the lenient scan goes on. -/
theorem scanBytes_goesOn {dfa : Dfa} {scan : State} {b : Byte} {rest : Bytes} {x : ℕ}
    (herror : (dfa.transition scan b).next ≠ .error)
    (hrecord : (dfa.transition scan b).next ≠ .recordEnd) :
    scanBytes dfa false scan x (b :: rest) =
      scanBytes dfa false (dfa.transition scan b).next.settle (x + 1) rest := by
  rw [scanBytes]
  simp only [Bool.false_and, Bool.false_eq_true, if_false]
  cases hnext : (dfa.transition scan b).next with
  | error => exact absurd hnext herror
  | recordEnd => exact absurd hnext hrecord
  | _ => rfl

section Toggle

variable {config : Config} (h : config.Distinct) (endian : Endian)

/-- The toggling table never errs in a state a run can be in. -/
theorem symbolRow_toggle {doubled : Bool} {state : State} {symbol : Symbol}
    (hlive : state.isAction = false) :
    (symbolRow .toggle doubled state symbol).next ≠ .error := by
  cases doubled <;> cases state <;> cases symbol <;>
    first | exact absurd hlive Bool.noConfusion | decide

/-- One byte of the boundary scan: it follows the run, and ends where the run meets an
anchor. -/
theorem tracks_toggle {doubled : Bool} {state scan : State} {symbol : Symbol}
    (htracks : Tracks state scan) (hsymbol : symbol ≠ .comment) :
    ((symbolRow .toggle doubled scan symbol).next = .recordEnd ↔
        symbol = .terminator ∧ state.inQuotes = false) ∧
      ((symbolRow .toggle doubled scan symbol).next ≠ .recordEnd →
        Tracks (symbolRow .toggle doubled state symbol).next.settle
          (symbolRow .toggle doubled scan symbol).next.settle) := by
  cases htracks with
  | same hlive hstart hcomment =>
      cases state <;>
        first
        | exact absurd hlive Bool.noConfusion
        | exact absurd rfl hstart
        | exact absurd rfl hcomment
        | skip
      all_goals
        cases doubled <;> cases symbol <;>
        first
        | exact absurd rfl hsymbol
        | exact ⟨by decide, fun hend => absurd rfl hend⟩
        | exact ⟨by decide, fun _ => .same _ rfl (by decide) (by decide)⟩
  | outside hlive hcomment hquotes =>
      cases state <;>
        first
        | exact absurd hlive Bool.noConfusion
        | exact absurd rfl hcomment
        | exact absurd hquotes Bool.noConfusion
        | skip
      all_goals
        cases doubled <;> cases symbol <;>
        first
        | exact absurd rfl hsymbol
        | exact ⟨by decide, fun hend => absurd rfl hend⟩
        | exact ⟨by decide, fun _ => .same _ rfl (by decide) (by decide)⟩

theorem Tracks.live {state scan : State} (htracks : Tracks state scan) :
    state.isAction = false ∧ scan.isAction = false ∧ state ≠ .inComment := by
  cases htracks with
  | same hlive _ hcomment => exact ⟨hlive, hlive, hcomment⟩
  | outside hlive hcomment => exact ⟨hlive, rfl, hcomment⟩

include h

/-- A run of the toggling dialect goes through states between bytes only. -/
theorem interior_toggle (hcomment : config.comment = none) {state : State}
    (hstate : Interior config state) (bytes : Bytes) :
    Interior config ((dialect endian config .toggle).stateAfter state bytes) := by
  induction bytes generalizing state with
  | nil => exact hstate
  | cons b rest ih =>
      refine ih (hstate.advance h endian hcomment b ?_)
      rw [dialect_transition h endian .toggle hstate.comment]
      exact symbolRow_toggle hstate.live

/-- The lenient scan finds the first anchor of its bytes, or there is none. -/
theorem scan_anchor (hcomment : config.comment = none) {state scan : State}
    (htracks : Tracks state scan) (bytes : Bytes) (x : ℕ) :
    (∃ i, Anchor (dialect endian config .toggle) config state bytes i ∧
        (∀ j < i, ¬ Anchor (dialect endian config .toggle) config state bytes j) ∧
        scanBytes (dialect endian config .toggle) false scan x bytes = .recordEnd (x + i)) ∨
      (∀ j, ¬ Anchor (dialect endian config .toggle) config state bytes j) ∧
        ∃ last, scanBytes (dialect endian config .toggle) false scan x bytes =
          .exhausted last := by
  induction bytes generalizing state scan x with
  | nil => exact Or.inr ⟨fun j hj => absurd hj.lt (Nat.not_lt_zero j), scan, rfl⟩
  | cons b rest ih =>
      obtain ⟨hlive, hscanLive, hne⟩ := htracks.live
      have hterm := (symbol_tests h b).2.1
      obtain ⟨hend, hgoes⟩ := @tracks_toggle config.doubledQuotes _ _ _ htracks
        (symbol_ne_comment h hcomment b)
      have hnow : Anchor (dialect endian config .toggle) config state (b :: rest) 0 ↔
          (symbolRow .toggle config.doubledQuotes scan (config.symbol b)).next =
            .recordEnd := by
        rw [anchor_zero, hend, hterm]
      have hscan := dialect_transition h endian .toggle htracks.ne_inComment b
      have herror := @symbolRow_toggle config.doubledQuotes scan (config.symbol b) hscanLive
      have hrun : (dialect endian config .toggle).advance state b =
          (symbolRow .toggle config.doubledQuotes state (config.symbol b)).next.settle := by
        rw [advance, dialect_transition h endian .toggle hne]
      by_cases hrecord : (symbolRow .toggle config.doubledQuotes scan
          (config.symbol b)).next = .recordEnd
      · refine Or.inl ⟨0, hnow.mpr hrecord, fun j hj => absurd hj (Nat.not_lt_zero j), ?_⟩
        rw [scanBytes]
        simp only [hscan, Bool.false_and, Bool.false_eq_true, if_false, hrecord, Nat.add_zero]
      · rw [scanBytes_goesOn (hscan ▸ herror) (hscan ▸ hrecord), hscan]
        have hrest := ih (hrun ▸ hgoes hrecord) (x + 1)
        have hfirst : ¬ Anchor (dialect endian config .toggle) config state (b :: rest) 0 :=
          fun hanchor => hrecord (hnow.mp hanchor)
        rcases hrest with ⟨i, hanchor, hnone, hfound⟩ | ⟨hnone, hexhausted⟩
        · refine Or.inl ⟨i + 1, hanchor, fun j hj => ?_, ?_⟩
          · cases j with
            | zero => exact hfirst
            | succ j => exact hnone j (by omega)
          · rw [hfound, Nat.add_assoc, Nat.add_comm 1 i]
        · refine Or.inr ⟨fun j => ?_, hexhausted⟩
          cases j with
          | zero => exact hfirst
          | succ j => exact hnone j

variable {σ : Type} {ref : StepperConfig} {acc : Accumulator σ} {c x : ℕ}

/-- A byte the parse goes on behind: a blank or a record's end short of the chunk's end, or
no anchor. -/
theorem step_goesOn (hdfa : ref.dfa = dialect endian config .toggle) {s next : RefState σ}
    {b : Byte} (hlive : s.dfaState.isAction = false) (hne : s.dfaState ≠ .inComment)
    (hstep : s.step ref acc c x b = .inl next) :
    (x < c ∧ config.isTerminator b = true ∧ s.dfaState = .recordStart ∧ next = s) ∨
      (x < c ∧ config.isTerminator b = true ∧ s.dfaState.inQuotes = false ∧
        s.dfaState ≠ .recordStart ∧ next.lastRecordEnd = some x ∧
        next.dfaState = .recordStart) ∨
      (¬ (config.isTerminator b = true ∧ s.dfaState.inQuotes = false) ∧
        next.lastRecordEnd = s.lastRecordEnd ∧ next.dfaState ≠ .recordStart) := by
  have hterm := (symbol_tests h b).2.1
  have hrow : ref.dfa.transition s.dfaState b =
      symbolRow .toggle config.doubledQuotes s.dfaState (config.symbol b) := by
    rw [hdfa, dialect_transition h endian .toggle hne]
  have hblank : (ref.dfa.transition .recordStart b).next = .recordStart ↔
      config.isTerminator b = true := by
    rw [hdfa, dialect_transition h endian .toggle (by decide), ← hterm]
    cases config.symbol b <;> simp [symbolRow]
  have hidle : s.isBlank ref b = true ↔
      s.dfaState = .recordStart ∧ config.isTerminator b = true := by
    rw [RefState.isBlank, Bool.and_eq_true, beq_iff_eq, beq_iff_eq, hblank]
  rw [RefState.step] at hstep
  by_cases hidling : s.isBlank ref b = true
  · obtain ⟨hstart, hb⟩ := hidle.mp hidling
    rw [if_pos hidling] at hstep
    by_cases hc : c ≤ x
    · rw [if_pos hc] at hstep
      cases hstep
    · rw [if_neg hc] at hstep
      cases hstep
      exact Or.inl ⟨Nat.lt_of_not_le hc, hb, hstart, rfl⟩
  · rw [if_neg hidling] at hstep
    rw [hidle] at hidling
    simp only [hrow] at hstep
    have hstops := @symbolRow_stops .toggle config.doubledQuotes _ (config.symbol b) hne
    have hends : config.isTerminator b = true → s.dfaState.inQuotes = false →
        (symbolRow .toggle config.doubledQuotes s.dfaState (config.symbol b)).next =
          .recordEnd := by
      intro hb hquotes
      rw [hterm.mpr hb]
      rcases @symbolRow_terminator .toggle config.doubledQuotes _ hlive hne hquotes with
        ⟨hstart, -⟩ | hend
      · exact absurd ⟨hstart, hb⟩ hidling
      · exact hend
    cases hnext : (symbolRow .toggle config.doubledQuotes s.dfaState (config.symbol b)).next with
    | error =>
        rw [hnext] at hstep
        cases hstep
    | recordEnd =>
        rw [hnext] at hstep
        obtain ⟨hsymbol, hquotes⟩ := hstops (Or.inl hnext)
        have hb := hterm.mp hsymbol
        simp only [RefState.endRecord] at hstep
        split at hstep
        · cases hstep
        · split_ifs at hstep with hc
          cases hstep
          exact Or.inr (Or.inl
            ⟨by omega, hb, hquotes, fun hstart => hidling ⟨hstart, hb⟩, rfl, rfl⟩)
    | recordStart =>
        obtain ⟨hsymbol, hquotes⟩ := hstops (Or.inr hnext)
        have hend := hends (hterm.mp hsymbol) hquotes
        rw [hnext] at hend
        cases hend
    | _ =>
        rw [hnext] at hstep
        cases hstep
        refine Or.inr (Or.inr ⟨fun hanchor => ?_, ?_, by simp⟩)
        · have hend := hends hanchor.1 hanchor.2
          rw [hnext] at hend
          cases hend
        · simp only [RefState.closeField, RefState.push, RefState.begin]
          split_ifs <;> rfl

/-- A byte the parse stops on is an anchor at or past the chunk's end. -/
theorem step_stopsAt (hdfa : ref.dfa = dialect endian config .toggle) {s : RefState σ} {b : Byte}
    {state : σ} {next : Option ℕ} (hne : s.dfaState ≠ .inComment)
    (hstep : s.step ref acc c x b = .inr (state, .ok next)) :
    next = some x ∧ c ≤ x ∧ config.isTerminator b = true ∧ s.dfaState.inQuotes = false := by
  obtain ⟨hx, hstops⟩ := RefState.step_stops hstep
  rw [hdfa, dialect_transition h endian .toggle hne] at hstops
  obtain ⟨hsymbol, hquotes⟩ := symbolRow_stops hne hstops
  refine ⟨hx, ?_, (symbol_tests h b).2.1.mp hsymbol, hquotes⟩
  by_contra hc
  simp only [RefState.step, RefState.endRecord, if_neg hc] at hstep
  split at hstep
  · cases hstep
  · split at hstep
    · cases hstep
    · cases hstep
    · split at hstep <;> cases hstep
    · cases hstep

omit h in
/-- The end of the bytes ends the record in flight. -/
theorem finish_inFlight {s : RefState σ} (hstate : Interior config s.dfaState)
    (hne : s.dfaState ≠ .recordStart) {q : ℕ}
    (hfinish : (s.finish ref acc x).2 = .ok (some q)) : q = x := by
  have hlive := hstate.live
  have hcomment := hstate.comment
  simp only [RefState.finish] at hfinish
  cases hs : s.dfaState with
  | fieldStart | inField | afterClosingQuote =>
      simp only [hs] at hfinish
      split at hfinish
      · cases hfinish
      · exact (Option.some_inj.mp (Except.ok.inj hfinish)).symm
  | inQuotedField | inEscapedQuote =>
      simp only [hs] at hfinish
      cases hfinish
  | recordStart => exact absurd hs hne
  | inComment => exact absurd hs hcomment
  | fieldEnd | recordEnd | error =>
      rw [hs] at hlive
      cases hlive

/-- Where a body that succeeds stops: on the first anchor at or past the chunk's end; or
short of it, behind the last record of the bytes. -/
theorem run_anchors (hdfa : ref.dfa = dialect endian config .toggle)
    (hcomment : config.comment = none) (bytes : Bytes) (s : RefState σ)
    (hstate : Interior config s.dfaState)
    (hlast : ∀ last, s.lastRecordEnd = some last → last < c) {state : σ} {q : ℕ}
    (hrun : s.run ref acc c x bytes = (state, .ok (some q))) :
    (c ≤ q ∧ x ≤ q ∧ q ≤ x + bytes.length ∧
        (∀ j, c ≤ x + j → x + j < q → ¬ Anchor ref.dfa config s.dfaState bytes j) ∧
        (q < x + bytes.length → Anchor ref.dfa config s.dfaState bytes (q - x))) ∨
      q < c ∧ ((x ≤ q ∧ LastEnd ref.dfa config s.dfaState bytes (q - x)) ∨
        s.lastRecordEnd = some q ∧ s.dfaState = .recordStart ∧
          ∀ b ∈ bytes, config.isTerminator b = true) := by
  induction bytes generalizing x s with
  | nil =>
      have hend := congrArg Prod.snd hrun
      simp only [RefState.run] at hend
      by_cases hidle : s.dfaState = .recordStart
      · simp only [RefState.finish, hidle] at hend
        have hq := Except.ok.inj hend
        exact Or.inr ⟨hlast q hq, Or.inr ⟨hq, hidle, fun b hb => absurd hb List.not_mem_nil⟩⟩
      · obtain rfl := finish_inFlight hstate hidle hend
        by_cases hc : c ≤ q
        · refine Or.inl ⟨hc, le_rfl, Nat.le_refl _, fun j _ hj => ?_, fun hlt => ?_⟩
          · exact absurd hj (Nat.not_lt.mpr (Nat.le_add_right q j))
          · exact absurd hlt (Nat.lt_irrefl q)
        · refine Or.inr ⟨Nat.lt_of_not_le hc, Or.inl ⟨le_rfl, ?_⟩⟩
          rw [Nat.sub_self]
          refine ⟨Or.inl rfl, hidle, fun j b _ hget => ?_⟩
          cases hget
  | cons b rest ih =>
      rw [RefState.run] at hrun
      rw [List.length_cons]
      cases hstep : s.step ref acc c x b with
      | inr outcome =>
          rw [hstep] at hrun
          simp only at hrun
          rw [hrun] at hstep
          obtain ⟨hq, hc, hterm, hquotes⟩ := step_stopsAt h endian hdfa hstate.comment hstep
          cases hq
          refine Or.inl ⟨hc, le_rfl, Nat.le_add_right q _, fun j _ hj => ?_, fun _ => ?_⟩
          · exact absurd hj (Nat.not_lt.mpr (Nat.le_add_right q j))
          · rw [Nat.sub_self]
            exact anchor_zero.mpr ⟨hterm, hquotes⟩
      | inl next =>
          rw [hstep] at hrun
          simp only at hrun
          have hadvance := RefState.step_dfaState hstep
          have hnext : Interior config next.dfaState := by
            rw [hadvance, hdfa]
            refine hstate.advance h endian hcomment b ?_
            rw [dialect_transition h endian .toggle hstate.comment]
            exact symbolRow_toggle hstate.live
          have hgoes := step_goesOn h endian hdfa hstate.live hstate.comment hstep
          rcases ih next hnext (RefState.step_last hstep hlast) hrun with
            ⟨hc, hx, hle, hnone, hstop⟩ | ⟨hc, ⟨hx, hend⟩ | ⟨hlast', hstart, hblank⟩⟩
          · rw [hadvance] at hnone hstop
            refine Or.inl ⟨hc, Nat.le_of_succ_le hx, by omega, fun j hj hlt => ?_, fun hlt => ?_⟩
            · cases j with
              | zero =>
                  rw [anchor_zero]
                  rcases hgoes with ⟨hxc, -⟩ | ⟨hxc, -⟩ | ⟨hno, -⟩
                  · omega
                  · omega
                  · exact hno
              | succ j => exact hnone j (by omega) (by omega)
            · rw [show q - x = q - (x + 1) + 1 by omega]
              exact hstop (by omega)
          · rw [hadvance] at hend
            refine Or.inr ⟨hc, Or.inl ⟨Nat.le_of_succ_le hx, ?_⟩⟩
            rw [show q - x = q - (x + 1) + 1 by omega]
            exact hend.cons
          · refine Or.inr ⟨hc, ?_⟩
            rcases hgoes with ⟨-, hterm, hidle, rfl⟩ | ⟨-, hterm, hquotes, hne, hends, -⟩ |
              ⟨-, -, hne⟩
            · exact Or.inr ⟨hlast', hidle, List.forall_mem_cons.mpr ⟨hterm, hblank⟩⟩
            · have hq : x = q := Option.some_inj.mp (hends.symm.trans hlast')
              subst hq
              refine Or.inl ⟨le_rfl, ?_⟩
              rw [Nat.sub_self]
              refine ⟨Or.inr (anchor_zero.mpr ⟨hterm, hquotes⟩), hne, fun j b' hj hget => ?_⟩
              cases j with
              | zero => exact absurd hj (Nat.lt_irrefl 0)
              | succ j => exact hblank b' (List.mem_of_getElem? hget)
            · exact absurd hstart hne

end Toggle

end Csveee.Dfa
