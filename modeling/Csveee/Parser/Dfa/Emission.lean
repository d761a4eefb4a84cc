import Csveee.Parser.Dfa.Modes

/-!
# Which bytes yield records

A parse of terminators yields no record, and any other byte begins one that comes
out, unless the parse fails.  A chunk's parse hands over at the first terminator
outside of quotes at or past its end.
-/

namespace Csveee.Dfa

section

variable {config : StepperConfig} {acc : RecordWise}

/-- One byte emits at most the record it ends. -/
theorem RefState.step_emits {c x : ℕ} {b : Byte} {s next : RefState (List Record)}
    (h : s.step config acc.accumulator c x b = .inl next) :
    s.state.length ≤ next.state.length ∧
      ((config.dfa.transition s.dfaState b).next = .recordEnd →
        s.state.length < next.state.length) := by
  have hbegin : ((s.begin x).push (config.dfa.transition s.dfaState b) b).state = s.state := by
    rw [push, begin]
    split_ifs <;> rfl
  simp only [RefState.step] at h
  split at h
  · rename_i hblank
    simp only [isBlank, Bool.and_eq_true, beq_iff_eq] at hblank
    split at h
    · cases h
    · cases h
      exact ⟨le_rfl, fun hend => by rw [hblank.1, hblank.2] at hend; cases hend⟩
  · split at h
    · cases h
    · rename_i hnext
      cases h
      simp only [closeField, hbegin]
      exact ⟨le_rfl, fun hend => by rw [hnext] at hend; cases hend⟩
    · simp only [endRecord] at h
      split at h
      · cases h
      · rename_i state hemit
        split at h
        · cases h
        · cases h
          simp only [RefState.emit] at hemit
          split at hemit
          · have hstate := congrArg Prod.fst hemit
            simp only [RecordWise.accumulator, closeField, hbegin] at hstate
            rw [← hstate, List.length_append]
            exact ⟨Nat.le_add_right _ _, fun _ => Nat.lt_succ_self _⟩
          · cases hemit
    · rename_i state' herror hfield hrecord
      cases h
      simp only [hbegin]
      exact ⟨le_rfl, fun hend => absurd hend hrecord⟩

theorem RefState.emit_length {s : RefState (List Record)} {state : List Record}
    (h : s.emit config acc.accumulator = (state, .ok ())) :
    s.state.length < state.length := by
  simp only [RefState.emit] at h
  split at h
  · have hstate := congrArg Prod.fst h
    simp only [RecordWise.accumulator] at hstate
    rw [← hstate, List.length_append]
    exact Nat.lt_succ_self _
  · cases h

/-- A byte that leads between records ended one, or was blank before one. -/
theorem RefState.step_between (hshape : Shape config.dfa) {c x : ℕ} {b : Byte}
    {s next : RefState (List Record)} (hlive : s.Live)
    (h : s.step config acc.accumulator c x b = .inl next) (hnext : next.dfaState = .recordStart) :
    s.dfaState = .recordStart ∨ (config.dfa.transition s.dfaState b).next = .recordEnd := by
  rw [RefState.step_dfaState h, advance] at hnext
  cases hrow : (config.dfa.transition s.dfaState b).next with
  | recordEnd => exact Or.inr rfl
  | recordStart =>
      rcases (hshape.idle s.dfaState b (Or.inl hrow)).1 with hs | hs
      · exact Or.inl hs
      · exact absurd hs hlive.2
  | _ =>
      rw [hrow] at hnext
      cases hnext

/-- Once a record is begun, a parse that succeeds yields it. -/
theorem RefState.run_emits (hshape : Shape config.dfa) (hfree : CommentFree config.dfa)
    {c x : ℕ} (bytes : Bytes) (s : RefState (List Record)) (hlive : s.Live)
    {records : List Record} {next : Option ℕ}
    (h : s.run config acc.accumulator c x bytes = (records, .ok next)) :
    s.state.length ≤ records.length ∧
      (s.dfaState ≠ .recordStart → s.state.length < records.length) := by
  induction bytes generalizing x s with
  | nil =>
      simp only [RefState.run, RefState.finish] at h
      obtain ⟨haction, hcomment⟩ := hlive
      cases hs : s.dfaState with
      | recordStart =>
          simp only [hs] at h
          cases h
          exact ⟨le_rfl, fun hne => absurd rfl hne⟩
      | inComment => exact absurd hs hcomment
      | fieldEnd | recordEnd | error =>
          rw [hs] at haction
          cases haction
      | inQuotedField | inEscapedQuote =>
          simp only [hs] at h
          cases h
      | fieldStart | inField | afterClosingQuote =>
          simp only [hs] at h
          split at h
          · cases h
          · rename_i state hemit
            cases h
            have hlt := RefState.emit_length hemit
            exact ⟨hlt.le, fun _ => hlt⟩
  | cons b rest ih =>
      rw [RefState.run] at h
      cases hstep : s.step config acc.accumulator c x b with
      | inl following =>
          rw [hstep] at h
          obtain ⟨hmono, hend⟩ := RefState.step_emits hstep
          obtain ⟨hle, hlt⟩ := ih following (RefState.step_live hshape hfree hlive hstep).1 h
          refine ⟨le_trans hmono hle, fun hne => ?_⟩
          by_cases hidle : following.dfaState = .recordStart
          · rcases RefState.step_between hshape hlive hstep hidle with hs | hs
            · exact absurd hs hne
            · exact Nat.lt_of_lt_of_le (hend hs) hle
          · exact Nat.lt_of_le_of_lt hmono (hlt hidle)
      | inr outcome =>
          rw [hstep] at h
          simp only at h
          rw [h] at hstep
          have hbegin : ((s.begin x).push (config.dfa.transition s.dfaState b) b).state =
              s.state := by
            rw [push, begin]
            split_ifs <;> rfl
          simp only [RefState.step] at hstep
          split at hstep
          · rename_i hblank
            simp only [isBlank, Bool.and_eq_true, beq_iff_eq] at hblank
            split at hstep
            · cases hstep
              exact ⟨le_rfl, fun hne => absurd hblank.1 hne⟩
            · cases hstep
          · split at hstep
            · cases hstep
            · cases hstep
            · simp only [endRecord] at hstep
              split at hstep
              · cases hstep
              · rename_i state hemit
                have hlt := RefState.emit_length hemit
                rw [show (((s.begin x).push (config.dfa.transition s.dfaState b) b).closeField
                  config).state = s.state from hbegin] at hlt
                split at hstep
                · cases hstep
                  exact ⟨hlt.le, fun _ => hlt⟩
                · cases hstep
            · cases hstep

end

section

variable {config : Config} (h : config.Distinct) (hcomment : config.comment = none)
  (endian : Endian) {acc : RecordWise} {c x : ℕ} {bytes : Bytes}

theorem blankRun_eq_length (hblank : ∀ b ∈ bytes, config.isTerminator b = true) :
    blankRun config bytes = bytes.length := by
  rw [blankRun, List.takeWhile_eq_self_iff.mpr hblank]

include h

/-- Terminators alone yield no record. -/
theorem refParse_blank (hc : x + bytes.length ≤ c)
    (hblank : ∀ b ∈ bytes, config.isTerminator b = true) :
    refParse (reference endian config) acc.accumulator c x bytes [] = ([], .ok none) := by
  rw [← refParse_skip h endian _ c x bytes.length bytes []
    (blankRun_eq_length hblank).ge hc, List.drop_length]
  rfl

theorem bodyRecords_blank {data : Bytes} {p : ℕ} (hp : p ≤ data.length)
    (hblank : ∀ b ∈ data.drop p, config.isTerminator b = true) :
    bodyRecords (reference endian config) acc data p data.length = .ok ([], none) := by
  have hlength := List.length_drop (i := p) (l := data)
  have hparse := @refParse_blank _ h endian acc data.length p _ (by omega) hblank
  exact bodyRecords_ok.mpr ⟨none, hparse, by rw [if_neg (Nat.lt_irrefl _)]⟩

include hcomment

/-- Any other byte yields one, in a parse that succeeds. -/
theorem refParse_nonempty (hc : x + blankRun config bytes ≤ c)
    (hbyte : ∃ b ∈ bytes, config.isTerminator b = false) {records : List Record}
    {next : Option ℕ}
    (hparse : refParse (reference endian config) acc.accumulator c x bytes [] =
      (records, .ok next)) : records ≠ [] := by
  have hshape := shape_reference h endian
  have hfree := commentFree_reference h hcomment endian
  have hrun := blankRun_le config bytes
  rw [← refParse_skip h endian _ c x (blankRun config bytes) bytes [] le_rfl hc]
    at hparse
  have hdrop := blankRun_drop config bytes (blankRun config bytes) le_rfl
  rw [Nat.sub_self] at hdrop
  cases hbytes : bytes.drop (blankRun config bytes) with
  | nil =>
      obtain ⟨b, hmem, hb⟩ := hbyte
      have hall : bytes.takeWhile config.isTerminator = bytes := by
        apply (List.takeWhile_sublist _).eq_of_length
        have hlen := congrArg List.length hbytes
        rw [List.length_drop, List.length_nil] at hlen
        rw [blankRun] at hrun hlen
        omega
      rw [← hall] at hmem
      rw [List.mem_takeWhile_imp hmem] at hb
      cases hb
  | cons b rest =>
      rw [hbytes] at hdrop hparse
      have hb : config.isTerminator b = false := by
        by_contra hterm
        rw [blankRun, List.takeWhile_cons, if_pos (by simpa using hterm),
          List.length_cons] at hdrop
        omega
      have hnext : ((reference endian config).dfa.transition .recordStart b).next ≠
          .recordStart := by
        rw [Ne, blank_reference h endian b, hb]
        exact Bool.false_ne_true
      have hend : ((reference endian config).dfa.transition .recordStart b).next ≠
          .recordEnd := fun hend => hnext (hshape.recordEnd_blank _ _ hend)
      rw [refParse, RefState.run] at hparse
      cases hstep : (RefState.new (x + blankRun config bytes) ([] : List Record)).step
          (reference endian config) acc.accumulator c (x + blankRun config bytes) b with
      | inr outcome =>
          rw [hstep] at hparse
          simp only at hparse
          rw [hparse] at hstep
          rcases (RefState.step_stops hstep).2 with hstops | hstops
          · exact absurd hstops hend
          · exact absurd hstops hnext
      | inl next' =>
          rw [hstep] at hparse
          have hlive : (RefState.new (x + blankRun config bytes) ([] : List Record)).Live :=
            live_new _ _
          have hbegun : next'.dfaState ≠ .recordStart := by
            rw [RefState.step_dfaState hstep, advance]
            cases hrow : ((reference endian config).dfa.transition .recordStart b).next with
            | recordStart => exact absurd hrow hnext
            | recordEnd => exact absurd hrow hend
            | _ =>
                simp only [RefState.new, hrow, State.settle]
                exact fun hfalse => by cases hfalse
          have hlt := (RefState.run_emits hshape hfree rest next'
            (RefState.step_live hshape hfree hlive hstep).1 hparse).2 hbegun
          intro hnil
          rw [hnil] at hlt
          exact Nat.not_lt_zero _ hlt

/-- A chunk's parse goes past no terminator outside of quotes at or past its end. -/
theorem RefState.run_first (bytes : Bytes) (s : RefState (List Record))
    (hstate : Interior config s.dfaState) {state : List Record} {q p : ℕ}
    (hrun : s.run (reference endian config) acc.accumulator c x bytes = (state, .ok (some q)))
    (hxp : x ≤ p) (hcp : c ≤ p) {b : Byte} (hb : bytes[p - x]? = some b)
    (hterm : config.isTerminator b = true)
    (hquotes : ((reference endian config).dfa.stateAfter s.dfaState
      (bytes.take (p - x))).inQuotes = false) : q ≤ p := by
  induction bytes generalizing x s with
  | nil => cases hb
  | cons first rest ih =>
      rw [RefState.run] at hrun
      cases hstep : s.step (reference endian config) acc.accumulator c x first with
      | inr outcome =>
          rw [hstep] at hrun
          simp only at hrun
          rw [hrun] at hstep
          cases (RefState.step_stops hstep).1
          exact hxp
      | inl next =>
          rw [hstep] at hrun
          have hadvance := RefState.step_dfaState hstep
          by_cases hp : p = x
          · -- the parse would have stopped here
            subst hp
            rw [Nat.sub_self] at hb hquotes
            cases hb
            have hsymbol := (symbol_tests h b).2.1.mpr hterm
            have hrow : (reference endian config).dfa.transition s.dfaState b =
                symbolRow config.quoteHandling config.doubledQuotes s.dfaState .terminator := by
              rw [← hsymbol]
              exact transition_eq h endian _ hstate.comment b
            have hcells := @symbolRow_terminator config.quoteHandling config.doubledQuotes
              _ hstate.live hstate.comment hquotes
            rw [← hrow] at hcells
            simp only [RefState.step] at hstep
            rcases hcells with ⟨hs, hnext⟩ | hnext
            · rw [hs] at hnext
              rw [if_pos (by simp [isBlank, hs, hnext]), if_pos hcp] at hstep
              cases hstep
            · simp only [if_pos hcp] at hstep
              split at hstep
              · cases hstep
              · rw [hnext] at hstep
                simp only [endRecord, if_pos hcp] at hstep
                split at hstep
                · cases hstep
                · cases hstep
          · rw [show p - x = (p - (x + 1)) + 1 by omega, List.getElem?_cons_succ] at hb
            rw [show p - x = (p - (x + 1)) + 1 by omega, List.take_succ_cons] at hquotes
            refine ih next ?_ hrun (by omega) hb ?_
            · rw [hadvance]
              refine hstate.advance h endian hcomment first fun herr => ?_
              simp only [RefState.step] at hstep
              split at hstep
              · rename_i hblank
                simp only [isBlank, Bool.and_eq_true, beq_iff_eq] at hblank
                rw [hblank.1] at herr
                exact absurd (hblank.2.symm.trans herr) (by simp)
              · rw [show (reference endian config).dfa.transition s.dfaState first =
                  (dialect endian config config.quoteHandling).transition s.dfaState first from
                    rfl, herr] at hstep
                cases hstep
            · rw [hadvance]
              exact hquotes

end

end Csveee.Dfa
