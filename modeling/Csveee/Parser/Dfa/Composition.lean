import Csveee.Parser.Dfa.Reference
import Csveee.Parser.Dfa.Symbol

/-!
# Composing body parses

A body parse that stops at a chunk's end hands over a boundary from which the
next one continues: two parses in turn come to what one parse of both comes to.
Nor does a parse depend on where offsets are counted from, or on the records
accumulated before it.
-/

namespace Csveee.Dfa.RefState

variable {σ : Type} (config : StepperConfig) (acc : Accumulator σ)

/-- A chunk end no byte reaches makes no difference. -/
theorem after_chunkEnd_congr {c c' : ℕ} (x : ℕ) (bytes : Bytes) (s : RefState σ)
    (hc : x + bytes.length ≤ c) (hc' : x + bytes.length ≤ c') :
    s.after config acc c x bytes = s.after config acc c' x bytes := by
  induction bytes generalizing x s with
  | nil => rfl
  | cons b rest ih =>
      rw [List.length_cons] at hc hc'
      have hstep : s.step config acc c x b = s.step config acc c' x b := by
        simp only [step, endRecord, if_neg (show ¬ c ≤ x by omega),
          if_neg (show ¬ c' ≤ x by omega)]
      rw [after, after, hstep]
      split
      · exact ih (x + 1) _ (by omega) (by omega)
      · rfl

theorem run_chunkEnd_congr {c c' : ℕ} (x : ℕ) (bytes : Bytes) (s : RefState σ)
    (hc : x + bytes.length ≤ c) (hc' : x + bytes.length ≤ c') :
    s.run config acc c x bytes = s.run config acc c' x bytes := by
  rw [run_eq_after, run_eq_after, after_chunkEnd_congr config acc x bytes s hc hc']

section Moving

variable {τ : Type}

/-- The state, with offsets counted from `n` bytes earlier, an earlier record end
and another accumulator state. -/
def move (n : ℕ) (last : Option ℕ) (h : σ → τ) (s : RefState σ) : RefState τ where
  dfaState := s.dfaState
  fields := s.fields
  field := s.field
  recordInStart := n + s.recordInStart
  fieldInStart := n + s.fieldInStart
  lastRecordEnd := (s.lastRecordEnd.map (n + ·)).or last
  state := h s.state

/-- The outcomes agree up to the move.  Errors are not compared: an accumulator's
own error does not move. -/
def Moved (n : ℕ) (last : Option ℕ) (h : σ → τ) (here : BodyOutcome σ)
    (there : BodyOutcome τ) : Prop :=
  there.1 = h here.1 ∧
    there.2.toOption = here.2.toOption.map fun recordEnd =>
      (recordEnd.map (n + ·)).or last

/-- An accumulator that treats corresponding states alike. -/
def Follows (acc : Accumulator σ) (acc' : Accumulator τ) (h : σ → τ) : Prop :=
  ∀ state fields, (acc' (h state) fields).state = h (acc state fields).state ∧
    (acc' (h state) fields).result = (acc state fields).result

variable {acc} {acc' : Accumulator τ} {n : ℕ} {last : Option ℕ} {h : σ → τ}

theorem emit_move (hacc : Follows acc acc' h) (s : RefState σ) :
    ((s.move n last h).emit config acc').1 = h (s.emit config acc).1 ∧
      ((s.move n last h).emit config acc').2.toOption = (s.emit config acc).2.toOption := by
  obtain ⟨hstate, hresult⟩ := hacc s.state s.fields
  by_cases harity : config.expectedFields.all (s.fields.length == ·) = true
  · have harity' : config.expectedFields.all ((s.move n last h).fields.length == ·) = true :=
      harity
    simp only [emit, if_pos harity, if_pos harity']
    exact ⟨hstate, congrArg (fun r => (Except.mapError Error.fromUser r).toOption) hresult⟩
  · have harity' : ¬ config.expectedFields.all ((s.move n last h).fields.length == ·) = true :=
      harity
    simp only [emit, if_neg harity, if_neg harity']
    exact ⟨rfl, rfl⟩

theorem endRecord_move (hacc : Follows acc acc' h) (c x : ℕ) (s : RefState σ) :
    match s.endRecord config acc c x with
    | .inl next => (s.move n last h).endRecord config acc' (n + c) (n + x) =
        .inl (next.move n last h)
    | .inr outcome => ∃ outcome',
        (s.move n last h).endRecord config acc' (n + c) (n + x) = .inr outcome' ∧
          Moved n last h outcome outcome' := by
  obtain ⟨hstate, hresult⟩ := emit_move config (n := n) hacc
    (s.closeField config)
  have hclose : (s.move n last h).closeField config = (s.closeField config).move n last h := rfl
  simp only [endRecord, hclose]
  cases hhere : (s.closeField config).emit config acc with
  | mk state result =>
      cases hthere : ((s.closeField config).move n last h).emit config acc' with
      | mk state' result' =>
          rw [hhere, hthere] at hstate hresult
          simp only at hstate hresult
          subst hstate
          cases result with
          | error err =>
              cases result' with
              | error err' => exact ⟨_, rfl, rfl, rfl⟩
              | ok => cases hresult
          | ok =>
              cases result' with
              | error err' => cases hresult
              | ok =>
                  simp only [Nat.add_le_add_iff_left]
                  by_cases hdone : c ≤ x
                  · simp only [if_pos hdone]
                    exact ⟨_, rfl, rfl, rfl⟩
                  · simp only [if_neg hdone]
                    rfl

theorem begin_move (x : ℕ) (s : RefState σ) :
    (s.move n last h).begin (n + x) = (s.begin x).move n last h := by
  have hstate : (s.move n last h).dfaState = s.dfaState := rfl
  rw [begin, begin, hstate]
  split_ifs
  · rfl
  · rfl

theorem push_move (trans : Transition) (b : Byte) (s : RefState σ) :
    (s.move n last h).push trans b = (s.push trans b).move n last h := by
  cases hout : trans.hasOutput <;> simp [push, move, hout]

theorem step_move (hacc : Follows acc acc' h) (c x : ℕ) (b : Byte) (s : RefState σ) :
    match s.step config acc c x b with
    | .inl next => (s.move n last h).step config acc' (n + c) (n + x) b =
        .inl (next.move n last h)
    | .inr outcome => ∃ outcome',
        (s.move n last h).step config acc' (n + c) (n + x) b = .inr outcome' ∧
          Moved n last h outcome outcome' := by
  have hpush : ((s.move n last h).begin (n + x)).push
      (config.dfa.transition s.dfaState b) b =
      ((s.begin x).push (config.dfa.transition s.dfaState b) b).move n last h := by
    rw [begin_move, push_move]
  have hblank : (s.move n last h).isBlank config b = s.isBlank config b := rfl
  have hstate : (s.move n last h).dfaState = s.dfaState := rfl
  simp only [step, hblank, hstate, hpush, Nat.add_le_add_iff_left]
  generalize (s.begin x).push (config.dfa.transition s.dfaState b) b = s'
  by_cases hb : s.isBlank config b = true
  · simp only [if_pos hb]
    by_cases hdone : c ≤ x
    · simp only [if_pos hdone]
      exact ⟨_, rfl, rfl, rfl⟩
    · simp only [if_neg hdone]
  · simp only [hb, Bool.false_eq_true, if_false]
    cases hnext : (config.dfa.transition s.dfaState b).next with
    | recordEnd => exact endRecord_move config hacc c x s'
    | error => exact ⟨_, rfl, rfl, rfl⟩
    | _ => rfl

theorem finish_move (hacc : Follows acc acc' h) (x : ℕ) (s : RefState σ) :
    Moved n last h (s.finish config acc x) ((s.move n last h).finish config acc' (n + x)) := by
  have hemit := @emit_move _ config _ _ _ n last _ hacc (s.closeField config)
  have hstate : (s.move n last h).dfaState = s.dfaState := rfl
  have hclose : (s.move n last h).closeField config = (s.closeField config).move n last h := rfl
  simp only [finish, hstate, hclose]
  cases s.dfaState with
  | fieldStart | inField | afterClosingQuote =>
      simp only
      cases hhere : (s.closeField config).emit config acc with
      | mk state result =>
          cases hthere : ((s.closeField config).move n last h).emit config acc' with
          | mk state' result' =>
              rw [hhere, hthere] at hemit
              obtain ⟨hstate, hresult⟩ := hemit
              cases result <;> cases result' <;>
                first | exact ⟨hstate, rfl⟩ | cases hresult
  | _ => exact ⟨rfl, rfl⟩

theorem run_move (hacc : Follows acc acc' h) (c x : ℕ) (bytes : Bytes) (s : RefState σ) :
    Moved n last h (s.run config acc c x bytes)
      ((s.move n last h).run config acc' (n + c) (n + x) bytes) := by
  induction bytes generalizing x s with
  | nil => exact finish_move config hacc x s
  | cons b rest ih =>
      have hstep := @step_move _ config _ _ _ n last _ hacc c x b s
      rw [run, run]
      cases hhere : s.step config acc c x b with
      | inl next =>
          rw [hhere] at hstep
          simp only at hstep ⊢
          rw [hstep]
          exact ih (x + 1) next
      | inr outcome =>
          rw [hhere] at hstep
          obtain ⟨outcome', hthere, hmoved⟩ := hstep
          simp only
          rw [hthere]
          exact hmoved

end Moving

section Handover

variable {config acc}

/-- Nothing is in flight between records. -/
def Idle (s : RefState σ) : Prop :=
  s.dfaState = .recordStart ∨ s.dfaState = .inComment → s.fields = [] ∧ s.field = []

theorem idle_new (base : ℕ) (state : σ) : (new base state).Idle := fun _ => ⟨rfl, rfl⟩

/-- The state with other offsets for the record and the field in flight. -/
def startAt (recordInStart fieldInStart : ℕ) (s : RefState σ) : RefState σ :=
  { s with recordInStart := recordInStart, fieldInStart := fieldInStart }

/-- Where the last record started is forgotten once the next one begins. -/
theorem run_startAt (c x : ℕ) (bytes : Bytes) (s : RefState σ)
    (hs : s.dfaState = .recordStart) (recordInStart fieldInStart : ℕ) :
    (s.startAt recordInStart fieldInStart).run config acc c x bytes =
      s.run config acc c x bytes := by
  induction bytes generalizing x with
  | nil => simp only [run, finish, startAt, hs]
  | cons b rest ih =>
      have hstate : (s.startAt recordInStart fieldInStart).dfaState = s.dfaState := rfl
      have hblank : (s.startAt recordInStart fieldInStart).isBlank config b =
          s.isBlank config b := rfl
      have hbegin : (s.startAt recordInStart fieldInStart).begin x = s.begin x := by
        rw [begin, begin, if_pos (hstate.trans hs), if_pos hs, startAt]
      simp only [run, step, hblank, hbegin, hstate]
      by_cases hb : s.isBlank config b = true
      · simp only [if_pos hb]
        by_cases hdone : c ≤ x
        · simp only [if_pos hdone]
          rfl
        · simp only [if_neg hdone]
          exact ih (x + 1)
      · simp only [if_neg hb]

/-- Between records the state is that of a fresh parse, up to the last record's
offsets. -/
theorem run_eq_new (c x : ℕ) (bytes : Bytes) (s : RefState σ)
    (hs : s.dfaState = .recordStart) (hidle : s.Idle) (base : ℕ) :
    s.run config acc c x bytes =
      ({ new base s.state with lastRecordEnd := s.lastRecordEnd } : RefState σ).run config acc
        c x bytes := by
  obtain ⟨hfields, hfield⟩ := hidle (Or.inl hs)
  rw [← run_startAt c x bytes s hs base base]
  congr 1
  simp only [startAt, new, hs, hfields, hfield]

theorem step_idle (hshape : Shape config.dfa) {c x : ℕ} {b : Byte} {s next : RefState σ}
    (hidle : s.Idle) (hstep : s.step config acc c x b = .inl next) : next.Idle := by
  simp only [step] at hstep
  split at hstep
  · split at hstep
    · cases hstep
    · cases hstep
      exact hidle
  · have hkeep : ∀ state', (config.dfa.transition s.dfaState b).next = state' →
        ({ (s.begin x).push (config.dfa.transition s.dfaState b) b with
          dfaState := state' } : RefState σ).Idle := by
      intro state' hnext hstate'
      obtain ⟨hfrom, hout⟩ := hshape.idle s.dfaState b (by rw [hnext]; exact hstate')
      obtain ⟨hfields, hfield⟩ := hidle hfrom
      rw [push, hout, if_neg Bool.false_ne_true, begin]
      split_ifs <;> exact ⟨hfields, hfield⟩
    split at hstep
    · cases hstep
    · cases hstep
      exact fun h => by rcases h with h | h <;> cases h
    · simp only [endRecord] at hstep
      split at hstep
      · cases hstep
      · split at hstep
        · cases hstep
        · cases hstep
          exact fun _ => ⟨rfl, rfl⟩
    · cases hstep
      exact hkeep _ rfl

/-- One byte under two chunk ends: only a record end between them tells them
apart, and beyond it the parse goes on between records. -/
theorem step_chunkEnd (hshape : Shape config.dfa) {c c' : ℕ} (hc : c ≤ c') (x : ℕ) (b : Byte)
    (s : RefState σ) :
    s.step config acc c' x b = s.step config acc c x b ∨
      c ≤ x ∧ x < c' ∧ (config.dfa.transition .recordStart b).next = .recordStart ∧
        ∃ next, s.step config acc c x b = .inr (next.state, .ok (some x)) ∧
          s.step config acc c' x b = .inl next ∧ next.dfaState = .recordStart := by
  by_cases hcut : c ≤ x ∧ x < c'
  · simp only [step]
    by_cases hb : s.isBlank config b = true
    · simp only [if_pos hb, if_pos hcut.1, if_neg (show ¬ c' ≤ x by omega)]
      simp only [isBlank, Bool.and_eq_true, beq_iff_eq] at hb
      exact Or.inr ⟨hcut.1, hcut.2, hb.2, s, rfl, rfl, hb.1⟩
    · simp only [if_neg hb]
      cases hnext : (config.dfa.transition s.dfaState b).next with
      | recordEnd =>
          simp only [endRecord]
          split
          · exact Or.inl rfl
          · simp only [if_pos hcut.1, if_neg (show ¬ c' ≤ x by omega)]
            exact Or.inr ⟨hcut.1, hcut.2, hshape.recordEnd_blank _ _ hnext, _, rfl, rfl, rfl⟩
      | _ => exact Or.inl rfl
  · have hiff : c' ≤ x ↔ c ≤ x := by omega
    exact Or.inl (by simp only [step, endRecord, hiff])

/-- A chunk is done on the byte at `x` only if that lies at or past its end, and is
blank where a record starts. -/
theorem step_done (hshape : Shape config.dfa) {c x : ℕ} {b : Byte} {s : RefState σ}
    {state : σ} {next : Option ℕ} (h : s.step config acc c x b = .inr (state, .ok next)) :
    next = some x ∧ c ≤ x ∧ (config.dfa.transition .recordStart b).next = .recordStart := by
  simp only [step] at h
  split at h
  · rename_i hblank
    simp only [isBlank, Bool.and_eq_true, beq_iff_eq] at hblank
    split at h
    · rename_i hdone
      cases h
      exact ⟨rfl, hdone, hblank.2⟩
    · cases h
  · split at h
    · cases h
    · cases h
    · rename_i hnext
      simp only [endRecord] at h
      split at h
      · cases h
      · split at h
        · rename_i hdone
          cases h
          exact ⟨rfl, hdone, hshape.recordEnd_blank _ _ hnext⟩
        · cases h
    · cases h

/-- A chunk that goes on has ended its records before its end. -/
theorem step_last {c x : ℕ} {b : Byte} {s next : RefState σ}
    (h : s.step config acc c x b = .inl next)
    (hlast : ∀ last, s.lastRecordEnd = some last → last < c) :
    ∀ last, next.lastRecordEnd = some last → last < c := by
  have hbegin : ∀ trans, ((s.begin x).push trans b).lastRecordEnd = s.lastRecordEnd := by
    intro trans
    rw [push, begin]
    split_ifs <;> rfl
  simp only [step] at h
  split at h
  · split at h
    · cases h
    · cases h
      exact hlast
  · split at h
    · cases h
    · cases h
      exact fun last hl => hlast last ((hbegin _).symm.trans hl)
    · simp only [endRecord] at h
      split at h
      · cases h
      · split at h
        · cases h
        · rename_i hgo
          cases h
          intro last hl
          cases hl
          omega
    · cases h
      exact fun last hl => hlast last ((hbegin _).symm.trans hl)

/-- How the runs under an earlier and a later chunk end relate: both end alike, or
the later one goes on from the boundary the earlier one stops at. -/
theorem run_chunkEnd (hshape : Shape config.dfa) {c c' : ℕ} (hc : c ≤ c') (x : ℕ)
    (bytes : Bytes) (s : RefState σ) (hidle : s.Idle)
    (hlast : ∀ last, s.lastRecordEnd = some last → last < c) :
    (s.run config acc c' x bytes = s.run config acc c x bytes ∧
      ∀ state q, s.run config acc c x bytes = (state, .ok (some q)) → c ≤ q →
        q < x + bytes.length → c' ≤ q) ∨
    ∃ q state last, x ≤ q ∧ q < x + bytes.length ∧ c ≤ q ∧ q < c' ∧
      s.run config acc c x bytes = (state, .ok (some q)) ∧
      s.run config acc c' x bytes =
        ({ new q state with lastRecordEnd := last } : RefState σ).run config acc c' q
          (bytes.drop (q - x)) := by
  induction bytes generalizing x s with
  | nil =>
      refine Or.inl ⟨rfl, fun state q hrun hcq hq => ?_⟩
      rw [List.length_nil] at hq
      have hend := congrArg Prod.snd hrun
      simp only [run, finish] at hend
      cases hs : s.dfaState with
      | fieldStart | inField | afterClosingQuote =>
          simp only [hs] at hend
          split at hend
          · cases hend
          · cases hend
            omega
      | inQuotedField | inEscapedQuote =>
          simp only [hs] at hend
          cases hend
      | _ =>
          simp only [hs] at hend
          exact absurd (hlast q (Except.ok.inj hend)) (by omega)
  | cons b rest ih =>
      simp only [run, List.length_cons]
      rcases step_chunkEnd hshape hc x b s with hsame | hcut
      · rw [hsame]
        cases hstep : s.step config acc c x b with
        | inr outcome =>
            refine Or.inl ⟨rfl, fun state q hrun hcq hq => ?_⟩
            simp only at hrun
            rw [hstep, hrun] at hsame
            obtain ⟨heq, hdone, -⟩ := step_done hshape hsame
            cases heq
            exact hdone
        | inl next =>
            rcases ih (x + 1) next (step_idle hshape hidle hstep) (step_last hstep hlast)
              with hrest | hrest
            · exact Or.inl ⟨hrest.1, fun state q hrun hcq hq =>
                hrest.2 state q hrun hcq (by omega)⟩
            · obtain ⟨q, state, last, hge, hlt, hcq, hqc, hhere, hthere⟩ := hrest
              refine Or.inr ⟨q, state, last, by omega, by omega, hcq, hqc, hhere, ?_⟩
              simp only
              rw [hthere, show q - x = (q - (x + 1)) + 1 by omega, List.drop_succ_cons]
      · obtain ⟨hcx, hxc, hblank, next, hhere, hthere, hstart⟩ := hcut
        have hnext := step_idle hshape hidle hthere
        refine Or.inr ⟨x, next.state, next.lastRecordEnd, le_rfl, by omega, hcx, hxc, ?_, ?_⟩
        · simp only [hhere]
        · simp only [hthere, Nat.sub_self, List.drop_zero, run]
          rw [run_eq_new c' (x + 1) rest next hstart hnext x]
          have hfresh : ({ new x next.state with lastRecordEnd := next.lastRecordEnd } :
              RefState σ).step config acc c' x b =
              .inl { new x next.state with lastRecordEnd := next.lastRecordEnd } := by
            simp only [step, isBlank, new, hblank, beq_self_eq_true, Bool.and_self, if_true,
              if_neg (show ¬ c' ≤ x by omega)]
          rw [hfresh]

/-- In a dialect without comments, no byte leads into one. -/
def CommentFree (dfa : Dfa) : Prop :=
  ∀ b, (dfa.transition .recordStart b).next ≠ .inComment

/-- A state the parse can be in between two bytes, outside of comments. -/
def Live (s : RefState σ) : Prop :=
  s.dfaState.isAction = false ∧ s.dfaState ≠ .inComment

theorem step_live (hshape : Shape config.dfa) (hfree : CommentFree config.dfa) {c x : ℕ}
    {b : Byte} {s next : RefState σ} (hlive : s.Live)
    (h : s.step config acc c x b = .inl next) :
    next.Live ∧ (next.dfaState = .recordStart → x < c) := by
  simp only [step] at h
  split at h
  · split at h
    · cases h
    · cases h
      exact ⟨hlive, fun _ => by omega⟩
  · rename_i hblank
    split at h
    · cases h
    · cases h
      exact ⟨⟨rfl, by simp⟩, fun hs => by cases hs⟩
    · simp only [endRecord] at h
      split at h
      · cases h
      · split at h
        · cases h
        · cases h
          exact ⟨⟨rfl, by simp⟩, fun _ => by omega⟩
    · rename_i state' herror hfield hrecord
      cases h
      -- what leads between records is a blank byte, which is excluded here
      have hidle := hshape.idle s.dfaState b
      have hne := hfree b
      have hcomment := hlive.2
      simp only [isBlank, Bool.and_eq_true, beq_iff_eq] at hblank
      have hstate : (config.dfa.transition s.dfaState b).next ≠ .recordStart ∧
          (config.dfa.transition s.dfaState b).next ≠ .inComment := by
        constructor
        · intro hnext
          rcases (hidle (Or.inl hnext)).1 with hs | hs
          · rw [hs] at hnext hblank
            exact hblank ⟨rfl, hnext⟩
          · exact hcomment hs
        · intro hnext
          rcases (hidle (Or.inr hnext)).1 with hs | hs
          · rw [hs] at hnext
            exact hne hnext
          · exact hcomment hs
      refine ⟨⟨?_, hstate.2⟩, fun hs => absurd hs hstate.1⟩
      cases hnext : (config.dfa.transition s.dfaState b).next with
      | fieldEnd => exact absurd hnext hfield
      | recordEnd => exact absurd hnext hrecord
      | error => exact absurd hnext herror
      | _ => rfl

/-- Where the parse of a chunk that ends before the input stops: at the input's end,
or on a terminator at or past the chunk's. -/
theorem run_next (hshape : Shape config.dfa) (hfree : CommentFree config.dfa) {c x : ℕ}
    (bytes : Bytes) (s : RefState σ) (hlive : s.Live) (hend : c < x + bytes.length)
    (hopen : x ≤ c ∨ s.dfaState ≠ .recordStart) {state : σ} {next : Option ℕ}
    (hrun : s.run config acc c x bytes = (state, .ok next)) :
    ∃ q, next = some q ∧ x ≤ q ∧ c ≤ q ∧ q ≤ x + bytes.length ∧
      (q < x + bytes.length → ∃ b, bytes[q - x]? = some b ∧
        (config.dfa.transition .recordStart b).next = .recordStart) := by
  induction bytes generalizing x s with
  | nil =>
      rw [List.length_nil] at hend ⊢
      have hne : s.dfaState ≠ .recordStart := by
        rcases hopen with hopen | hopen
        · omega
        · exact hopen
      obtain ⟨haction, hcomment⟩ := hlive
      simp only [run, finish] at hrun
      cases hs : s.dfaState with
      | fieldStart | inField | afterClosingQuote =>
          simp only [hs] at hrun
          split at hrun
          · cases hrun
          · cases hrun
            exact ⟨x, rfl, le_rfl, by omega, by omega, fun h => absurd h (by omega)⟩
      | inQuotedField | inEscapedQuote =>
          simp only [hs] at hrun
          cases hrun
      | recordStart => exact absurd hs hne
      | inComment => exact absurd hs hcomment
      | fieldEnd | recordEnd | error =>
          rw [hs] at haction
          cases haction
  | cons b rest ih =>
      rw [run] at hrun
      rw [List.length_cons] at hend ⊢
      cases hstep : s.step config acc c x b with
      | inl following =>
          rw [hstep] at hrun
          obtain ⟨hlive', hstart⟩ := step_live hshape hfree hlive hstep
          have hopen' : x + 1 ≤ c ∨ following.dfaState ≠ .recordStart := by
            by_cases hs : following.dfaState = .recordStart
            · exact Or.inl (hstart hs)
            · exact Or.inr hs
          obtain ⟨q, hq, hxq, hcq, hle, hbyte⟩ := ih following hlive' (by omega) hopen' hrun
          refine ⟨q, hq, by omega, hcq, by omega, fun hlt => ?_⟩
          rw [show q - x = (q - (x + 1)) + 1 by omega, List.getElem?_cons_succ]
          exact hbyte (by omega)
      | inr outcome =>
          rw [hstep] at hrun
          simp only at hrun
          rw [hrun] at hstep
          obtain ⟨hq, hdone, hblank⟩ := step_done hshape hstep
          refine ⟨x, hq, le_rfl, hdone, by omega, fun _ => ⟨b, ?_, hblank⟩⟩
          rw [Nat.sub_self, List.getElem?_cons_zero]

end Handover

end Csveee.Dfa.RefState
