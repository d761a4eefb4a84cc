import Csveee.Parser.Dfa.Boundary
import Csveee.Parser.Dfa.Sequential

/-!
# The quote handling modes

The tables of one dialect under the three quote handlings differ only where the
strict one errs, and there the toggling one carries the strict probe's flag.  On an
input the strict dialect accepts, all of them go through the same states.
-/

namespace Csveee

def Config.withHandling (config : Config) (mode : QuoteHandling) : Config :=
  { config with quoteHandling := mode }

theorem Config.Distinct.withHandling {config : Config} (h : config.Distinct)
    (mode : QuoteHandling) : (config.withHandling mode).Distinct :=
  ⟨h.delimiter, h.quote, h.escape, h.comment, h.escape_quote⟩

/-- The state after the byte a field or a record ends on. -/
def State.settle : State → State
  | .fieldEnd => .fieldStart
  | .recordEnd => .recordStart
  | state => state

/-- Inside quotes, terminators are content. -/
def State.inQuotes : State → Bool
  | .inQuotedField | .inEscapedQuote => true
  | _ => false

namespace Dfa

/-- One byte of a run without any records. -/
def advance (dfa : Dfa) (state : State) (b : Byte) : State :=
  (dfa.transition state b).next.settle

/-- The state a run over the bytes comes to. -/
def stateAfter (dfa : Dfa) (state : State) (bytes : Bytes) : State :=
  bytes.foldl dfa.advance state

/-- A run over the whole input never errs, and does not end inside a quoted field. -/
def Accepts (dfa : Dfa) (bytes : Bytes) : Prop :=
  (∀ n, dfa.stateAfter .recordStart (bytes.take n) ≠ .error) ∧
    (dfa.stateAfter .recordStart bytes).inQuotes = false

/-- A run from the state never errs on the bytes. -/
def RunsClean (dfa : Dfa) (state : State) (bytes : Bytes) : Prop :=
  ∀ n, dfa.stateAfter state (bytes.take n) ≠ .error

theorem RunsClean.cons {dfa : Dfa} {state : State} {b : Byte} {rest : Bytes}
    (h : dfa.RunsClean state (b :: rest)) :
    (dfa.transition state b).next ≠ .error ∧ dfa.RunsClean (dfa.advance state b) rest := by
  refine ⟨fun herr => ?_, fun n => h (n + 1)⟩
  have hone := h 1
  simp only [List.take_succ_cons, List.take_zero, stateAfter, List.foldl_cons, List.foldl_nil,
    advance, herr] at hone
  exact hone rfl

theorem RunsClean.drop {dfa : Dfa} {state : State} {bytes : Bytes}
    (h : dfa.RunsClean state bytes) (n : ℕ) :
    dfa.RunsClean (dfa.stateAfter state (bytes.take n)) (bytes.drop n) := by
  intro m
  have hall := h (n + m)
  rwa [List.take_add, stateAfter, List.foldl_append] at hall

section

variable {config : Config} (h : config.Distinct) (endian : Endian)

def dialect (endian : Endian) (config : Config) (mode : QuoteHandling) : Dfa :=
  Dfa.new endian (config.withHandling mode)

include h in
theorem dialect_transition (mode : QuoteHandling) {state : State} (hstate : state ≠ .inComment)
    (b : Byte) : (dialect endian config mode).transition state b =
      symbolRow mode config.doubledQuotes state (config.symbol b) :=
  transition_eq (h.withHandling mode) endian state hstate b

/-- Where the strict dialect does not err, no other one differs. -/
theorem symbolRow_strict {mode : QuoteHandling} {doubled : Bool} {state : State}
    {symbol : Symbol} (h : (symbolRow .strict doubled state symbol).next ≠ .error) :
    symbolRow mode doubled state symbol = symbolRow .strict doubled state symbol := by
  cases mode <;> cases doubled <;> cases state <;> cases symbol <;>
    first | rfl | exact absurd rfl h

/-- Records end, and are waited for, on terminators outside of quotes. -/
theorem symbolRow_stops {mode : QuoteHandling} {doubled : Bool} {state : State}
    {symbol : Symbol} (hstate : state ≠ .inComment)
    (h : (symbolRow mode doubled state symbol).next = .recordEnd ∨
      (symbolRow mode doubled state symbol).next = .recordStart) :
    symbol = .terminator ∧ state.inQuotes = false := by
  rcases h with h | h <;>
    cases mode <;> cases doubled <;> cases state <;> cases symbol <;>
      first | exact absurd rfl hstate | exact ⟨rfl, rfl⟩ | cases h

/-- A terminator outside of quotes ends a record, or is blank before one. -/
theorem symbolRow_terminator {mode : QuoteHandling} {doubled : Bool} {state : State}
    (hlive : state.isAction = false) (hcomment : state ≠ .inComment)
    (hquotes : state.inQuotes = false) :
    state = .recordStart ∧ (symbolRow mode doubled state .terminator).next = .recordStart ∨
      (symbolRow mode doubled state .terminator).next = .recordEnd := by
  cases mode <;> cases doubled <;> cases state <;>
    first
    | exact Or.inl ⟨rfl, rfl⟩
    | exact Or.inr rfl
    | exact absurd hlive Bool.noConfusion
    | exact absurd hquotes Bool.noConfusion
    | exact absurd rfl hcomment

/-- Which symbols lead into quotes, out of them, and into comments. -/
theorem symbolRow_enters {mode : QuoteHandling} {doubled : Bool} {state : State}
    {symbol : Symbol} (hstate : state ≠ .inComment) :
    match (symbolRow mode doubled state symbol).next with
    | .inQuotedField => symbol = .quote ∨ state = .inQuotedField ∨ state = .inEscapedQuote
    | .afterClosingQuote => symbol = .quote
    | .inEscapedQuote => symbol = .escape
    | .inComment => symbol = .comment
    | _ => True := by
  cases mode <;> cases doubled <;> cases state <;> cases symbol <;>
    first
    | exact trivial
    | rfl
    | exact Or.inl rfl
    | exact Or.inr (Or.inl rfl)
    | exact Or.inr (Or.inr rfl)
    | exact absurd rfl hstate

/-- A state a run of a comment-free dialect can be in between two bytes. -/
structure Interior (config : Config) (state : State) : Prop where
  live : state.isAction = false
  comment : state ≠ .inComment
  quoted : state = .inQuotedField ∨ state = .afterClosingQuote → config.quote.isSome = true
  escaped : state = .inEscapedQuote → config.quote.isSome = true ∧
    config.escape.isSome = true ∧ config.doubledQuotes = false

theorem interior_recordStart (config : Config) : Interior config .recordStart :=
  ⟨rfl, by simp, by simp, by simp⟩

include h in
theorem Interior.advance (hcomment : config.comment = none) {mode : QuoteHandling}
    {state : State} (hstate : Interior config state) (b : Byte)
    (hnext : ((dialect endian config mode).transition state b).next ≠ .error) :
    Interior config ((dialect endian config mode).advance state b) := by
  obtain ⟨-, -, hquote, hescape, hcommentByte⟩ := symbol_tests h b
  have hquoted := h.escape_quote
  obtain ⟨hlive, hne, hquotedState, hescapedState⟩ := hstate
  rw [Dfa.advance]
  rw [dialect_transition h endian mode hne] at hnext ⊢
  have henters := @symbolRow_enters mode config.doubledQuotes _ (config.symbol b) hne
  have hquoteSome : config.symbol b = .quote → config.quote.isSome = true := by
    intro hs
    rw [hquote.mp hs]
    rfl
  cases hrow : (symbolRow mode config.doubledQuotes state (config.symbol b)).next with
  | error => exact absurd hrow hnext
  | inComment =>
      rw [hrow] at henters
      rw [hcomment] at hcommentByte
      cases hcommentByte.mp henters
  | inQuotedField =>
      rw [hrow] at henters
      refine ⟨rfl, by simp [State.settle], fun _ => ?_, by simp [State.settle]⟩
      rcases henters with hs | hs | hs
      · exact hquoteSome hs
      · exact hquotedState (Or.inl hs)
      · exact (hescapedState hs).1
  | afterClosingQuote =>
      rw [hrow] at henters
      exact ⟨rfl, by simp [State.settle], fun _ => hquoteSome henters, by simp [State.settle]⟩
  | inEscapedQuote =>
      rw [hrow] at henters
      obtain ⟨hbyte, hdoubled⟩ := hescape.mp henters
      have hsome : config.escape.isSome = true := by
        rw [hbyte]
        rfl
      exact ⟨rfl, by simp [State.settle], by simp [State.settle],
        fun _ => ⟨hquoted hsome, hsome, hdoubled⟩⟩
  | _ => exact ⟨rfl, by simp [State.settle], by simp [State.settle], by simp [State.settle]⟩

include h in
theorem Interior.stateAfter (hcomment : config.comment = none) {mode : QuoteHandling}
    {state : State} (hstate : Interior config state) (bytes : Bytes)
    (hclean : (dialect endian config mode).RunsClean state bytes) :
    Interior config ((dialect endian config mode).stateAfter state bytes) := by
  induction bytes generalizing state with
  | nil => exact hstate
  | cons b rest ih =>
      obtain ⟨hnext, hrest⟩ := hclean.cons
      exact ih (hstate.advance h endian hcomment b hnext) hrest

include h in
theorem stateAfter_ne_inComment (hcomment : config.comment = none) (mode : QuoteHandling)
    {state : State} (hstate : state ≠ .inComment) (bytes : Bytes) :
    (dialect endian config mode).stateAfter state bytes ≠ .inComment := by
  induction bytes generalizing state with
  | nil => exact hstate
  | cons b rest ih =>
      refine ih fun hadvance => ?_
      have hcommentByte := (symbol_tests h b).2.2.2.2
      have henters := @symbolRow_enters mode config.doubledQuotes _ (config.symbol b) hstate
      rw [Dfa.advance, dialect_transition h endian mode hstate] at hadvance
      cases hrow : (symbolRow mode config.doubledQuotes state (config.symbol b)).next with
      | inComment =>
          rw [hrow] at henters
          rw [hcomment] at hcommentByte
          cases hcommentByte.mp henters
      | _ =>
          rw [hrow] at hadvance
          cases hadvance

include h in
/-- On what the strict dialect accepts, every quote handling goes through the same
states. -/
theorem stateAfter_strict (hcomment : config.comment = none) (mode : QuoteHandling)
    {state : State} (hstate : Interior config state) (bytes : Bytes)
    (hclean : (dialect endian config .strict).RunsClean state bytes) :
    (dialect endian config mode).stateAfter state bytes =
      (dialect endian config .strict).stateAfter state bytes := by
  induction bytes generalizing state with
  | nil => rfl
  | cons b rest ih =>
      obtain ⟨hnext, hrest⟩ := hclean.cons
      have hsame : (dialect endian config mode).advance state b =
          (dialect endian config .strict).advance state b := by
        rw [dialect_transition h endian .strict hstate.comment] at hnext
        rw [Dfa.advance, Dfa.advance, dialect_transition h endian mode hstate.comment,
          dialect_transition h endian .strict hstate.comment, symbolRow_strict hnext]
      have hadvance := hstate.advance h endian hcomment b hnext
      simp only [Dfa.stateAfter, List.foldl_cons, hsame]
      exact ih hadvance hrest

/-- The boundary scan in the second state follows the strict run in the first one:
the states it starts in stand for all those they act alike from. -/
inductive Tracks : State → State → Prop
  | same (state : State) (hlive : state.isAction = false) (hstart : state ≠ .recordStart)
      (hcomment : state ≠ .inComment) : Tracks state state
  | outside (state : State) (hlive : state.isAction = false) (hcomment : state ≠ .inComment)
      (hquotes : state.inQuotes = false) : Tracks state .fieldStart

theorem Tracks.ne_inComment {state scan : State} (h : Tracks state scan) :
    scan ≠ .inComment := by
  cases h with
  | same _ _ hcomment => exact hcomment
  | outside => simp

theorem tracks_step {doubled : Bool} {state scan : State} {symbol : Symbol}
    (h : Tracks state scan) (hsymbol : symbol ≠ .comment)
    (hnext : (symbolRow .strict doubled state symbol).next ≠ .error) :
    (symbolRow .toggle doubled scan symbol).strictError = false ∧
      (symbolRow .toggle doubled scan symbol).next ≠ .error ∧
      ((symbolRow .toggle doubled scan symbol).next = .recordEnd ↔
        symbol = .terminator ∧ state.inQuotes = false) ∧
      ((symbolRow .toggle doubled scan symbol).next ≠ .recordEnd →
        Tracks (symbolRow .strict doubled state symbol).next.settle
          (symbolRow .toggle doubled scan symbol).next.settle) := by
  cases h with
  | same hlive hstart hcomment =>
      cases state <;>
        first
        | exact absurd hlive Bool.noConfusion
        | exact absurd rfl hstart
        | exact absurd rfl hcomment
        | skip
      all_goals
        cases doubled <;> cases symbol <;>
        first
        | exact absurd rfl hsymbol
        | exact absurd rfl hnext
        | exact ⟨rfl, by decide, by decide, fun hend => absurd rfl hend⟩
        | exact ⟨rfl, by decide, by decide, fun _ => .same _ rfl (by decide) (by decide)⟩
  | outside hlive hcomment hquotes =>
      cases state <;>
        first
        | exact absurd hlive Bool.noConfusion
        | exact absurd rfl hcomment
        | exact absurd hquotes Bool.noConfusion
        | skip
      all_goals
        cases doubled <;> cases symbol <;>
        first
        | exact absurd rfl hsymbol
        | exact absurd rfl hnext
        | exact ⟨rfl, by decide, by decide, fun hend => absurd rfl hend⟩
        | exact ⟨rfl, by decide, by decide, fun _ => .same _ rfl (by decide) (by decide)⟩

include h in
/-- A scan that tracks a strict run finds a boundary no later than the run's first
terminator outside of quotes, and the probe does not reject it. -/
theorem scan_tracks (hcomment : config.comment = none) (strictProbe : Bool)
    {state scan : State} (htracks : Tracks state scan) (hstate : Interior config state)
    (bytes : Bytes) (hclean : (dialect endian config .strict).RunsClean state bytes)
    (x i : ℕ) {b : Byte} (hb : bytes[i]? = some b) (hterm : config.isTerminator b = true)
    (hquotes : ((dialect endian config .strict).stateAfter state (bytes.take i)).inQuotes =
      false) :
    ∃ pos, pos ≤ x + i ∧
      scanBytes (dialect endian config .toggle) strictProbe scan x bytes = .recordEnd pos := by
  induction bytes generalizing state scan x i with
  | nil => cases hb
  | cons c rest ih =>
      obtain ⟨hnext, hrest⟩ := hclean.cons
      have hadvance := hstate.advance h endian hcomment c hnext
      obtain ⟨-, htermSymbol, -, -, hcommentByte⟩ := symbol_tests h c
      have hsymbol : config.symbol c ≠ .comment := by
        intro hs
        rw [hcomment] at hcommentByte
        cases hcommentByte.mp hs
      rw [dialect_transition h endian .strict hstate.comment] at hnext
      obtain ⟨hflag, herror, hend, htracks'⟩ := tracks_step htracks hsymbol hnext
      rw [scanBytes]
      simp only [dialect_transition h endian .toggle htracks.ne_inComment, hflag,
        Bool.and_false, Bool.false_eq_true, if_false]
      by_cases hrecord : (symbolRow .toggle config.doubledQuotes scan
          (config.symbol c)).next = .recordEnd
      · rw [hrecord]
        exact ⟨x, Nat.le_add_right x i, rfl⟩
      · -- the run goes on, so the terminator comes later
        have hi : i ≠ 0 := by
          rintro rfl
          cases hb
          exact hrecord (hend.mpr ⟨htermSymbol.mpr hterm, hquotes⟩)
        obtain ⟨j, rfl⟩ := Nat.exists_eq_add_one_of_ne_zero hi
        have hfollows : (dialect endian config .strict).advance state c =
            (symbolRow .strict config.doubledQuotes state (config.symbol c)).next.settle := by
          rw [Dfa.advance, dialect_transition h endian .strict hstate.comment]
        have hgo := ih (by rw [hfollows]; exact htracks' hrecord) hadvance
          hrest (x + 1) j hb hquotes
        obtain ⟨pos, hpos, hscan⟩ := hgo
        refine ⟨pos, by omega, ?_⟩
        rw [← hscan]
        cases hcase : (symbolRow .toggle config.doubledQuotes scan (config.symbol c)).next with
        | error => exact absurd hcase herror
        | recordEnd => exact absurd hcase hrecord
        | _ => rfl

/-- The assumption that is true of a state. -/
def trueAssumption : State → Assumption
  | .inQuotedField => .inQuotes
  | .inEscapedQuote => .inQuotesAfterEscape
  | _ => .outOfQuotes

/-- Speculation covers every state a run can be in. -/
theorem trueAssumption_mem {state : State} (hstate : Interior config state) :
    trueAssumption state ∈ assumptionsForConfig config.quote config.escape := by
  have hquoted := hstate.quoted
  have hescaped := hstate.escaped
  cases state with
  | inQuotedField =>
      obtain ⟨q, hq⟩ := Option.isSome_iff_exists.mp (hquoted (Or.inl rfl))
      rw [hq]
      exact inQuotes_mem_assumptions q config.escape
  | inEscapedQuote =>
      obtain ⟨hsomeQuote, hsomeEscape, hdoubled⟩ := hescaped rfl
      obtain ⟨q, hq⟩ := Option.isSome_iff_exists.mp hsomeQuote
      obtain ⟨e, he⟩ := Option.isSome_iff_exists.mp hsomeEscape
      rw [Config.doubledQuotes, hq, he] at hdoubled
      rw [hq, he, assumptionsForConfig, if_neg (by simpa using hdoubled)]
      simp [trueAssumption]
  | _ => exact outOfQuotes_mem_assumptions config.quote config.escape

theorem tracks_trueAssumption {state : State} (hstate : Interior config state) :
    Tracks state
      ((DfaChunkParser.new endian config).assumptionToState (trueAssumption state)) := by
  obtain ⟨hlive, hcomment, -, hescaped⟩ := hstate
  cases state with
  | inQuotedField => exact .same _ rfl (by decide) (by decide)
  | inEscapedQuote =>
      have hdoubled : config.doubledQuotes = false := (hescaped rfl).2.2
      simp only [trueAssumption, DfaChunkParser.assumptionToState, DfaChunkParser.new, hdoubled,
        Bool.false_eq_true, if_false]
      exact .same _ rfl (by decide) (by decide)
  | _ => exact .outside _ hlive hcomment rfl

end

section

variable {σ : Type} {ref : StepperConfig} {acc : Accumulator σ}

theorem RefState.step_dfaState {c x : ℕ} {b : Byte} {s next : RefState σ}
    (h : s.step ref acc c x b = .inl next) :
    next.dfaState = ref.dfa.advance s.dfaState b := by
  simp only [RefState.step] at h
  split at h
  · rename_i hblank
    simp only [RefState.isBlank, Bool.and_eq_true, beq_iff_eq] at hblank
    split at h
    · cases h
    · cases h
      rw [advance, hblank.1, hblank.2]
      rfl
  · split at h
    · cases h
    · rename_i hnext
      cases h
      rw [advance, hnext, State.settle]
    · rename_i hnext
      simp only [RefState.endRecord] at h
      split at h
      · cases h
      · split at h
        · cases h
        · cases h
          rw [advance, hnext, State.settle]
    · rename_i state' herror hfield hrecord
      cases h
      rw [advance]
      cases hnext : (ref.dfa.transition s.dfaState b).next with
      | fieldEnd => exact absurd hnext hfield
      | recordEnd => exact absurd hnext hrecord
      | _ => rfl

/-- A chunk is done on a byte that ends a record, or is blank before one. -/
theorem RefState.step_stops {c x : ℕ} {b : Byte} {s : RefState σ} {state : σ}
    {next : Option ℕ} (h : s.step ref acc c x b = .inr (state, .ok next)) :
    next = some x ∧ ((ref.dfa.transition s.dfaState b).next = .recordEnd ∨
      (ref.dfa.transition s.dfaState b).next = .recordStart) := by
  simp only [RefState.step] at h
  split at h
  · rename_i hblank
    simp only [RefState.isBlank, Bool.and_eq_true, beq_iff_eq] at hblank
    split at h
    · cases h
      exact ⟨rfl, Or.inr (by rw [hblank.1, hblank.2])⟩
    · cases h
  · split at h
    · cases h
    · cases h
    · rename_i hnext
      simp only [RefState.endRecord] at h
      split at h
      · cases h
      · split at h
        · cases h
          exact ⟨rfl, Or.inl hnext⟩
        · cases h
    · cases h

theorem RefState.run_stops {c x : ℕ} (bytes : Bytes) (s : RefState σ)
    (hlast : ∀ last, s.lastRecordEnd = some last → last < c) {state : σ} {q : ℕ}
    (h : s.run ref acc c x bytes = (state, .ok (some q))) (hcq : c ≤ q)
    (hq : q < x + bytes.length) :
    x ≤ q ∧ ∃ b, bytes[q - x]? = some b ∧
      ((ref.dfa.transition (ref.dfa.stateAfter s.dfaState (bytes.take (q - x))) b).next =
          .recordEnd ∨
        (ref.dfa.transition (ref.dfa.stateAfter s.dfaState (bytes.take (q - x))) b).next =
          .recordStart) := by
  induction bytes generalizing x s with
  | nil =>
      rw [List.length_nil] at hq
      have hend := congrArg Prod.snd h
      simp only [RefState.run, RefState.finish] at hend
      cases hs : s.dfaState with
      | fieldStart | inField | afterClosingQuote =>
          simp only [hs] at hend
          split at hend
          · cases hend
          · cases hend
            omega
      | inQuotedField | inEscapedQuote =>
          simp only [hs] at hend
          cases hend
      | _ =>
          simp only [hs] at hend
          exact absurd (hlast q (Except.ok.inj hend)) (by omega)
  | cons b rest ih =>
      rw [RefState.run] at h
      rw [List.length_cons] at hq
      cases hstep : s.step ref acc c x b with
      | inr outcome =>
          rw [hstep] at h
          simp only at h
          rw [h] at hstep
          obtain ⟨heq, hstops⟩ := RefState.step_stops hstep
          cases heq
          refine ⟨le_rfl, b, ?_, ?_⟩
          · rw [Nat.sub_self, List.getElem?_cons_zero]
          · rw [Nat.sub_self, List.take_zero]
            exact hstops
      | inl next =>
          rw [hstep] at h
          obtain ⟨hle, c', hbyte, hstops⟩ := ih next (RefState.step_last hstep hlast) h (by omega)
          refine ⟨by omega, c', ?_, ?_⟩
          · rw [show q - x = (q - (x + 1)) + 1 by omega, List.getElem?_cons_succ]
            exact hbyte
          · rw [RefState.step_dfaState hstep] at hstops
            rw [show q - x = (q - (x + 1)) + 1 by omega, List.take_succ_cons]
            exact hstops

end

section

variable {config : Config} (h : config.Distinct) (endian : Endian)

include h in
/-- The sequential parse hands over at a terminator outside of quotes. -/
theorem bodyRecords_stops {acc : RecordWise} {data : Bytes} {p c q : ℕ}
    {records : List Record} (hcq : c ≤ q) (hq : q < data.length) (hp : p ≤ c)
    (hstate : (reference endian config).dfa.stateAfter .recordStart
      ((data.drop p).take (q - p)) ≠ .inComment)
    (hbody : refParse (reference endian config) acc.accumulator c p (data.drop p) [] =
      (records, .ok (some q))) :
    (∃ b, data[q]? = some b ∧ config.isTerminator b = true) ∧
      ((reference endian config).dfa.stateAfter .recordStart
        ((data.drop p).take (q - p))).inQuotes = false := by
  obtain ⟨hpq, b, hb, hstops⟩ := RefState.run_stops (data.drop p) (RefState.new p [])
    (fun last hl => by cases hl) hbody hcq (by rw [List.length_drop]; omega)
  rw [List.getElem?_drop, Nat.add_sub_cancel' hpq] at hb
  have hterm := (symbol_tests h b).2.1
  have hrow : ((reference endian config).dfa.transition ((reference endian config).dfa.stateAfter
      .recordStart ((data.drop p).take (q - p))) b) = symbolRow config.quoteHandling
        config.doubledQuotes ((reference endian config).dfa.stateAfter .recordStart
          ((data.drop p).take (q - p))) (config.symbol b) :=
    transition_eq h endian _ hstate b
  simp only [RefState.new] at hstops
  rw [hrow] at hstops
  generalize (reference endian config).dfa.stateAfter .recordStart
    ((data.drop p).take (q - p)) = state at hstops hstate
  have hsymbol := symbolRow_stops hstate hstops
  exact ⟨⟨b, hb, hterm.mp hsymbol.1⟩, hsymbol.2⟩

end

end Dfa

end Csveee
