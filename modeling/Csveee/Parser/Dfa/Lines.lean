import Csveee.Parser.Dfa.Reading
import Csveee.Parser.Dfa.Restriction

/-!
# Only the contents of lines matter

Without comments, a terminator outside of quotes ends a record or is blank.  The bytes
between such terminators are the contents of the input's lines; a parse is a parse of each of
them by itself, however many terminators, and which ones, lie in between.
-/

namespace Csveee.Dfa

/-- A terminator the automaton meets outside of quotes. -/
def isBreak (config : Config) (state : State) (b : Byte) : Bool :=
  config.isTerminator b && !state.inQuotes

/-- A piece of content, unless there is none. -/
def flush (piece : Bytes) : List Bytes := if piece = [] then [] else [piece]

/-- The pieces of the bytes between breaks, the first of them continuing a piece. -/
def contentsFrom (endian : Endian) (config : Config) : State → Bytes → Bytes → List Bytes
  | _, piece, [] => flush piece
  | state, piece, b :: rest =>
      let next := (Dfa.new endian config).advance state b
      if isBreak config state b then flush piece ++ contentsFrom endian config next [] rest
      else contentsFrom endian config next (piece ++ [b]) rest

/-- What the lines of an input hold: the bytes between runs of terminators outside of quotes,
as the automaton sees them on its way over the input. -/
def contents (endian : Endian) (config : Config) (text : Bytes) : List Bytes :=
  contentsFrom endian config .recordStart [] text

section

variable (endian : Endian) {config : Config} (h : config.Distinct)
  (hcomment : config.comment = none)

/-- A piece in flight is a prefix of the first content. -/
theorem contentsFrom_piece (state : State) {piece : Bytes} (hpiece : piece ≠ []) (bytes : Bytes) :
    ∃ more others, contentsFrom endian config state piece bytes = (piece ++ more) :: others := by
  induction bytes generalizing state piece with
  | nil => exact ⟨[], [], by rw [contentsFrom, flush, if_neg hpiece, List.append_nil]⟩
  | cons b rest ih =>
      rw [contentsFrom]
      split_ifs
      · exact ⟨[], _, by rw [flush, if_neg hpiece, List.append_nil]; rfl⟩
      · obtain ⟨more, others, heq⟩ := ih ((Dfa.new endian config).advance state b)
          (List.append_ne_nil_of_right_ne_nil piece (List.cons_ne_nil b []))
        exact ⟨b :: more, others, by rw [heq, List.append_assoc]; rfl⟩

include h in
/-- A terminator outside of quotes leads to where a record starts, unless the automaton has
erred. -/
theorem advance_break {state : State} (hstate : state ≠ .inComment) {b : Byte}
    (hbreak : isBreak config state b = true) :
    (Dfa.new endian config).advance state b = if state.isAction then .error else .recordStart := by
  rw [isBreak, Bool.and_eq_true, Bool.not_eq_true'] at hbreak
  rw [Dfa.advance, transition_eq h endian state hstate b,
    ((symbol_tests h b).2.1).mpr hbreak.1]
  have hquotes := hbreak.2
  generalize config.quoteHandling = mode
  generalize config.doubledQuotes = doubled
  cases state <;>
    first
    | exact absurd rfl hstate
    | exact absurd hquotes Bool.noConfusion
    | cases mode <;> cases doubled <;> rfl

include h in
theorem contentsFrom_run {state : State} (hstate : state ≠ .inComment)
    (hquotes : state.inQuotes = false) (piece : Bytes) {run : Bytes} (hrun : run ≠ [])
    (hterm : ∀ b ∈ run, config.isTerminator b = true) (rest : Bytes) :
    contentsFrom endian config state piece (run ++ rest) =
      flush piece ++ contentsFrom endian config (if state.isAction then .error else .recordStart)
        [] rest := by
  induction run generalizing state piece with
  | nil => exact absurd rfl hrun
  | cons b run ih =>
      have hbreak : isBreak config state b = true := by
        rw [isBreak, hterm b List.mem_cons_self, hquotes]
        rfl
      rw [List.cons_append, contentsFrom]
      rw [if_pos hbreak, advance_break endian h hstate hbreak]
      congr 1
      cases run with
      | nil => rfl
      | cons c run =>
          have hrest := fun (next : State) hcomment hnext => @ih next hcomment hnext []
            (List.cons_ne_nil c run) fun b hb => hterm b (List.mem_cons_of_mem _ hb)
          cases hlive : state.isAction with
          | true => exact hrest .error (by decide) rfl
          | false => exact hrest .recordStart (by decide) rfl

include h hcomment in
theorem advance_ne_inComment {state : State} (hstate : state ≠ .inComment) (b : Byte) :
    (Dfa.new endian config).advance state b ≠ .inComment :=
  stateAfter_ne_inComment h endian hcomment config.quoteHandling hstate [b]

include h hcomment in
/-- One run of terminators outside of quotes is as good as another. -/
theorem contentsFrom_replace (left run run' right : Bytes) {state : State}
    (hstate : state ≠ .inComment)
    (hquotes : ((Dfa.new endian config).stateAfter state left).inQuotes = false)
    (hrun : run ≠ []) (hterm : ∀ b ∈ run, config.isTerminator b = true)
    (hrun' : run' ≠ []) (hterm' : ∀ b ∈ run', config.isTerminator b = true) (piece : Bytes) :
    contentsFrom endian config state piece (left ++ (run ++ right)) =
      contentsFrom endian config state piece (left ++ (run' ++ right)) := by
  induction left generalizing state piece with
  | nil =>
      rw [List.nil_append, List.nil_append,
        contentsFrom_run endian h hstate hquotes piece hrun hterm,
        contentsFrom_run endian h hstate hquotes piece hrun' hterm']
  | cons b left ih =>
      have hnext := advance_ne_inComment endian h hcomment hstate b
      simp only [List.cons_append, contentsFrom, ih hnext hquotes]

include h hcomment in
/-- A run at the end may as well not be there. -/
theorem contentsFrom_trail (left run : Bytes) {state : State} (hstate : state ≠ .inComment)
    (hquotes : ((Dfa.new endian config).stateAfter state left).inQuotes = false)
    (hterm : ∀ b ∈ run, config.isTerminator b = true) (piece : Bytes) :
    contentsFrom endian config state piece (left ++ run) =
      contentsFrom endian config state piece left := by
  induction left generalizing state piece with
  | nil =>
      by_cases hrun : run = []
      · rw [hrun, List.append_nil]
      · have hflush := contentsFrom_run endian h hstate hquotes piece hrun hterm []
        rw [List.append_nil] at hflush
        rw [List.nil_append, hflush]
        simp only [contentsFrom, flush, if_true, List.append_nil]
  | cons b left ih =>
      have hnext := advance_ne_inComment endian h hcomment hstate b
      simp only [List.cons_append, contentsFrom, ih hnext hquotes]

include h in
/-- Nor need one at the start. -/
theorem contents_lead {run : Bytes} (hterm : ∀ b ∈ run, config.isTerminator b = true)
    (text : Bytes) :
    contents endian config (run ++ text) = contents endian config text := by
  by_cases hrun : run = []
  · rw [hrun, List.nil_append]
  · exact contentsFrom_run endian h (by decide) rfl [] hrun hterm text

section Reading

variable {σ : Type} (acc : Accumulator σ)

include h in
theorem advance_inFlight {state : State} (hstate : state ≠ .inComment) {b : Byte}
    (hbreak : isBreak config state b = false) :
    (Dfa.new endian config).advance state b ≠ .recordStart := by
  intro hadvance
  rw [Dfa.advance, transition_eq h endian state hstate b] at hadvance
  have hstops := @symbolRow_stops config.quoteHandling config.doubledQuotes state (config.symbol b)
    hstate (by
      cases hnext : (symbolRow config.quoteHandling config.doubledQuotes state
          (config.symbol b)).next <;> rw [hnext] at hadvance <;>
        first | exact Or.inl rfl | exact Or.inr rfl | cases hadvance)
  rw [isBreak, ((symbol_tests h b).2.1).mp hstops.1, hstops.2] at hbreak
  cases hbreak

include h in
theorem step_blank (state : σ) {b : Byte} (hbreak : isBreak config .recordStart b = true) :
    (Reading.new state).step (reference endian config) acc b = .ok (.new state) := by
  rw [isBreak, Bool.and_eq_true] at hbreak
  have hcell : (reference endian config).dfa.transition .recordStart b =
      ⟨.recordStart, false, false⟩ := by
    calc (reference endian config).dfa.transition .recordStart b
        = symbolRow config.quoteHandling config.doubledQuotes .recordStart (config.symbol b) :=
          transition_eq h endian _ (by decide) b
      _ = ⟨.recordStart, false, false⟩ := by rw [((symbol_tests h b).2.1).mpr hbreak.1]; rfl
  rw [Reading.step]
  simp only [Reading.new, hcell, Reading.push, Bool.false_eq_true, if_false]

include h in
/-- A break closes the record in flight as the end of the input does. -/
theorem step_break {r : Reading σ} {b : Byte} (hlive : r.dfaState.isAction = false)
    (hstate : r.dfaState ≠ .inComment) (hstart : r.dfaState ≠ .recordStart)
    (hbreak : isBreak config r.dfaState b = true) :
    r.step (reference endian config) acc b =
      (r.finish (reference endian config) acc).map .new := by
  rw [isBreak, Bool.and_eq_true, Bool.not_eq_true'] at hbreak
  have hcell : (reference endian config).dfa.transition r.dfaState b =
      symbolRow config.quoteHandling config.doubledQuotes r.dfaState .terminator := by
    rw [← ((symbol_tests h b).2.1).mpr hbreak.1]
    exact transition_eq h endian _ hstate b
  have hquotes := hbreak.2
  rw [Reading.step, Reading.finish, hcell]
  cases hs : r.dfaState with
  | recordStart => exact absurd hs hstart
  | inComment => exact absurd hs hstate
  | inQuotedField | inEscapedQuote =>
      rw [hs] at hquotes
      cases hquotes
  | fieldEnd | recordEnd | error =>
      rw [hs] at hlive
      cases hlive
  | fieldStart | inField | afterClosingQuote => rfl

/-- What the contents come to, one parse after the other. -/
def runAll (config : StepperConfig) (acc : Accumulator σ) (pieces : List Bytes) (state : σ) :
    Except σ σ :=
  pieces.foldlM (fun state piece => (Reading.new state).run config acc piece) state

theorem runAll_flush_append (config : StepperConfig) (state : σ) {piece : Bytes}
    (hpiece : piece ≠ []) (pieces : List Bytes) :
    runAll config acc (flush piece ++ pieces) state =
      (Reading.new state).run config acc piece >>= runAll config acc pieces := by
  rw [flush, if_neg hpiece]
  rfl

include h hcomment in
/-- A reading in flight goes on with the first content, and then with the others. -/
theorem run_contentsFrom (bytes : Bytes) {state : σ} {piece : Bytes} {r : Reading σ}
    (hpiece : (Reading.new state).steps (reference endian config) acc piece = .ok r)
    (hidle : piece ≠ [] → r.dfaState ≠ .recordStart) :
    r.run (reference endian config) acc bytes =
      runAll (reference endian config) acc (contentsFrom endian config r.dfaState piece bytes)
        state := by
  have hshape := shape_reference h endian
  induction bytes generalizing state piece r with
  | nil =>
      rw [contentsFrom, Reading.run, Reading.steps]
      by_cases hnil : piece = []
      · subst hnil
        cases hpiece
        rfl
      · have hall := runAll_flush_append acc (reference endian config) state hnil []
        rw [List.append_nil] at hall
        rw [hall, Reading.run, hpiece]
        change r.finish (reference endian config) acc =
          r.finish (reference endian config) acc >>= pure
        rw [bind_pure]
  | cons b rest ih =>
      obtain ⟨hsettled, hafter⟩ :=
        Reading.steps_settled hshape (Reading.settled_new state) hpiece
      have hlive := hsettled.1
      have hstart : State.recordStart ≠ .inComment := by decide
      have hstate : r.dfaState ≠ .inComment := by
        rw [hafter]
        exact stateAfter_ne_inComment h endian hcomment config.quoteHandling hstart piece
      rw [contentsFrom]
      by_cases hbreak : isBreak config r.dfaState b = true
      · rw [if_pos hbreak, advance_break endian h hstate hbreak, hlive,
          if_neg Bool.false_ne_true]
        by_cases hnil : piece = []
        · subst hnil
          cases hpiece
          have hblank := step_blank endian h acc state hbreak
          rw [Reading.run, Reading.steps_cons hblank]
          exact ih rfl fun hne => absurd rfl hne
        · rw [runAll_flush_append acc _ state hnil, Reading.run, Reading.steps,
            step_break endian h acc hlive hstate (hidle hnil) hbreak, Reading.run, hpiece]
          change _ = r.finish (reference endian config) acc >>= _
          cases r.finish (reference endian config) acc with
          | error left => rfl
          | ok left => exact ih rfl fun hne => absurd rfl hne
      · rw [if_neg hbreak]
        have hmore := List.append_ne_nil_of_right_ne_nil piece (List.cons_ne_nil b [])
        cases hstep : r.step (reference endian config) acc b with
        | error left =>
            obtain ⟨more, others, heq⟩ := contentsFrom_piece endian
              ((Dfa.new endian config).advance r.dfaState b) hmore rest
            have hfails : (Reading.new state).run (reference endian config) acc
                (piece ++ [b] ++ more) = .error left := by
              rw [List.append_assoc, Reading.run_append_ok hpiece, List.singleton_append,
                Reading.run, Reading.steps, hstep]
              rfl
            rw [heq, Reading.run, Reading.steps, hstep, runAll, List.foldlM_cons, hfails]
            rfl
        | ok next =>
            obtain ⟨-, hnext⟩ := Reading.step_settled hshape hsettled hstep
            have hsteps : (Reading.new state).steps (reference endian config) acc (piece ++ [b]) =
                .ok next := by
              rw [Reading.steps_append_ok hpiece, Reading.steps_cons hstep]
              rfl
            rw [Reading.run, Reading.steps_cons hstep, ← Reading.run, ih hsteps fun _ => ?_, hnext]
            · rfl
            · rw [hnext]
              exact advance_inFlight endian h hstate (Bool.not_eq_true _ ▸ hbreak)

include h hcomment in
/-- A parse is one of the contents after the other. -/
theorem run_contents (text : Bytes) (state : σ) :
    (Reading.new state).run (reference endian config) acc text =
      runAll (reference endian config) acc (contents endian config text) state :=
  run_contentsFrom endian h hcomment acc text rfl fun hne => absurd rfl hne

end Reading

theorem isTerminator_ascii (hascii : config.validateAsciiControlBytes = .ok ()) {b : Byte}
    (hterm : config.isTerminator b = true) : b < 0x80 := by
  rw [Config.validateAsciiControlBytes] at hascii
  split at hascii
  · cases hascii
  · next hnone =>
      by_contra hlarge
      apply hnone
      rw [Config.isTerminator, Bool.or_eq_true, beq_iff_eq, beq_iff_eq] at hterm
      rw [UInt8.not_lt] at hlarge
      rw [List.any_eq_true]
      rcases hterm with hterm | hterm
      · refine ⟨(.terminator, some config.terminator.bytes.1), ?_, ?_⟩
        · exact List.mem_cons_of_mem _ List.mem_cons_self
        · simp only [Option.any_some, decide_eq_true_eq]
          rw [← hterm]
          exact hlarge
      · refine ⟨(.terminator, config.terminator.bytes.2), ?_, ?_⟩
        · exact List.mem_cons_of_mem _ (List.mem_cons_of_mem _ List.mem_cons_self)
        · rw [hterm]
          simp only [Option.any_some, decide_eq_true_eq]
          exact hlarge

/-- A text is valid if its contents are. -/
theorem valid_contentsFrom (hascii : config.validateAsciiControlBytes = .ok ()) (state : State)
    (piece bytes : Bytes) :
    Utf8.Valid (piece ++ bytes) ↔
      ∀ content ∈ contentsFrom endian config state piece bytes, Utf8.Valid content := by
  have hflush : ∀ piece : Bytes,
      Utf8.Valid piece ↔ ∀ content ∈ flush piece, Utf8.Valid content := by
    intro piece
    by_cases hnil : piece = []
    · rw [flush, if_pos hnil, hnil]
      exact ⟨fun _ content hmem => absurd hmem List.not_mem_nil, fun _ => .nil⟩
    · rw [flush, if_neg hnil]
      exact ⟨fun hvalid content hmem => by rwa [List.mem_singleton.mp hmem],
        fun hall => hall piece (List.mem_singleton.mpr rfl)⟩
  induction bytes generalizing state piece with
  | nil => rw [List.append_nil, contentsFrom, hflush]
  | cons b rest ih =>
      rw [contentsFrom]
      by_cases hbreak : isBreak config state b = true
      · rw [if_pos hbreak]
        rw [isBreak, Bool.and_eq_true] at hbreak
        have hrest := ih ((Dfa.new endian config).advance state b) []
        rw [List.nil_append] at hrest
        calc Utf8.Valid (piece ++ b :: rest)
            ↔ Utf8.Valid piece ∧ Utf8.Valid rest :=
              Utf8.valid_append_cons (isTerminator_ascii hascii hbreak.1)
          _ ↔ _ := and_congr (hflush piece) hrest
          _ ↔ _ := by simp only [List.mem_append, or_imp, forall_and]
      · rw [if_neg hbreak]
        have hrest := ih ((Dfa.new endian config).advance state b) (piece ++ [b])
        rwa [List.append_assoc, List.singleton_append] at hrest

section Parse

variable {σ : Type} (acc : Accumulator σ) {output : Output} {reader : ChunkReader}

theorem result_ofBody (start : ℕ) (outcome : BodyOutcome σ) :
    (PassResult.ofBody start outcome).result.toOption = outcome.digest.toOption := by
  obtain ⟨state, result⟩ := outcome
  cases result <;> rfl

theorem contents_drop_blankRun (h : config.Distinct) (text : Bytes) :
    contents endian config (text.drop (blankRun config text)) = contents endian config text := by
  have hblank : ∀ b ∈ text.take (blankRun config text), config.isTerminator b = true := by
    intro b hb
    rw [blankRun, ← List.prefix_iff_eq_take.mp (List.takeWhile_prefix _)] at hb
    exact List.mem_takeWhile_imp hb
  calc contents endian config (text.drop (blankRun config text))
      = contents endian config (text.take (blankRun config text) ++
          text.drop (blankRun config text)) := (contents_lead endian h hblank _).symm
    _ = contents endian config text := by rw [List.take_append_drop]

include h hcomment in
/-- What the parse of a source comes to, read off its contents. -/
theorem parse_contents (houtput : output = .bytes ∨
      output = .str ∧ config.validateAsciiControlBytes = .ok ())
    (hreliable : reader.schedule.Reliable)
    (hwhole : reader.pending.length ≤ reader.chunkRemaining) (state : σ)
    (assumption : Assumption) :
    let result := (((DfaChunkParser.new endian config).chunkParser output acc).parse reader state
      assumption .no).result
    let pieces := contents endian config reader.pending
    ((output = .str → ∀ content ∈ pieces, Utf8.Valid content) →
        result.toOption = (runAll (reference endian config) acc pieces state).toOption) ∧
      (¬(output = .str → ∀ content ∈ pieces, Utf8.Valid content) → result.toOption = none) := by
  have hsame := contents_drop_blankRun endian h reader.pending
  have hle := blankRun_le config reader.pending
  intro result pieces
  rcases parse_ends endian config acc output hwhole state assumption with
    ⟨failure, hfails, -⟩ | ⟨later, outcome, hlater, hends, hparse⟩
  · exact absurd hfails (hreliable.not_failsWith failure)
  have hresult : result.toOption = outcome.digest.toOption := by
    simp only [result, hparse]
    exact result_ofBody 0 outcome
  have hend : blankRun config reader.pending +
      (reader.pending.drop (blankRun config reader.pending)).length ≤
        blankRun config reader.pending + later.chunkRemaining := by
    rw [List.length_drop, hlater.chunkRemaining]
    omega
  have hvalid : output = .str → (Utf8.Valid (reader.pending.drop
      (blankRun config reader.pending)) ↔ ∀ content ∈ pieces, Utf8.Valid content) := by
    intro hstr
    have hascii : config.validateAsciiControlBytes = .ok () := by
      rcases houtput with hbytes | hascii
      · rw [hstr] at hbytes
        have hfalse := congrArg Output.requiresAsciiControlBytes hbytes
        cases hfalse
      · exact hascii.2
    have hall := valid_contentsFrom endian hascii .recordStart []
      (reader.pending.drop (blankRun config reader.pending))
    rw [List.nil_append, ← contents, hsame] at hall
    exact hall
  refine ⟨fun hpasses => ?_, fun hfails => ?_⟩
  · have heq := hends.eq_run (hlater.schedule.reliable hreliable) (houtput.imp_right And.left)
      fun hstr => (hvalid hstr).mpr (hpasses hstr)
    rw [hresult, heq, RefState.run_reading (shape_reference h endian) _ hend,
      RefState.reading_new, run_contents endian h hcomment, hsame]
  · rw [hresult]
    cases hok : outcome.2 with
    | error err => rw [BodyOutcome.digest, hok]; rfl
    | ok last =>
        obtain ⟨hreached, -⟩ := hends.finish_of_ok hend hok
        refine absurd (fun hstr => (hvalid hstr).mp ?_) hfails
        subst hstr
        have hall := hreached.valid.2
        rwa [List.take_length] at hall

end Parse

end

/-- How lines end does not matter.  Two sources with the same contents parse alike: both fail,
or both succeed and leave the accumulator the same; and the contents stay as they are when a
run of terminators outside of quotes is replaced by another one, or put at the start or the
end. -/
theorem lines_alike (endian : Endian) (config : ValidConfig)
    (hcomment : config.config.comment = none) :
    (∀ (σ : Type) (acc : Accumulator σ) (output : Output) (reader reader' : ChunkReader)
      (state : σ) (assumption assumption' : Assumption),
      output = .bytes ∨ output = .str ∧ config.config.validateAsciiControlBytes = .ok () →
      reader.schedule.Reliable → reader'.schedule.Reliable →
      reader.pending.length ≤ reader.chunkRemaining →
      reader'.pending.length ≤ reader'.chunkRemaining →
      contents endian config.config reader.pending =
        contents endian config.config reader'.pending →
      (((DfaChunkParser.new endian config.config).chunkParser output acc).parse reader state
          assumption .no).result.toOption =
        (((DfaChunkParser.new endian config.config).chunkParser output acc).parse reader' state
          assumption' .no).result.toOption) ∧
    (∀ left run run' right : Bytes,
      ((Dfa.new endian config.config).stateAfter .recordStart left).inQuotes = false →
      run ≠ [] → (∀ b ∈ run, config.config.isTerminator b = true) →
      run' ≠ [] → (∀ b ∈ run', config.config.isTerminator b = true) →
      contents endian config.config (left ++ (run ++ right)) =
        contents endian config.config (left ++ (run' ++ right))) ∧
    (∀ run text : Bytes, (∀ b ∈ run, config.config.isTerminator b = true) →
      contents endian config.config (run ++ text) = contents endian config.config text) ∧
    ∀ text run : Bytes,
      ((Dfa.new endian config.config).stateAfter .recordStart text).inQuotes = false →
      (∀ b ∈ run, config.config.isTerminator b = true) →
      contents endian config.config (text ++ run) = contents endian config.config text := by
  have h := config.distinct
  have hstart : State.recordStart ≠ .inComment := by decide
  refine ⟨?_, ?_, ?_, ?_⟩
  · intro σ acc output reader reader' state assumption assumption' houtput hreliable hreliable'
      hwhole hwhole' hsame
    obtain ⟨hpass, hfail⟩ := parse_contents endian h hcomment acc houtput hreliable hwhole state
      assumption
    obtain ⟨hpass', hfail'⟩ := parse_contents endian h hcomment acc houtput hreliable' hwhole'
      state assumption'
    rw [← hsame] at hpass' hfail'
    by_cases hpasses : output = .str → ∀ content ∈ contents endian config.config reader.pending,
        Utf8.Valid content
    · exact (hpass hpasses).trans (hpass' hpasses).symm
    · exact (hfail hpasses).trans (hfail' hpasses).symm
  · intro left run run' right hquotes hrun hterm hrun' hterm'
    exact contentsFrom_replace endian h hcomment left run run' right hstart hquotes hrun hterm
      hrun' hterm' []
  · intro run text hterm
    exact contents_lead endian h hterm text
  · intro text run hquotes hterm
    exact contentsFrom_trail endian h hcomment text run hstart hquotes hterm []

theorem lines_alike_mixed :
    (((DfaChunkParser.new .little Config.default).chunkParser .str
        RecordWise.acceptAll.accumulator).parse (.whole [97, 10, 10, 98]) [] .outOfQuotes
          .no).result.toOption =
      (((DfaChunkParser.new .little Config.default).chunkParser .str
        RecordWise.acceptAll.accumulator).parse (.whole [10, 97, 13, 10, 98, 10]) [] .outOfQuotes
          .no).result.toOption :=
  (lines_alike .little ⟨Config.default, by decide⟩ rfl).1 (List Record)
    RecordWise.acceptAll.accumulator .str (.whole [97, 10, 10, 98])
    (.whole [10, 97, 13, 10, 98, 10]) [] .outOfQuotes .outOfQuotes (Or.inr ⟨rfl, by decide⟩)
    Schedule.reliable_exact Schedule.reliable_exact (by decide) (by decide) (by decide)

end Csveee.Dfa
