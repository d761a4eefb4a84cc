import Csveee.Parser.Dfa.Reading

/-!
# Comment lines

The table ends a comment by a rule of its own, on a line feed, and not by the dialect's
terminators.  Lines of comments leave no trace exactly in the dialects where both are
the same, or where the line ends as a comment does.
-/

namespace Csveee

/-- Whether the byte ends a comment in the table. -/
def Config.endsComment (config : Config) (b : Byte) : Bool :=
  decide (b = lineFeed ∨ config.terminator = .crlf ∧ b = carriageReturn)

/-- Where a line feed is a terminator, comments end on the terminators. -/
theorem Config.endsComment_eq_isTerminator {config : Config}
    (hfeed : config.isTerminator lineFeed = true) (b : Byte) :
    config.endsComment b = config.isTerminator b := by
  rw [Bool.eq_iff_iff]
  cases hterm : config.terminator with
  | byte t =>
      simp only [isTerminator, hterm, RecordTerminator.bytes, Bool.or_eq_true, beq_iff_eq,
        reduceCtorEq, or_false] at hfeed
      subst hfeed
      simp only [isTerminator, endsComment, hterm, RecordTerminator.bytes, reduceCtorEq,
        false_and, or_false, decide_eq_true_eq, Bool.or_eq_true, beq_iff_eq]
  | crlf =>
      simp only [isTerminator, endsComment, hterm, RecordTerminator.bytes, true_and,
        decide_eq_true_eq, Bool.or_eq_true, beq_iff_eq, Option.some.injEq]
      exact or_congr_right eq_comm

/-- Elsewhere, they end on a line feed all the same. -/
theorem Config.endsComment_eq_lineFeed {config : Config}
    (hfeed : ¬ config.isTerminator lineFeed = true) (b : Byte) :
    config.endsComment b = (b == lineFeed) := by
  rw [Bool.eq_iff_iff]
  cases hterm : config.terminator with
  | byte t =>
      simp only [endsComment, hterm, reduceCtorEq, false_and, or_false, decide_eq_true_eq,
        beq_iff_eq]
  | crlf =>
      rw [isTerminator, hterm] at hfeed
      exact absurd rfl hfeed

/-- A comment line but for its first byte: what follows up to a terminator, and the run of
terminators that ends it. -/
structure CommentLine (config : Config) where
  body : Bytes
  ending : Bytes
  body_free : ∀ b ∈ body, config.isTerminator b = false
  ending_blank : ∀ b ∈ ending, config.isTerminator b = true
  ending_ne : ending ≠ []

namespace CommentLine

variable {config : Config}

def text (c : Byte) (line : CommentLine config) : Bytes := c :: line.body ++ line.ending

/-- Whether bytes from inside a comment, or from where a line starts, come to the end of a
comment with nothing but comments on the way. -/
def reclosed (c : Byte) : Bool → Bytes → Bool
  | inside, [] => !inside
  | true, b :: rest => reclosed c (b != lineFeed) rest
  | false, b :: rest => b == c && reclosed c true rest

/-- The line ends where the table ends its comment. -/
def Closes (c : Byte) (line : CommentLine config) : Prop :=
  config.isTerminator lineFeed = true ∨ reclosed c true line.body = true

end CommentLine

/-- A piece of a text, with lines of comments put before it. -/
structure CommentedPiece (config : Config) where
  comments : List (CommentLine config)
  text : Bytes

namespace CommentedPiece

variable {config : Config}

/-- The text without the lines put in. -/
def plain (pieces : List (CommentedPiece config)) : Bytes := pieces.flatMap text

/-- The text with the lines put in. -/
def commented (c : Byte) (pieces : List (CommentedPiece config)) : Bytes :=
  pieces.flatMap fun piece => piece.comments.flatMap (·.text c) ++ piece.text

/-- The piece is a sequence of complete records, or the parse fails in it. -/
def Complete (endian : Endian) (piece : CommentedPiece config) : Prop :=
  (Dfa.new endian config).stateAfter .recordStart piece.text = .recordStart ∨
    (Dfa.new endian config).stateAfter .recordStart piece.text = .error

end CommentedPiece

namespace Dfa

open CommentLine CommentedPiece

/-- Lines of comments of this kind change neither whether a text parses nor its records,
wherever they are put in. -/
def Transparent (endian : Endian) (config : Config) (c : Byte)
    (kind : CommentLine config → Prop) : Prop :=
  ∀ (σ : Type) (acc : Accumulator σ) (state : σ) (assumption : Assumption)
    (pieces : List (CommentedPiece config)),
    (∀ piece ∈ pieces, ∀ line ∈ piece.comments, kind line) →
    (∀ piece ∈ pieces.dropLast, piece.Complete endian) →
    ∀ reader reader' : ChunkReader,
      reader.schedule.Reliable → reader.pending.length ≤ reader.chunkRemaining →
      reader'.schedule.Reliable → reader'.pending.length ≤ reader'.chunkRemaining →
      reader.pending = plain pieces → reader'.pending = commented c pieces →
      (((DfaChunkParser.new endian config).chunkParser .bytes acc).parse reader' state assumption
          .no).result.toOption =
        (((DfaChunkParser.new endian config).chunkParser .bytes acc).parse reader state assumption
          .no).result.toOption

namespace Reading

section

variable {σ : Type} (acc : Accumulator σ) {config : Config} (h : config.Distinct)
  (endian : Endian) {c : Byte} (hc : config.comment = some c)

/-- Inside a comment, or where a line starts. -/
def atLine (inside : Bool) (state : σ) : Reading σ :=
  { new state with dfaState := if inside then .inComment else .recordStart }

include h in
/-- Blank lines leave no trace. -/
theorem steps_blank (state : σ) (bytes : Bytes)
    (hblank : ∀ b ∈ bytes, config.isTerminator b = true) :
    (new state).steps (reference endian config) acc bytes = .ok (new state) := by
  induction bytes with
  | nil => rfl
  | cons b rest ih =>
      rw [List.forall_mem_cons] at hblank
      have hstep : (new state).step (reference endian config) acc b = .ok (new state) :=
        step_between (shape_reference h endian) (settled_new state)
          ((blank_reference h endian b).mpr hblank.1)
      rw [steps_cons hstep]
      exact ih hblank.2

theorem atLine_false (state : σ) : atLine false state = new state := rfl

theorem step_inComment (state : σ) (b : Byte) :
    (atLine true state).step (reference endian config) acc b =
      .ok (atLine (!config.endsComment b) state) := by
  have hrow : (reference endian config).dfa.transition .inComment b = inCommentRow config b := rfl
  simp only [step, atLine, new, if_pos, hrow, inCommentRow, push, Config.endsComment]
  by_cases hends : b = lineFeed ∨ config.terminator = .crlf ∧ b = carriageReturn
  · simp only [if_pos hends, decide_eq_true hends]
    rfl
  · simp only [if_neg hends, decide_eq_false hends]
    rfl

include h hc in
/-- The comment byte opens a comment where a line starts. -/
theorem step_comment (state : σ) :
    (new state).step (reference endian config) acc c = .ok (atLine true state) := by
  have hsymbol : config.symbol c = .comment := (symbol_tests h c).2.2.2.2.mpr hc
  have hrow : (reference endian config).dfa.transition .recordStart c =
      ⟨.inComment, false, false⟩ := by
    have htransition := transition_eq h endian .recordStart (by decide) c
    rw [hsymbol] at htransition
    exact htransition
  simp only [step, new, hrow, push]
  rfl

/-- A comment goes on up to a byte that ends it. -/
theorem steps_inside (state : σ) (bytes : Bytes)
    (hinside : ∀ b ∈ bytes, config.endsComment b = false) :
    (atLine true state).steps (reference endian config) acc bytes = .ok (atLine true state) := by
  induction bytes with
  | nil => rfl
  | cons b rest ih =>
      rw [List.forall_mem_cons] at hinside
      have hstep := @step_inComment _ acc config endian state b
      rw [hinside.1] at hstep
      rw [steps_cons hstep]
      exact ih hinside.2

include h hc in
/-- Bytes in which comments follow upon comments, read to their end. -/
theorem steps_reclosed (hends : ∀ b, config.endsComment b = (b == lineFeed)) (state : σ)
    (inside : Bool) (bytes : Bytes) (hclosed : reclosed c inside bytes = true) :
    (atLine inside state).steps (reference endian config) acc bytes = .ok (new state) := by
  induction bytes generalizing inside with
  | nil =>
      rw [reclosed, Bool.not_eq_true'] at hclosed
      rw [hclosed]
      rfl
  | cons b rest ih =>
      cases inside with
      | true =>
          rw [reclosed] at hclosed
          rw [steps_cons (step_inComment acc endian state b), hends]
          exact ih _ hclosed
      | false =>
          rw [reclosed, Bool.and_eq_true, beq_iff_eq] at hclosed
          rw [hclosed.1, atLine_false, steps_cons (step_comment acc h endian hc state)]
          exact ih true hclosed.2

include h hc in
/-- Otherwise a comment is left open, or something else follows upon one. -/
theorem steps_not_reclosed (hends : ∀ b, config.endsComment b = (b == lineFeed)) (state : σ)
    (inside : Bool) (bytes : Bytes) (hclosed : reclosed c inside bytes = false) :
    (atLine inside state).steps (reference endian config) acc bytes = .ok (atLine true state) ∨
      ∃ left b rest, bytes = left ++ b :: rest ∧ b ≠ c ∧
        (atLine inside state).steps (reference endian config) acc left = .ok (new state) := by
  induction bytes generalizing inside with
  | nil =>
      rw [reclosed, Bool.not_eq_false'] at hclosed
      rw [hclosed]
      exact Or.inl rfl
  | cons b rest ih =>
      cases inside with
      | true =>
          rw [reclosed] at hclosed
          have hstep := @step_inComment _ acc config endian state b
          rw [hends] at hstep
          rcases ih _ hclosed with hopen | ⟨left, b', rest', rfl, hne, hleft⟩
          · refine Or.inl ?_
            rw [steps_cons hstep]
            exact hopen
          · refine Or.inr ⟨b :: left, b', rest', rfl, hne, ?_⟩
            rw [steps_cons hstep]
            exact hleft
      | false =>
          by_cases hb : b = c
          · rw [reclosed, hb, beq_self_eq_true, Bool.true_and] at hclosed
            have hstep := step_comment acc h endian hc state
            rcases ih true hclosed with hopen | ⟨left, b', rest', rfl, hne, hleft⟩
            · refine Or.inl ?_
              rw [hb, atLine_false, steps_cons hstep]
              exact hopen
            · refine Or.inr ⟨b :: left, b', rest', rfl, hne, ?_⟩
              rw [hb, atLine_false, steps_cons hstep]
              exact hleft
          · exact Or.inr ⟨[], b, rest, rfl, hb, rfl⟩

include h hc in
/-- A line that ends as its comment does leaves no trace. -/
theorem steps_line (state : σ) (line : CommentLine config) (hcloses : line.Closes c) :
    (new state).steps (reference endian config) acc (line.text c) = .ok (new state) := by
  rw [CommentLine.text, List.cons_append, steps_cons (step_comment acc h endian hc state)]
  have hending := steps_blank acc h endian state line.ending line.ending_blank
  by_cases hfeed : config.isTerminator lineFeed = true
  · have hends := Config.endsComment_eq_isTerminator hfeed
    rw [steps_append_ok (steps_inside acc endian state line.body fun b hb =>
      (hends b).trans (line.body_free b hb))]
    cases hbytes : line.ending with
    | nil => exact absurd hbytes line.ending_ne
    | cons b rest =>
        have hblank := line.ending_blank
        rw [hbytes, List.forall_mem_cons] at hblank
        rw [steps_cons (step_inComment acc endian state b), hends, hblank.1]
        exact steps_blank acc h endian state rest hblank.2
  · have hends := Config.endsComment_eq_lineFeed hfeed
    rw [steps_append_ok (steps_reclosed acc h endian hc hends state true line.body
      (hcloses.resolve_left hfeed))]
    exact hending

include h hc in
theorem steps_lines (state : σ) (lines : List (CommentLine config))
    (hcloses : ∀ line ∈ lines, line.Closes c) :
    (new state).steps (reference endian config) acc (lines.flatMap (·.text c)) =
      .ok (new state) := by
  induction lines with
  | nil => rfl
  | cons line rest ih =>
      rw [List.forall_mem_cons] at hcloses
      rw [List.flatMap_cons, steps_append_ok (steps_line acc h endian hc state line hcloses.1)]
      exact ih hcloses.2

include h in
/-- A complete piece leaves nothing in flight. -/
theorem steps_complete {state : σ} {piece : CommentedPiece config}
    (hcomplete : piece.Complete endian) {next : Reading σ}
    (hsteps : (new state).steps (reference endian config) acc piece.text = .ok next) :
    next = new next.state := by
  obtain ⟨hsettled, hstate⟩ := steps_settled (shape_reference h endian) (settled_new state) hsteps
  rcases hcomplete with hstart | herror
  · exact hsettled.eq_new (hstate.trans hstart)
  · have haction := hsettled.1
    rw [hstate.trans herror] at haction
    cases haction

include h hc in
/-- With its lines of comments, a text reads as it does without. -/
theorem run_commented (state : σ) (pieces : List (CommentedPiece config))
    (hcloses : ∀ piece ∈ pieces, ∀ line ∈ piece.comments, line.Closes c)
    (hcomplete : ∀ piece ∈ pieces.dropLast, piece.Complete endian) :
    (new state).run (reference endian config) acc (commented c pieces) =
      (new state).run (reference endian config) acc (plain pieces) := by
  induction pieces generalizing state with
  | nil => rfl
  | cons piece rest ih =>
      rw [List.forall_mem_cons] at hcloses
      have hlines := steps_lines acc h endian hc state piece.comments hcloses.1
      rw [commented, plain, List.flatMap_cons, List.flatMap_cons, List.append_assoc,
        run_append_ok hlines]
      change (new state).run _ acc (piece.text ++ commented c rest) =
        (new state).run _ acc (piece.text ++ plain rest)
      by_cases hlast : rest = []
      · rw [hlast]
        rfl
      · rw [List.dropLast_cons_of_ne_nil hlast, List.forall_mem_cons] at hcomplete
        rw [run_append, run_append]
        cases hsteps : (new state).steps (reference endian config) acc piece.text with
        | error left => rfl
        | ok next =>
            rw [steps_complete acc h endian hcomplete.1 hsteps]
            exact ih next.state hcloses.2 hcomplete.2

end

section

variable {config : StepperConfig} {acc : RecordWise}

theorem emit_length {r : Reading (List Record)} {records : List Record}
    (h : r.emit config acc.accumulator = .ok records) :
    r.state.length < records.length := by
  simp only [emit] at h
  split at h
  · split at h
    · cases h
      simp only [RecordWise.accumulator, List.length_append, List.length_singleton]
      exact Nat.lt_succ_self _
    · cases h
  · cases h

theorem state_push (trans : Transition) (b : Byte) (r : Reading (List Record)) :
    (r.push trans b).state = r.state := by
  rw [push]
  split_ifs <;> rfl

/-- A record in flight stays so, or comes out. -/
theorem step_length (hshape : Shape config.dfa) {r next : Reading (List Record)} {b : Byte}
    (h : r.step config acc.accumulator b = .ok next) :
    r.state.length ≤ next.state.length ∧
      (r.dfaState ≠ .recordStart → r.dfaState ≠ .inComment →
        r.state.length < next.state.length ∨
          next.dfaState ≠ .recordStart ∧ next.dfaState ≠ .inComment) := by
  have hpush := state_push (config.dfa.transition r.dfaState b) b r
  simp only [step] at h
  split at h
  · cases h
  · cases h
    exact ⟨(congrArg List.length hpush).ge, fun _ _ => Or.inr ⟨by simp, by simp⟩⟩
  · cases hemit : ((r.push (config.dfa.transition r.dfaState b) b).closeField config).emit
        config acc.accumulator with
    | error state =>
        rw [hemit] at h
        cases h
    | ok state =>
        rw [hemit] at h
        cases h
        have hlt := emit_length hemit
        rw [closeField, hpush] at hlt
        exact ⟨hlt.le, fun _ _ => Or.inl hlt⟩
  · cases h
    refine ⟨(congrArg List.length hpush).ge, fun hstart hcomment => Or.inr ?_⟩
    constructor
    · intro hnext
      rcases (hshape.idle r.dfaState b (Or.inl hnext)).1 with hs | hs
      · exact hstart hs
      · exact hcomment hs
    · intro hnext
      rcases (hshape.idle r.dfaState b (Or.inr hnext)).1 with hs | hs
      · exact hstart hs
      · exact hcomment hs

/-- Once a record is begun, a text that parses yields it. -/
theorem run_length (hshape : Shape config.dfa) {r : Reading (List Record)} {bytes : Bytes}
    {records : List Record} (hr : r.Settled)
    (h : r.run config acc.accumulator bytes = .ok records) :
    r.state.length ≤ records.length ∧
      (r.dfaState ≠ .recordStart → r.dfaState ≠ .inComment →
        r.state.length < records.length) := by
  induction bytes generalizing r with
  | nil =>
      change r.finish config acc.accumulator = .ok records at h
      rw [finish] at h
      split at h
      · cases h
      · cases h
      · have hlt := emit_length h
        exact ⟨hlt.le, fun _ _ => hlt⟩
      · have hlt := emit_length h
        exact ⟨hlt.le, fun _ _ => hlt⟩
      · have hlt := emit_length h
        exact ⟨hlt.le, fun _ _ => hlt⟩
      · rename_i hquoted hescaped hfield hunquoted hclosed
        cases h
        refine ⟨le_rfl, fun hstart hcomment => ?_⟩
        have haction := hr.1
        cases hs : r.dfaState <;> simp_all [State.isAction]
  | cons b rest ih =>
      rw [run, steps] at h
      cases hstep : r.step config acc.accumulator b with
      | error state =>
          rw [hstep] at h
          cases h
      | ok next =>
          rw [hstep] at h
          obtain ⟨hle, hbegun⟩ := step_length hshape hstep
          obtain ⟨hnext, -⟩ := step_settled hshape hr hstep
          obtain ⟨hrest, hrestBegun⟩ := ih hnext h
          refine ⟨hle.trans hrest, fun hstart hcomment => ?_⟩
          rcases hbegun hstart hcomment with hlt | ⟨hstart', hcomment'⟩
          · exact hlt.trans_le hrest
          · exact hle.trans_lt (hrestBegun hstart' hcomment')

end

/-- A text that starts with neither a blank nor a comment never parses to nothing. -/
theorem run_ne_nil {config : Config} (h : config.Distinct) (endian : Endian) {c b : Byte}
    (hc : config.comment = some c) (hb : config.isTerminator b = false) (hne : b ≠ c)
    (acc : RecordWise) (rest : Bytes) :
    (new []).run (reference endian config) acc.accumulator (b :: rest) ≠ .ok [] := by
  intro hrun
  have hshape := shape_reference h endian
  rw [run, steps] at hrun
  cases hstep : (new []).step (reference endian config) acc.accumulator b with
  | error state =>
      rw [hstep] at hrun
      cases hrun
  | ok next =>
      rw [hstep] at hrun
      obtain ⟨hnext, hstate⟩ := step_settled hshape (settled_new []) hstep
      have hrow : (reference endian config).dfa.transition .recordStart b =
          symbolRow config.quoteHandling config.doubledQuotes .recordStart (config.symbol b) :=
        transition_eq h endian .recordStart (by decide) b
      have hblank : config.symbol b ≠ .terminator := fun hsymbol =>
        Bool.false_ne_true (hb.symm.trans ((symbol_tests h b).2.1.mp hsymbol))
      have hcomment : config.symbol b ≠ .comment := fun hsymbol =>
        hne (Option.some.inj (((symbol_tests h b).2.2.2.2.mp hsymbol).symm.trans hc))
      have hbegun : next.dfaState ≠ .recordStart ∧ next.dfaState ≠ .inComment := by
        rw [hstate, advance]
        change ((reference endian config).dfa.transition .recordStart b).next.settle ≠ _ ∧
          ((reference endian config).dfa.transition .recordStart b).next.settle ≠ _
        rw [hrow]
        cases hsymbol : config.symbol b with
        | terminator => exact absurd hsymbol hblank
        | comment => exact absurd hsymbol hcomment
        | _ => simp [symbolRow, State.settle]
      exact Nat.not_lt_zero _ ((run_length hshape hnext hrun).2 hbegun.1 hbegun.2)

end Reading

open Reading

/-- A byte that is neither blank nor a comment nor a line feed. -/
theorem exists_plain_byte {config : Config} (hfeed : ¬ config.isTerminator lineFeed = true)
    (c : Byte) : ∃ b, config.isTerminator b = false ∧ b ≠ c ∧ b ≠ lineFeed := by
  cases hterm : config.terminator with
  | crlf =>
      rw [Config.isTerminator, hterm] at hfeed
      exact absurd rfl hfeed
  | byte t =>
      have hblank : ∀ b, config.isTerminator b = (b == t) := by
        intro b
        simp [Config.isTerminator, hterm, RecordTerminator.bytes]
      obtain ⟨b, hb, hne⟩ : ∃ b ∈ [(0 : Byte), 1, 2], b ≠ t ∧ b ≠ c := by
        by_contra hnone
        push Not at hnone
        have h0 := hnone 0 (by simp)
        have h1 := hnone 1 (by simp)
        have h2 := hnone 2 (by simp)
        grind
      refine ⟨b, (hblank b).trans (beq_false_of_ne hne.1), hne.2, ?_⟩
      rintro rfl
      exact absurd hb (by decide)

/-- Comment lines of a kind leave no trace in any text exactly if they all end where the
table ends their comments. -/
theorem parse_commented_iff (endian : Endian) (config : ValidConfig) {c : Byte}
    (hc : config.config.comment = some c) (kind : CommentLine config.config → Prop) :
    Transparent endian config.config c kind ↔ ∀ line, kind line → line.Closes c := by
  have h := config.distinct
  constructor
  · intro htransparent line hkind
    by_contra hcloses
    rw [Closes, not_or] at hcloses
    obtain ⟨hfeed, hopen⟩ := hcloses
    have hends := Config.endsComment_eq_lineFeed hfeed
    have hreads : ∀ text : Bytes,
        ((Reading.new []).run (reference endian config.config) RecordWise.acceptAll.accumulator
          (line.text c ++ text)).toOption =
        ((Reading.new []).run (reference endian config.config) RecordWise.acceptAll.accumulator
          text).toOption := by
      intro text
      have hparse := htransparent (List Record) RecordWise.acceptAll.accumulator [] .outOfQuotes
        [⟨[line], text⟩] (by simpa using hkind) (by simp) (.whole text)
        (.whole (line.text c ++ text)) Schedule.reliable_exact le_rfl Schedule.reliable_exact le_rfl
        (by simp [plain, ChunkReader.whole]) (by simp [commented, ChunkReader.whole])
      rw [parse_reading endian h _ Schedule.reliable_exact le_rfl,
        parse_reading endian h _ Schedule.reliable_exact le_rfl] at hparse
      exact hparse
    have hcomment := step_comment RecordWise.acceptAll.accumulator h endian hc []
    rcases steps_not_reclosed RecordWise.acceptAll.accumulator h endian hc hends []
      true line.body (Bool.eq_false_of_not_eq_true hopen) with hinside | hbegun
    · -- the comment swallows the line after it
      obtain ⟨b, hb, hne, hnotFeed⟩ := exists_plain_byte hfeed c
      have htail : ∀ b' ∈ line.ending ++ [b], config.config.endsComment b' = false := by
        intro b' hb'
        rw [hends, beq_eq_false_iff_ne]
        rcases List.mem_append.mp hb' with hmem | hmem
        · rintro rfl
          exact hfeed (line.ending_blank _ hmem)
        · rwa [List.mem_singleton.mp hmem]
      have hswallowed : (Reading.new []).run (reference endian config.config)
          RecordWise.acceptAll.accumulator (line.text c ++ [b]) = .ok [] := by
        rw [CommentLine.text, List.cons_append, List.cons_append, List.append_assoc, run,
          steps_cons hcomment, steps_append_ok hinside, steps_inside _ endian [] _ htail]
        rfl
      have hplain := hreads [b]
      rw [hswallowed] at hplain
      refine run_ne_nil h endian hc hb hne RecordWise.acceptAll [] ?_
      cases hrun : (Reading.new []).run (reference endian config.config)
          RecordWise.acceptAll.accumulator [b] with
      | error state =>
          rw [hrun] at hplain
          cases hplain
      | ok records =>
          rw [hrun] at hplain
          cases hplain
          rfl
    · -- what follows upon the comment is read as a record
      obtain ⟨left, b, rest, hbody, hne, hleft⟩ := hbegun
      have hb := line.body_free b (by rw [hbody]; simp)
      have hplain := hreads []
      have hread : (Reading.new []).run (reference endian config.config)
          RecordWise.acceptAll.accumulator (line.text c ++ []) =
            (Reading.new []).run (reference endian config.config)
              RecordWise.acceptAll.accumulator (b :: (rest ++ line.ending)) := by
        rw [List.append_nil, CommentLine.text, hbody, List.cons_append, List.append_assoc,
          List.cons_append, run, steps_cons hcomment, steps_append_ok hleft]
        rfl
      rw [hread] at hplain
      refine run_ne_nil h endian hc hb hne RecordWise.acceptAll (rest ++ line.ending) ?_
      cases hrun : (Reading.new []).run (reference endian config.config)
          RecordWise.acceptAll.accumulator (b :: (rest ++ line.ending)) with
      | error state =>
          rw [hrun] at hplain
          cases hplain
      | ok records =>
          rw [hrun] at hplain
          cases hplain
          rfl
  · intro hcloses σ acc state assumption pieces hkind hcomplete reader reader' hreliable hwhole
      hreliable' hwhole' hplain hcommented
    rw [parse_reading endian h acc hreliable hwhole, parse_reading endian h acc hreliable' hwhole',
      hplain, hcommented, run_commented _ h endian hc state pieces
        (fun piece hpiece line hline => hcloses line (hkind piece hpiece line hline)) hcomplete]

/-- Records end on a carriage return, lines of comments start with `#`. -/
def carriageReturns : ValidConfig where
  config := { Config.default with terminator := .byte carriageReturn, comment := some 35 }
  valid := by decide

def hashLine : CommentLine carriageReturns.config where
  body := [120]
  ending := [13]
  body_free := List.forall_mem_singleton.mpr rfl
  ending_blank := List.forall_mem_singleton.mpr rfl
  ending_ne := by decide

/-- A line feed right before the carriage return ends the comment in time. -/
theorem parse_commented_carriageReturns :
    Transparent .little carriageReturns.config 35 fun line => line.body = [120, 10] :=
  (parse_commented_iff .little carriageReturns rfl _).mpr fun line hline =>
    Or.inr (by rw [hline]; decide)

/-- The record `a` is lost behind the line `#x`. -/
theorem parse_commented_swallows :
    (((DfaChunkParser.new .little carriageReturns.config).chunkParser .bytes
        RecordWise.acceptAll.accumulator).parse (.whole [97, 13]) [] .outOfQuotes
        .no).result.toOption = some [[[97]]] ∧
      (((DfaChunkParser.new .little carriageReturns.config).chunkParser .bytes
        RecordWise.acceptAll.accumulator).parse (.whole (hashLine.text 35 ++ [97, 13])) []
        .outOfQuotes .no).result.toOption = some [] := by
  decide +kernel

end Dfa

end Csveee
