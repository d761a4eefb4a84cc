import Csveee.Parser.Dfa.Comments

/-!
# Parsing inverts quoting

Records written the way CSV quotes them: fields in quotes with every quote and escape
byte escaped, or raw where nothing in them would be read as anything else.  The parser
gives back the records.
-/

namespace Csveee

/-- What escaping makes of one byte of a quoted field. -/
def escapeByte (q e : Byte) (b : Byte) : Bytes :=
  if e = q then (if b = q then [q, q] else [b])
  else if b = q ∨ b = e then [e, b] else [b]

/-- A field and how it is written. -/
structure WrittenField (config : Config) (q : Byte) where
  content : Bytes
  quoted : Bool
  /-- What is not quoted holds nothing that would end or open anything. -/
  plain : quoted = false → ∀ b ∈ content,
    b ≠ config.delimiter ∧ config.isTerminator b = false ∧ b ≠ q

/-- A record and how it is written. -/
structure WrittenRecord (config : Config) (q : Byte) where
  first : WrittenField config q
  rest : List (WrittenField config q)
  /-- The run of terminators after the record. -/
  ending : Bytes
  ending_blank : ∀ b ∈ ending, config.isTerminator b = true
  /-- A raw field does not open the record like a comment. -/
  opens : first.quoted = false → ∀ c, config.comment = some c → first.content.head? ≠ some c
  /-- A record that is one empty field is not a blank line. -/
  not_blank : first.quoted = false → rest = [] → first.content ≠ []

section

variable {config : Config} {q : Byte}

def WrittenField.text (e : Byte) (field : WrittenField config q) : Bytes :=
  if field.quoted then q :: (field.content.flatMap (escapeByte q e) ++ [q]) else field.content

namespace WrittenRecord

def values (record : WrittenRecord config q) : Record :=
  record.first.content :: record.rest.map (·.content)

/-- The fields, joined by the delimiter, and the run of terminators. -/
def text (e : Byte) (record : WrittenRecord config q) : Bytes :=
  record.first.text e ++ record.rest.flatMap (fun field => config.delimiter :: field.text e) ++
    record.ending

end WrittenRecord

end

namespace Dfa

namespace Reading

section

variable {σ : Type} (acc : Accumulator σ) {config : Config} (h : config.Distinct)
  (endian : Endian) {q e : Byte} (hquote : config.quote = some q)
  (hescape : config.escape = some e) (htrim : config.trim = false)

theorem step_inner {opening next : State} {fields : Record} {field : Bytes} {state : σ}
    {b : Byte} {out flag : Bool}
    (hrow : (reference endian config).dfa.transition opening b = ⟨next, out, flag⟩)
    (hlive : next.isAction = false) :
    (Reading.mk opening fields field state).step (reference endian config) acc b =
      .ok ⟨next, fields, if out then field ++ [b] else field, state⟩ := by
  simp only [step, hrow, push]
  cases next with
  | fieldEnd | recordEnd | error => cases hlive
  | _ => cases out <;> rfl

include h in
theorem transition_reference {state : State} (hstate : state ≠ .inComment) (b : Byte) :
    (reference endian config).dfa.transition state b =
      symbolRow config.quoteHandling config.doubledQuotes state (config.symbol b) :=
  transition_eq h endian state hstate b

include h hquote in
theorem symbol_quoteByte : config.symbol q = .quote := (symbol_tests h q).2.2.1.mpr hquote

include hquote hescape in
theorem doubledQuotes_eq : config.doubledQuotes = decide (e = q) := by
  rw [Config.doubledQuotes, hquote, hescape, Bool.eq_iff_iff, beq_iff_eq, decide_eq_true_eq]
  exact eq_comm

include h hquote hescape in
/-- A byte that needs no escaping is content in quotes. -/
theorem step_quotedContent (fields : Record) (field : Bytes) (state : σ) {b : Byte} (hq : b ≠ q)
    (he : b ≠ e) :
    (Reading.mk .inQuotedField fields field state).step (reference endian config) acc b =
      .ok ⟨.inQuotedField, fields, field ++ [b], state⟩ := by
  have hnotQuote : config.symbol b ≠ .quote := fun hsymbol => hq
    (Option.some.inj (((symbol_tests h b).2.2.1.mp hsymbol).symm.trans hquote))
  have hnotEscape : config.symbol b ≠ .escape := fun hsymbol => he
    (Option.some.inj (((symbol_tests h b).2.2.2.1.mp hsymbol).1.symm.trans hescape))
  have hrow : (reference endian config).dfa.transition .inQuotedField b =
      ⟨.inQuotedField, true, false⟩ := by
    rw [transition_reference h endian (by decide)]
    cases hsymbol : config.symbol b with
    | quote => exact absurd hsymbol hnotQuote
    | escape => exact absurd hsymbol hnotEscape
    | _ => rfl
  exact step_inner acc endian hrow rfl

include h hquote hescape in
/-- One byte of a quoted field, escaped, is read back. -/
theorem steps_escapeByte (fields : Record) (field : Bytes) (state : σ) (b : Byte) :
    (Reading.mk .inQuotedField fields field state).steps (reference endian config) acc
        (escapeByte q e b) =
      .ok ⟨.inQuotedField, fields, field ++ [b], state⟩ := by
  have hdoubled := doubledQuotes_eq hquote hescape
  have hquoteSymbol := symbol_quoteByte h hquote
  rw [escapeByte]
  by_cases hsame : e = q
  · rw [if_pos hsame]
    rw [decide_eq_true hsame] at hdoubled
    by_cases hb : b = q
    · rw [if_pos hb, hb]
      have hclosed : (reference endian config).dfa.transition .inQuotedField q =
          ⟨.afterClosingQuote, false, false⟩ := by
        rw [transition_reference h endian (by decide), hquoteSymbol]
        rfl
      have hreopened : (reference endian config).dfa.transition .afterClosingQuote q =
          ⟨.inQuotedField, true, false⟩ := by
        rw [transition_reference h endian (by decide), hquoteSymbol, hdoubled]
        rfl
      rw [steps_cons (step_inner acc endian hclosed rfl),
        steps_cons (step_inner acc endian hreopened rfl)]
      rfl
    · rw [if_neg hb,
        steps_cons (step_quotedContent acc h endian hquote hescape fields field state hb
          (hsame ▸ hb))]
      rfl
  · rw [if_neg hsame]
    rw [decide_eq_false hsame] at hdoubled
    by_cases hb : b = q ∨ b = e
    · rw [if_pos hb]
      have hescapeSymbol : config.symbol e = .escape :=
        (symbol_tests h e).2.2.2.1.mpr ⟨hescape, hdoubled⟩
      have hopened : (reference endian config).dfa.transition .inQuotedField e =
          ⟨.inEscapedQuote, false, false⟩ := by
        rw [transition_reference h endian (by decide), hescapeSymbol]
        rfl
      have hliteral : (reference endian config).dfa.transition .inEscapedQuote b =
          ⟨.inQuotedField, true, false⟩ := rfl
      rw [steps_cons (step_inner acc endian hopened rfl),
        steps_cons (step_inner acc endian hliteral rfl)]
      rfl
    · rw [if_neg hb, steps_cons (step_quotedContent acc h endian hquote hescape fields field state
        (fun heq => hb (Or.inl heq)) (fun heq => hb (Or.inr heq)))]
      rfl

include h hquote hescape in
theorem steps_escaped (fields : Record) (field : Bytes) (state : σ) (content : Bytes) :
    (Reading.mk .inQuotedField fields field state).steps (reference endian config) acc
        (content.flatMap (escapeByte q e)) =
      .ok ⟨.inQuotedField, fields, field ++ content, state⟩ := by
  induction content generalizing field with
  | nil =>
      rw [List.append_nil]
      rfl
  | cons b rest ih =>
      rw [List.flatMap_cons,
        steps_append_ok (steps_escapeByte acc h endian hquote hescape fields field state b),
        List.append_cons field b rest]
      exact ih (field ++ [b])

/-- The states a field starts in. -/
def FieldOpens (state : State) : Prop := state = .recordStart ∨ state = .fieldStart

/-- The states a field is over in, once a delimiter or a terminator follows. -/
def FieldOver (state : State) : Prop :=
  state = .fieldStart ∨ state = .inField ∨ state = .afterClosingQuote

include h hquote hescape in
theorem steps_quoted {opening : State} (hopens : FieldOpens opening) (fields : Record) (state : σ)
    (content : Bytes) :
    (Reading.mk opening fields [] state).steps (reference endian config) acc
        (q :: (content.flatMap (escapeByte q e) ++ [q])) =
      .ok ⟨.afterClosingQuote, fields, content, state⟩ := by
  have hquoteSymbol := symbol_quoteByte h hquote
  have hopened : (reference endian config).dfa.transition opening q =
      ⟨.inQuotedField, false, false⟩ := by
    rcases hopens with rfl | rfl <;>
      rw [transition_reference h endian (by decide), hquoteSymbol] <;> rfl
  have hclosed : (reference endian config).dfa.transition .inQuotedField q =
      ⟨.afterClosingQuote, false, false⟩ := by
    rw [transition_reference h endian (by decide), hquoteSymbol]
    rfl
  rw [steps_cons (step_inner acc endian hopened rfl), if_neg Bool.false_ne_true,
    steps_append_ok (steps_escaped acc h endian hquote hescape fields [] state content),
    steps_cons (step_inner acc endian hclosed rfl)]
  rfl

include h hquote in
theorem step_raw {opening : State} (hopens : FieldOpens opening ∨ opening = .inField)
    (fields : Record) (field : Bytes) (state : σ) {b : Byte}
    (hplain : b ≠ config.delimiter ∧ config.isTerminator b = false ∧ b ≠ q)
    (hcomment : opening = .recordStart → config.comment ≠ some b) :
    (Reading.mk opening fields field state).step (reference endian config) acc b =
      .ok ⟨.inField, fields, field ++ [b], state⟩ := by
  obtain ⟨hdelim, hterm, hq⟩ := hplain
  obtain ⟨hsd, hst, hsq, -, hsc⟩ := symbol_tests h b
  have hrow : (reference endian config).dfa.transition opening b = ⟨.inField, true, false⟩ := by
    have hlive : opening ≠ .inComment := by
      rcases hopens with (rfl | rfl) | rfl <;> decide
    rw [transition_reference h endian hlive]
    cases hsymbol : config.symbol b with
    | delimiter => exact absurd (hsd.mp hsymbol) hdelim
    | terminator => exact absurd (hst.mp hsymbol) (Bool.eq_false_iff.mp hterm)
    | quote => exact absurd (Option.some.inj ((hsq.mp hsymbol).symm.trans hquote)) hq
    | comment =>
        rcases hopens with (rfl | rfl) | rfl
        · exact absurd (hsc.mp hsymbol) (hcomment rfl)
        · rfl
        · rfl
    | escape | content => rcases hopens with (rfl | rfl) | rfl <;> rfl
  exact step_inner acc endian hrow rfl

include h hquote in
theorem steps_raw {opening : State} (hopens : FieldOpens opening ∨ opening = .inField)
    (fields : Record) (field : Bytes) (state : σ) {content : Bytes} (hne : content ≠ [])
    (hplain : ∀ b ∈ content, b ≠ config.delimiter ∧ config.isTerminator b = false ∧ b ≠ q)
    (hcomment : opening = .recordStart → ∀ c, config.comment = some c →
      content.head? ≠ some c) :
    (Reading.mk opening fields field state).steps (reference endian config) acc content =
      .ok ⟨.inField, fields, field ++ content, state⟩ := by
  induction content generalizing opening field with
  | nil => exact absurd rfl hne
  | cons b rest ih =>
      rw [List.forall_mem_cons] at hplain
      rw [steps_cons (step_raw acc h endian hquote hopens fields field state hplain.1
        fun hstart hb => hcomment hstart b hb rfl)]
      cases hrest : rest with
      | nil => rfl
      | cons b' rest' =>
          rw [← hrest, ih (Or.inr rfl) (field ++ [b]) (by rw [hrest]; simp) hplain.2
            (fun hfalse => by cases hfalse), List.append_cons field b rest]

include h hquote hescape in
/-- A field is read back, whichever way it is written. -/
theorem steps_field {opening : State} (hopens : FieldOpens opening) (fields : Record) (state : σ)
    (field : WrittenField config q)
    (hcomment : opening = .recordStart → field.quoted = false → ∀ c, config.comment = some c →
      field.content.head? ≠ some c) :
    ∃ ended, (Reading.mk opening fields [] state).steps (reference endian config) acc
        (field.text e) = .ok ⟨ended, fields, field.content, state⟩ ∧
      (FieldOver ended ∨ ended = .recordStart ∧ opening = .recordStart ∧ field.quoted = false ∧
        field.content = []) := by
  rw [WrittenField.text]
  cases hquoted : field.quoted with
  | true =>
      refine ⟨.afterClosingQuote, ?_, Or.inl (Or.inr (Or.inr rfl))⟩
      exact steps_quoted acc h endian hquote hescape hopens fields state field.content
  | false =>
      rw [if_neg Bool.false_ne_true]
      by_cases hempty : field.content = []
      · rw [hempty]
        refine ⟨opening, rfl, ?_⟩
        rcases hopens with rfl | rfl
        · exact Or.inr ⟨rfl, rfl, rfl, rfl⟩
        · exact Or.inl (Or.inl rfl)
      · refine ⟨.inField, ?_, Or.inl (Or.inr (Or.inl rfl))⟩
        exact steps_raw acc h endian hquote (Or.inl hopens) fields [] state hempty
          (field.plain hquoted) fun hstart => hcomment hstart hquoted

include h htrim in
theorem step_delimiter {ended : State} (hover : FieldOver ended ∨ ended = .recordStart)
    (fields : Record) (content : Bytes) (state : σ) :
    (Reading.mk ended fields content state).step (reference endian config) acc config.delimiter =
      .ok ⟨.fieldStart, fields ++ [content], [], state⟩ := by
  have hsymbol : config.symbol config.delimiter = .delimiter :=
    (symbol_tests h config.delimiter).1.mpr rfl
  have hrow : (reference endian config).dfa.transition ended config.delimiter =
      ⟨.fieldEnd, false, false⟩ := by
    rcases hover with (rfl | rfl | rfl) | rfl <;>
      rw [transition_reference h endian (by decide), hsymbol] <;> rfl
  have htrimFields : (reference endian config).trimFields = false := htrim
  simp only [step, hrow, push, closeField, htrimFields]
  rfl

include h hquote hescape htrim in
/-- The fields after the first, each behind a delimiter. -/
theorem steps_fields {ended : State} (hover : FieldOver ended ∨ ended = .recordStart)
    (fields : Record) (content : Bytes) (state : σ) {rest : List (WrittenField config q)}
    (hne : rest ≠ []) :
    ∃ ended' closed last, FieldOver ended' ∧
      (Reading.mk ended fields content state).steps (reference endian config) acc
        (rest.flatMap fun field => config.delimiter :: field.text e) =
          .ok ⟨ended', closed, last, state⟩ ∧
      closed ++ [last] = fields ++ [content] ++ rest.map (·.content) := by
  induction rest generalizing ended fields content with
  | nil => exact absurd rfl hne
  | cons field rest ih =>
      obtain ⟨ended', hfield, hopen⟩ := steps_field acc h endian hquote hescape
        (Or.inr rfl) (fields ++ [content]) state field (fun hfalse => by cases hfalse)
      have hover' : FieldOver ended' := by
        rcases hopen with hover' | ⟨-, hfalse, -⟩
        · exact hover'
        · cases hfalse
      rw [List.flatMap_cons, List.cons_append,
        steps_cons (step_delimiter acc h endian htrim hover fields content state),
        steps_append_ok hfield]
      by_cases hrest : rest = []
      · rw [hrest]
        exact ⟨ended', fields ++ [content], field.content, hover', rfl, rfl⟩
      · obtain ⟨ended'', closed, last, hover'', hsteps, hlast⟩ :=
          ih (Or.inl hover') (fields ++ [content]) field.content hrest
        refine ⟨ended'', closed, last, hover'', hsteps, ?_⟩
        rw [hlast, List.map_cons, ← List.append_cons]

include h hquote hescape htrim in
/-- A record is read back up to its terminators. -/
theorem steps_record (record : WrittenRecord config q) (state : σ) :
    ∃ ended closed last, FieldOver ended ∧
      (new state).steps (reference endian config) acc
        (record.first.text e ++
          record.rest.flatMap fun field => config.delimiter :: field.text e) =
          .ok ⟨ended, closed, last, state⟩ ∧
      closed ++ [last] = record.values := by
  obtain ⟨ended, hfirst, hopen⟩ := steps_field acc h endian hquote hescape
    (Or.inl rfl) [] state record.first (fun _ => record.opens)
  have hfirst' : (new state).steps (reference endian config) acc (record.first.text e) =
      .ok ⟨ended, [], record.first.content, state⟩ := hfirst
  rw [steps_append_ok hfirst']
  by_cases hrest : record.rest = []
  · refine ⟨ended, [], record.first.content, ?_, ?_, ?_⟩
    · rcases hopen with hover | ⟨-, -, hquoted, hempty⟩
      · exact hover
      · exact absurd hempty (record.not_blank hquoted hrest)
    · rw [hrest]
      rfl
    · rw [WrittenRecord.values, hrest]
      rfl
  · obtain ⟨ended', closed, last, hover, hsteps, hlast⟩ := steps_fields acc h endian
      hquote hescape htrim (hopen.imp_right fun hstart => hstart.1) [] record.first.content state
      hrest
    exact ⟨ended', closed, last, hover, hsteps, hlast⟩

end

section

variable {config : Config} (h : config.Distinct) (endian : Endian) {q e : Byte}
  (hquote : config.quote = some q) (hescape : config.escape = some e)
  (htrim : config.trim = false) {acc : RecordWise}
  (haccepts : ∀ record, acc.verdict record = .ok ())

include htrim haccepts in
theorem emit_closed (ended : State) (closed : Record) (last : Bytes) (records : List Record)
    (harity : ∀ n, config.fieldCount = some n → (closed ++ [last]).length = n) :
    ((Reading.mk ended closed last records).closeField (reference endian config)).emit
        (reference endian config) acc.accumulator =
      .ok (records ++ [closed ++ [last]]) := by
  have htrimFields : (reference endian config).trimFields = false := htrim
  have hexpected : (reference endian config).expectedFields.all
      ((closed ++ [last]).length == ·) = true := by
    change config.fieldCount.all _ = true
    cases hcount : config.fieldCount with
    | none => rfl
    | some n => exact beq_iff_eq.mpr (harity n hcount)
  simp only [closeField, emit, htrimFields, if_neg Bool.false_ne_true, if_pos hexpected,
    RecordWise.accumulator, haccepts]

include h htrim haccepts in
theorem step_terminator {ended : State} (hover : FieldOver ended) (closed : Record) (last : Bytes)
    (records : List Record)
    (harity : ∀ n, config.fieldCount = some n → (closed ++ [last]).length = n) {b : Byte}
    (hb : config.isTerminator b = true) :
    (Reading.mk ended closed last records).step (reference endian config) acc.accumulator b =
      .ok (new (records ++ [closed ++ [last]])) := by
  have hsymbol : config.symbol b = .terminator := (symbol_tests h b).2.1.mpr hb
  have hrow : (reference endian config).dfa.transition ended b = ⟨.recordEnd, false, false⟩ := by
    rcases hover with rfl | rfl | rfl <;>
      rw [transition_reference h endian (by decide), hsymbol] <;> rfl
  have hemit := emit_closed endian htrim haccepts ended closed last records harity
  simp only [step, hrow, push, if_neg Bool.false_ne_true, hemit]
  rfl

include htrim haccepts in
theorem finish_ended {ended : State} (hover : FieldOver ended) (closed : Record) (last : Bytes)
    (records : List Record)
    (harity : ∀ n, config.fieldCount = some n → (closed ++ [last]).length = n) :
    (Reading.mk ended closed last records).finish (reference endian config) acc.accumulator =
      .ok (records ++ [closed ++ [last]]) := by
  have hemit := emit_closed endian htrim haccepts ended closed last records harity
  rcases hover with rfl | rfl | rfl <;> exact hemit

include h hquote hescape htrim haccepts in
/-- Texts of records are read back as the records. -/
theorem run_written (records : List (WrittenRecord config q)) (before : List Record)
    (harity : ∀ record ∈ records, ∀ n, config.fieldCount = some n → record.values.length = n)
    (hends : ∀ record ∈ records.dropLast, record.ending ≠ []) :
    (new before).run (reference endian config) acc.accumulator (records.flatMap (·.text e)) =
      .ok (before ++ records.map (·.values)) := by
  induction records generalizing before with
  | nil =>
      rw [List.map_nil, List.append_nil]
      rfl
  | cons record rest ih =>
      rw [List.forall_mem_cons] at harity
      obtain ⟨ended, closed, last, hover, hsteps, hvalues⟩ :=
        steps_record acc.accumulator h endian hquote hescape htrim record before
      have hlength : ∀ n, config.fieldCount = some n → (closed ++ [last]).length = n :=
        hvalues ▸ harity.1
      rw [List.flatMap_cons, WrittenRecord.text, List.append_assoc, run_append_ok hsteps,
        List.map_cons, ← hvalues]
      cases hending : record.ending with
      | nil =>
          have hlast : rest = [] := by
            by_contra hmore
            rw [List.dropLast_cons_of_ne_nil hmore] at hends
            exact hends record List.mem_cons_self hending
          rw [hlast]
          exact finish_ended endian htrim haccepts hover closed last before hlength
      | cons b more =>
          have hblank := record.ending_blank
          rw [hending, List.forall_mem_cons] at hblank
          have hstep := step_terminator h endian htrim haccepts hover closed last before hlength
            hblank.1
          rw [List.cons_append, run, steps_cons hstep, ← run,
            run_append_ok (steps_blank _ h endian _ more hblank.2),
            ih _ harity.2 (fun record' hmem => hends record' ?_), List.append_assoc]
          · rfl
          · by_cases hmore : rest = []
            · rw [hmore] at hmem
              cases hmem
            · rw [List.dropLast_cons_of_ne_nil hmore]
              exact List.mem_cons_of_mem _ hmem

end

end Reading

/-- Records written as CSV come back from the parse. -/
theorem parse_written (endian : Endian) (config : ValidConfig) {q e : Byte}
    (hquote : config.config.quote = some q) (hescape : config.config.escape = some e)
    (htrim : config.config.trim = false) (records : List (WrittenRecord config.config q))
    (harity : ∀ record ∈ records, ∀ n, config.config.fieldCount = some n →
      record.values.length = n)
    (hends : ∀ record ∈ records.dropLast, record.ending ≠ [])
    {acc : RecordWise} (haccepts : ∀ record, acc.verdict record = .ok ())
    (assumption : Assumption) {reader : ChunkReader} (hreliable : reader.schedule.Reliable)
    (hwhole : reader.pending.length ≤ reader.chunkRemaining)
    (hpending : reader.pending = records.flatMap (·.text e)) :
    (((DfaChunkParser.new endian config.config).chunkParser .bytes acc.accumulator).parse reader []
        assumption .no).result = .ok (records.map (·.values)) := by
  have h := config.distinct
  have hreading := parse_reading endian h acc.accumulator hreliable hwhole [] assumption
  rw [hpending, Reading.run_written h endian hquote hescape htrim haccepts records [] harity hends,
    List.nil_append] at hreading
  cases hresult : (((DfaChunkParser.new endian config.config).chunkParser .bytes
      acc.accumulator).parse reader [] assumption .no).result with
  | error err =>
      rw [hresult] at hreading
      cases hreading
  | ok values =>
      rw [hresult] at hreading
      exact congrArg Except.ok (Option.some.inj hreading)

/-- A backslash for the escape byte, `#` for comments. -/
def escaping : ValidConfig where
  config := { Config.default with escape := some 92, comment := some 35 }
  valid := by decide

/-- The record of the fields `"#` and nothing, the first one quoted. -/
def quotedHash : WrittenRecord escaping.config 34 where
  first := ⟨[34, 35], true, by simp⟩
  rest := [⟨[], false, fun _ _ hmem => absurd hmem List.not_mem_nil⟩]
  ending := [13, 10]
  ending_blank := List.forall_mem_cons.mpr ⟨rfl, List.forall_mem_singleton.mpr rfl⟩
  opens := by decide
  not_blank := by decide

theorem parse_written_quotedHash :
    (((DfaChunkParser.new .little escaping.config).chunkParser .bytes
        RecordWise.acceptAll.accumulator).parse (.whole [34, 92, 34, 35, 34, 44, 13, 10]) []
        .outOfQuotes .no).result = .ok [[[34, 35], []]] :=
  parse_written .little escaping rfl rfl rfl [quotedHash] (by decide) (by decide)
    (fun _ => rfl) .outOfQuotes Schedule.reliable_exact le_rfl (by decide)

end Dfa

end Csveee
