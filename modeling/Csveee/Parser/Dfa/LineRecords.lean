import Csveee.Parser.Dfa.Resume
import Csveee.Parser.Dfa.Unquoted

/-!
# Records as lines

Without quotes, a text whose comments end on its terminators is its lines: every one that is
neither blank nor a comment is a record, cut at its delimiters.
-/

namespace Csveee

/-- A line that is a record: neither blank nor a comment. -/
def Config.isRecordLine (config : Config) (line : Bytes) : Bool :=
  line.head?.any fun b => config.comment != some b

/-- The fields of a line. -/
def Config.lineFields (config : Config) (line : Bytes) : Record :=
  (line.splitOnP (· == config.delimiter)).map fun field =>
    if config.trim then Dfa.trimAscii field else field

/-- The records of a text without quotes. -/
def Config.lineRecords (config : Config) (bytes : Bytes) : List Record :=
  ((bytes.splitOnP config.isTerminator).filter config.isRecordLine).map config.lineFields

namespace Dfa.Reading

variable {config : Config}

/-- The fields of a line whose first field is begun. -/
def openFields (config : Config) (field line : Bytes) : Record :=
  ((line.splitOnP (· == config.delimiter)).modifyHead (field ++ ·)).map fun field =>
    if config.trim then trimAscii field else field

theorem openFields_nil (line : Bytes) : openFields config [] line = config.lineFields line := by
  rw [openFields, Config.lineFields]
  congr 1
  cases line.splitOnP (· == config.delimiter) <;> rfl

theorem openFields_end (field : Bytes) :
    openFields config field [] = [if config.trim then trimAscii field else field] := by
  simp [openFields]

theorem openFields_delimiter (field rest : Bytes) :
    openFields config field (config.delimiter :: rest) =
      (if config.trim then trimAscii field else field) :: config.lineFields rest := by
  simp [openFields, Config.lineFields, List.splitOnP_cons_eq_if_modifyHead]

theorem openFields_content (field rest : Bytes) {b : Byte} (hb : b ≠ config.delimiter) :
    openFields config field (b :: rest) = openFields config (field ++ [b]) rest := by
  rw [openFields, List.splitOnP_cons_eq_if_modifyHead, if_neg (by simpa using hb), openFields]
  congr 1
  cases rest.splitOnP (· == config.delimiter) <;> simp

/-- What a parse in flight makes of the lines that follow, the first one from its middle. -/
def linesOf (config : Config) (r : Reading (List Record)) : List Bytes → List Record
  | [] => []
  | line :: lines =>
      let rest := (lines.filter config.isRecordLine).map config.lineFields
      match r.dfaState with
      | .recordStart => ((line :: lines).filter config.isRecordLine).map config.lineFields
      | .inComment => rest
      | _ => (r.fields ++ openFields config r.field line) :: rest

theorem emit_eq {ref : StepperConfig} {acc : RecordWise} {r : Reading (List Record)}
    {records : List Record} (h : r.emit ref acc.accumulator = .ok records) :
    records = r.state ++ [r.fields] := by
  simp only [emit] at h
  split at h
  · split at h
    · cases h
      rfl
    · cases h
  · cases h

section

variable (h : config.Distinct) (hquote : config.quote = none) (endian : Endian)
  (hends : ∀ b, config.endsComment b = config.isTerminator b) (acc : RecordWise)

/-- The states a parse without quotes can be in. -/
def Unquoted (r : Reading (List Record)) : Prop :=
  r.dfaState = .recordStart ∨ r.dfaState = .inComment ∨
    r.dfaState = .fieldStart ∨ r.dfaState = .inField

/-- A line that begins with a byte of a record is one. -/
theorem linesOf_record {r : Reading (List Record)} (hr : r.Settled)
    (hcomment : r.dfaState ≠ .inComment) {b : Byte}
    (hb : r.dfaState = .recordStart → config.comment ≠ some b) (line : Bytes)
    (lines : List Bytes) :
    r.linesOf config ((b :: line) :: lines) =
      (r.fields ++ openFields config r.field (b :: line)) ::
        (lines.filter config.isRecordLine).map config.lineFields := by
  rw [linesOf]
  cases hs : r.dfaState with
  | inComment => exact absurd hs hcomment
  | recordStart =>
      obtain ⟨hfields, hfield⟩ := hr.2 (Or.inl hs)
      have hrecord : config.isRecordLine (b :: line) = true := by
        simpa [Config.isRecordLine] using hb hs
      simp only [List.filter_cons_of_pos hrecord, List.map_cons, hfields, hfield, openFields_nil,
        List.nil_append]
  | _ => rfl

variable {r next : Reading (List Record)} {b : Byte} {line : Bytes} {lines : List Bytes}

theorem lines_delimiter (hr : r.Settled) (hcomment : r.dfaState ≠ .inComment)
    (hb : r.dfaState = .recordStart → config.comment ≠ some b) (hdelim : b = config.delimiter)
    (hrow : (reference endian config).dfa.transition r.dfaState b = ⟨.fieldEnd, false, false⟩)
    (hstep : r.step (reference endian config) acc.accumulator b = .ok next) :
    next.Unquoted ∧ r.state ++ r.linesOf config ((b :: line) :: lines) =
      next.state ++ next.linesOf config (line :: lines) := by
  simp only [step, hrow, push, Bool.false_eq_true, if_false, Except.ok.injEq] at hstep
  subst hstep
  refine ⟨Or.inr (Or.inr (Or.inl rfl)), ?_⟩
  rw [linesOf_record hr hcomment hb, hdelim, openFields_delimiter, ← openFields_nil]
  simp only [linesOf, closeField, List.append_assoc, List.singleton_append]
  rfl

theorem lines_content (hr : r.Settled) (hcomment : r.dfaState ≠ .inComment)
    (hb : r.dfaState = .recordStart → config.comment ≠ some b) (hdelim : b ≠ config.delimiter)
    (hrow : (reference endian config).dfa.transition r.dfaState b = ⟨.inField, true, false⟩)
    (hstep : r.step (reference endian config) acc.accumulator b = .ok next) :
    next.Unquoted ∧ r.state ++ r.linesOf config ((b :: line) :: lines) =
      next.state ++ next.linesOf config (line :: lines) := by
  simp only [step, hrow, push, if_true, Except.ok.injEq] at hstep
  subst hstep
  refine ⟨Or.inr (Or.inr (Or.inr rfl)), ?_⟩
  rw [linesOf_record hr hcomment hb, openFields_content _ _ hdelim]
  rfl

theorem lines_recordEnd (hstate : r.dfaState = .fieldStart ∨ r.dfaState = .inField)
    (hrow : (reference endian config).dfa.transition r.dfaState b = ⟨.recordEnd, false, false⟩)
    (hstep : r.step (reference endian config) acc.accumulator b = .ok next) :
    next.Unquoted ∧ r.state ++ r.linesOf config ([] :: line :: lines) =
      next.state ++ next.linesOf config (line :: lines) := by
  simp only [step, hrow, push, Bool.false_eq_true, if_false] at hstep
  cases hemit : (r.closeField (reference endian config)).emit (reference endian config)
      acc.accumulator with
  | error left =>
      rw [hemit] at hstep
      cases hstep
  | ok records =>
      rw [hemit] at hstep
      cases hstep
      refine ⟨Or.inl rfl, ?_⟩
      have hrecords := emit_eq hemit
      rcases hstate with hs | hs
      · simp only [linesOf, hs, openFields_end, new, hrecords, List.append_assoc]
        rfl
      · simp only [linesOf, hs, openFields_end, new, hrecords, List.append_assoc]
        rfl

include h hquote hends in
/-- A byte moves from the lines as a parse sees them before it to those after it. -/
theorem step_lines (hr : r.Settled) (hstate : r.Unquoted) (rest : Bytes)
    (hstep : r.step (reference endian config) acc.accumulator b = .ok next) :
    next.Unquoted ∧
      r.state ++ r.linesOf config ((b :: rest).splitOnP config.isTerminator) =
        next.state ++ next.linesOf config (rest.splitOnP config.isTerminator) := by
  obtain ⟨line, lines, hlines⟩ := List.exists_cons_of_ne_nil
    (List.splitOnP_ne_nil config.isTerminator rest)
  rw [List.splitOnP_cons_eq_if_modifyHead, hlines, List.modifyHead_cons]
  by_cases hcomment : r.dfaState = .inComment
  · have hnew : r = atLine true r.state := by
      obtain ⟨hfields, hfield⟩ := hr.2 (Or.inr hcomment)
      cases r
      cases hcomment
      cases hfields
      cases hfield
      rfl
    rw [hnew, step_inComment, hends] at hstep
    cases hstep
    by_cases hb : config.isTerminator b = true
    · rw [if_pos hb, hb]
      refine ⟨Or.inl rfl, ?_⟩
      simp only [linesOf, hcomment, atLine, new, Bool.not_true, Bool.false_eq_true, if_false]
    · rw [if_neg hb, Bool.eq_false_of_not_eq_true hb]
      refine ⟨Or.inr (Or.inl rfl), ?_⟩
      simp only [linesOf, hcomment, atLine, new, Bool.not_false, if_true]
  · have hrow : (reference endian config).dfa.transition r.dfaState b =
        symbolRow config.quoteHandling config.doubledQuotes r.dfaState (config.symbol b) :=
      transition_eq h endian r.dfaState hcomment b
    obtain ⟨hdelim, hterm, -, -, hcommentByte⟩ := symbol_tests h b
    have hopen : r.dfaState = .recordStart ∨ r.dfaState = .fieldStart ∨ r.dfaState = .inField := by
      rcases hstate with hs | hs | hs
      · exact Or.inl hs
      · exact absurd hs hcomment
      · exact Or.inr hs
    have hplain : config.symbol b ≠ .terminator → ¬ config.isTerminator b = true :=
      fun hsymbol hb => hsymbol (hterm.mpr hb)
    rcases symbol_unquoted h hquote b with hs | hs | hs | hs
    · rw [hs] at hrow
      rw [if_neg (hplain (by rw [hs]; simp))]
      refine lines_delimiter endian acc hr hcomment (fun _ hc => ?_) (hdelim.mp hs) ?_ hstep
      · rw [hcommentByte.mpr hc] at hs
        cases hs
      · rcases hopen with hr | hr | hr <;> rw [hr] at hrow ⊢ <;> exact hrow
    · have hb := hterm.mp hs
      rw [hs] at hrow
      rw [if_pos hb]
      rcases hopen with hr' | hr'
      · have hblank := @step_blank _ (reference endian config) acc.accumulator
          (shape_reference h endian) b ((blank_reference h endian b).mpr hb) r.state
        rw [hr.eq_new hr', hblank] at hstep
        cases hstep
        refine ⟨Or.inl rfl, ?_⟩
        simp only [linesOf, hr', new]
        rfl
      · refine lines_recordEnd endian acc hr' ?_ hstep
        rcases hr' with hr' | hr' <;> rw [hr'] at hrow ⊢ <;> exact hrow
    · rw [hs] at hrow
      rw [if_neg (hplain (by rw [hs]; simp))]
      refine lines_content endian acc hr hcomment (fun _ hc => ?_) (fun hd => ?_) ?_ hstep
      · rw [hcommentByte.mpr hc] at hs
        cases hs
      · rw [hdelim.mpr hd] at hs
        cases hs
      · rcases hopen with hr | hr | hr <;> rw [hr] at hrow ⊢ <;> exact hrow
    · rw [hs] at hrow
      rw [if_neg (hplain (by rw [hs]; simp))]
      rcases hopen with hr' | hr'
      · have hc := hcommentByte.mp hs
        have hopens := step_comment acc.accumulator h endian hc r.state
        rw [hr.eq_new hr', hopens] at hstep
        cases hstep
        refine ⟨Or.inr (Or.inl rfl), ?_⟩
        have hnone : ¬ config.isRecordLine (b :: line) = true := by
          simp [Config.isRecordLine, hc]
        simp only [linesOf, hr', new, atLine, List.filter_cons_of_neg hnone, if_true]
      · refine lines_content endian acc hr hcomment (fun hfalse => ?_) (fun hd => ?_) ?_ hstep
        · rcases hr' with hr' | hr' <;> rw [hfalse] at hr' <;> cases hr'
        · rw [hdelim.mpr hd] at hs
          cases hs
        · rcases hr' with hr | hr <;> rw [hr] at hrow ⊢ <;> exact hrow

include h hquote hends in
/-- What comes out of a parse without quotes are the lines that are records. -/
theorem run_lines (bytes : Bytes) {r : Reading (List Record)} (hr : r.Settled)
    (hstate : r.Unquoted) {records : List Record}
    (hrun : r.run (reference endian config) acc.accumulator bytes = .ok records) :
    records = r.state ++ r.linesOf config (bytes.splitOnP config.isTerminator) := by
  induction bytes generalizing r with
  | nil =>
      change r.finish (reference endian config) acc.accumulator = .ok records at hrun
      rw [finish] at hrun
      rw [List.splitOnP_nil, linesOf]
      rcases hstate with hs | hs | hs | hs
      · simp only [hs] at hrun ⊢
        cases hrun
        simp [Config.isRecordLine]
      · simp only [hs] at hrun ⊢
        cases hrun
        simp
      · simp only [hs] at hrun ⊢
        rw [emit_eq hrun, openFields_end]
        rfl
      · simp only [hs] at hrun ⊢
        rw [emit_eq hrun, openFields_end]
        rfl
  | cons b rest ih =>
      cases hstep : r.step (reference endian config) acc.accumulator b with
      | error left =>
          rw [run, steps, hstep] at hrun
          cases hrun
      | ok next =>
          obtain ⟨hnext, hlines⟩ := step_lines h hquote endian hends acc hr hstate rest hstep
          rw [hlines]
          rw [run, steps, hstep] at hrun
          exact ih (step_settled (shape_reference h endian) hr hstep).1 hnext hrun

include h hquote hends in
/-- A text without quotes parses to its lines. -/
theorem run_lineRecords {bytes : Bytes} {records : List Record}
    (hrun : (new []).run (reference endian config) acc.accumulator bytes = .ok records) :
    records = config.lineRecords bytes := by
  have hlines := run_lines h hquote endian hends acc bytes (settled_new []) (Or.inl rfl) hrun
  obtain ⟨line, lines, hsplit⟩ := List.exists_cons_of_ne_nil
    (List.splitOnP_ne_nil config.isTerminator bytes)
  rw [hsplit] at hlines
  rw [Config.lineRecords, hsplit]
  exact hlines

end

end Dfa.Reading

end Csveee
