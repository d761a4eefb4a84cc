import Csveee.Parser.Handed
import Csveee.Parser.Dfa.Buffering
import Csveee.Parser.Dfa.Sequential

/-!
# What the byte automaton hands out

The field in flight is cut from the bytes read: it begins behind an ASCII byte, and what is
left out of it is ASCII.  So it is text as soon as a byte of the dialect ends it.
-/

namespace Csveee.Dfa

variable {σ : Type}

/-- Outside of comments, a byte that is not content is left out only if the run stops. -/
theorem symbolRow_output {mode : QuoteHandling} {doubled : Bool} {state : State} {symbol : Symbol}
    (hout : (symbolRow mode doubled state symbol).hasOutput = false)
    (hnext : (symbolRow mode doubled state symbol).next ≠ .error) (hstate : state ≠ .inComment) :
    symbol ≠ .content := by
  rintro rfl
  cases mode <;> cases doubled <;> cases state <;>
    first | exact hnext rfl | exact hstate rfl | cases hout

/-- A byte that ends a field is left out of it. -/
theorem symbolRow_ends {mode : QuoteHandling} {doubled : Bool} {state : State} {symbol : Symbol}
    (h : (symbolRow mode doubled state symbol).next = .fieldEnd ∨
      (symbolRow mode doubled state symbol).next = .recordEnd) :
    (symbolRow mode doubled state symbol).hasOutput = false := by
  rcases h with h | h <;>
    cases mode <;> cases doubled <;> cases state <;> cases symbol <;> first | rfl | cases h

section

variable {config : Config} (h : config.Distinct)
  (hascii : config.validateAsciiControlBytes = .ok ())

include h hascii

theorem ascii_of_symbol {b : Byte} (hsymbol : config.symbol b ≠ .content) : b < 0x80 := by
  obtain ⟨hdelim, hterm, hquote, hescape, hcomment⟩ := symbol_tests h b
  have hcontrol := fun kind => @ascii_of_control config hascii kind b
  rw [Config.controlBytes] at hcontrol
  cases hsym : config.symbol b with
  | delimiter =>
      apply hcontrol .delimiter
      rw [hdelim.mp hsym]
      exact List.mem_cons_self
  | terminator =>
      have hmem := hterm.mp hsym
      rw [Config.isTerminator, Bool.or_eq_true, beq_iff_eq, beq_iff_eq] at hmem
      apply hcontrol .terminator
      rcases hmem with hfirst | hsecond
      · rw [hfirst]
        simp
      · rw [hsecond]
        simp
  | quote =>
      apply hcontrol .quote
      rw [hquote.mp hsym]
      simp
  | escape =>
      apply hcontrol .escape
      rw [(hescape.mp hsym).1]
      simp
  | comment =>
      apply hcontrol .comment
      rw [hcomment.mp hsym]
      simp
  | content => exact absurd hsym hsymbol

theorem ascii_of_no_output (endian : Endian) {state : State} (hstate : state ≠ .inComment)
    {b : Byte} (hout : ((Dfa.new endian config).transition state b).hasOutput = false)
    (hnext : ((Dfa.new endian config).transition state b).next ≠ .error) : b < 0x80 := by
  rw [transition_eq h endian state hstate] at hout hnext
  exact ascii_of_symbol h hascii (symbolRow_output hout hnext hstate)

omit h hascii in
theorem ascii_of_comment_end (endian : Endian) {b : Byte}
    (hnext : ((Dfa.new endian config).transition .inComment b).next = .recordStart) :
    b < 0x80 := by
  change (inCommentRow config b).next = .recordStart at hnext
  rw [inCommentRow] at hnext
  split_ifs at hnext with hend
  · rcases hend with rfl | ⟨-, rfl⟩ <;> decide

end

theorem thins_trimAscii (field : Bytes) : Utf8.Thins field (trimAscii field) := by
  have hwhite : ∀ b, isAsciiWhitespace b = true → b < 0x80 := by
    intro b hb
    simp only [isAsciiWhitespace, Bool.or_eq_true, beq_iff_eq] at hb
    rcases hb with (((rfl | rfl) | rfl) | rfl) | rfl <;> decide
  have hlead := Utf8.Thins.dropWhile hwhite field
  have htail := Utf8.Thins.dropWhile hwhite (field.dropWhile isAsciiWhitespace).reverse
  have hfield := (hlead.reverse.trans htail).reverse
  rwa [List.reverse_reverse] at hfield

/-- Where a run stands that has read these bytes. -/
structure InFlight (output : Output) (read : Bytes) (s : RefState σ) : Prop where
  fields : output = .str → ∀ field ∈ s.fields, Utf8.Valid field
  field : output = .str → s.dfaState ≠ .inComment → Utf8.Cut read s.field
  idle : s.dfaState = .recordStart ∨ s.dfaState = .inComment → s.fields = [] ∧ s.field = []

theorem inFlight_new (output : Output) (base : ℕ) (state : σ) :
    InFlight output [] (RefState.new base state) where
  fields := fun _ _ hmem => absurd hmem List.not_mem_nil
  field := fun _ _ => Utf8.cut_nil
  idle := fun _ => ⟨rfl, rfl⟩

theorem inFlight_idle {output : Output} {read : Bytes} {s : RefState σ} (hfields : s.fields = [])
    (hfield : s.field = [])
    (hcut : output = .str → s.dfaState ≠ .inComment → Utf8.Cut read []) :
    InFlight output read s where
  fields := by
    intro _ field hmem
    rw [hfields] at hmem
    exact absurd hmem List.not_mem_nil
  field := by
    rw [hfield]
    exact hcut
  idle := fun _ => ⟨hfields, hfield⟩

/-- A field that ends is text. -/
theorem InFlight.closeField {output : Output} {read : Bytes} {s : RefState σ}
    (h : InFlight output read s) (config : StepperConfig) (hstr : output = .str)
    (hstate : s.dfaState ≠ .inComment) (hvalid : Utf8.Valid read) :
    ∀ field ∈ (s.closeField config).fields, Utf8.Valid field := by
  intro field hmem
  rcases List.mem_append.mp hmem with hold | hnew
  · exact h.fields hstr field hold
  · have hfield := (h.field hstr hstate).valid hvalid
    rw [List.mem_singleton.mp hnew]
    split_ifs
    · exact hfield.thins (thins_trimAscii _)
    · exact hfield

section Run

variable {config : Config} (h : config.Distinct) (endian : Endian) {output : Output}
  (hascii : output = .str → config.validateAsciiControlBytes = .ok ())
  {acc : Accumulator σ} {initial : σ}

/-- A record that is handed out is as promised. -/
theorem handed_emit {s : RefState σ}
    (hfields : output = .str → ∀ field ∈ s.fields, Utf8.Valid field)
    (hhanded : HandedOut acc (Promised config output) initial s.state) :
    HandedOut acc (Promised config output) initial (s.emit (reference endian config) acc).1 := by
  rw [RefState.emit]
  split_ifs with hcount
  · exact hhanded.record ⟨hcount, hfields⟩
  · exact hhanded

/-- What a step comes to that has read these bytes. -/
def Keeps (config : Config) (output : Output) (acc : Accumulator σ) (initial : σ) (read : Bytes) :
    RefState σ ⊕ BodyOutcome σ → Prop
  | .inl s => InFlight output read s ∧ HandedOut acc (Promised config output) initial s.state
  | .inr outcome => HandedOut acc (Promised config output) initial outcome.1

include h hascii

/-- A byte that is put into the field, or left out of it. -/
theorem cut_push {read : Bytes} {s : RefState σ} (hs : InFlight output read s) (b : Byte)
    (hstate : s.dfaState ≠ .inComment)
    (hnext : ((Dfa.new endian config).transition s.dfaState b).next ≠ .error)
    (hstr : output = .str) :
    Utf8.Cut (read ++ [b]) (s.push ((Dfa.new endian config).transition s.dfaState b) b).field := by
  have hcut := hs.field hstr hstate
  rw [RefState.push]
  split_ifs with hout
  · exact hcut.snoc b
  · exact hcut.skip (ascii_of_no_output h (hascii hstr) endian hstate
      (Bool.eq_false_of_not_eq_true hout) hnext)

theorem ascii_of_ends (hstr : output = .str) {state : State} {b : Byte}
    (hends : ((Dfa.new endian config).transition state b).next = .fieldEnd ∨
      ((Dfa.new endian config).transition state b).next = .recordEnd) :
    state ≠ .inComment ∧ b < 0x80 ∧
      ((Dfa.new endian config).transition state b).hasOutput = false := by
  have hstate : state ≠ .inComment := by
    rintro rfl
    rcases (transition_inComment endian config b).2 with hnext | hnext <;>
      rcases hends with hend | hend <;> rw [hnext] at hend <;> cases hend
  have hnext : ((Dfa.new endian config).transition state b).next ≠ .error := by
    intro herror
    rcases hends with hend | hend <;> rw [herror] at hend <;> cases hend
  have hout : ((Dfa.new endian config).transition state b).hasOutput = false := by
    rw [transition_eq h endian _ hstate] at hends ⊢
    exact symbolRow_ends hends
  exact ⟨hstate, ascii_of_no_output h (hascii hstr) endian hstate hout hnext, hout⟩

theorem valid_closeField {read rest : Bytes} {b : Byte}
    (hvalid : output = .str → Utf8.Valid (read ++ b :: rest)) {s : RefState σ}
    (hs : InFlight output read s)
    (hends : ((Dfa.new endian config).transition s.dfaState b).next = .fieldEnd ∨
      ((Dfa.new endian config).transition s.dfaState b).next = .recordEnd)
    (hstr : output = .str) :
    ∀ field ∈ ((s.push ((Dfa.new endian config).transition s.dfaState b) b).closeField
      (reference endian config)).fields, Utf8.Valid field := by
  obtain ⟨hstate, hb, hout⟩ := ascii_of_ends h endian hascii hstr hends
  rw [RefState.push, if_neg (Bool.not_eq_true _ ▸ hout)]
  exact hs.closeField _ hstr hstate ((Utf8.valid_append_cons hb).mp (hvalid hstr)).1

theorem keeps_read {chunkEnd x : ℕ} {read rest : Bytes} {b : Byte} {s : RefState σ}
    (hvalid : output = .str → Utf8.Valid (read ++ b :: rest)) (hs : InFlight output read s)
    (hhanded : HandedOut acc (Promised config output) initial s.state) :
    let trans := (Dfa.new endian config).transition s.dfaState b
    let pushed := s.push trans b
    Keeps config output acc initial (read ++ [b]) (match trans.next with
      | .error => .inr (pushed.state, .error (.invalidQuote x))
      | .fieldEnd => .inl { pushed.closeField (reference endian config) with
          dfaState := .fieldStart
          fieldInStart := x + 1 }
      | .recordEnd => pushed.endRecord (reference endian config) acc chunkEnd x
      | next => .inl { pushed with dfaState := next }) := by
  intro trans pushed
  have hpushed : pushed.fields = s.fields ∧ pushed.state = s.state := by
    simp only [pushed, RefState.push]
    split_ifs <;> exact ⟨rfl, rfl⟩
  have hhanded' : HandedOut acc (Promised config output) initial pushed.state := by
    rw [hpushed.2]
    exact hhanded
  split
  · exact hhanded'
  · next hnext =>
      refine ⟨⟨fun hstr => ?_, fun hstr _ => ?_, ?_⟩, hhanded'⟩
      · exact valid_closeField h endian hascii hvalid hs (Or.inl hnext) hstr
      · exact Utf8.cut_behind read (ascii_of_ends h endian hascii hstr (Or.inl hnext)).2.1
      · rintro (hfalse | hfalse) <;> cases hfalse
  · next hnext =>
      have hemit := @handed_emit _ config endian output acc initial
        (pushed.closeField (reference endian config))
        (fun hstr => valid_closeField h endian hascii hvalid hs (Or.inr hnext) hstr) hhanded'
      rw [RefState.endRecord]
      cases hresult : (pushed.closeField (reference endian config)).emit (reference endian config)
          acc with
      | mk state result =>
          rw [hresult] at hemit
          cases result with
          | error err => exact hemit
          | ok =>
              simp only
              split_ifs
              · exact hemit
              · exact ⟨inFlight_idle rfl rfl fun hstr _ => Utf8.cut_behind read
                  (ascii_of_ends h endian hascii hstr (Or.inr hnext)).2.1, hemit⟩
  · next next herror hfield hrecord =>
      have hidle : trans.next = .recordStart ∨ trans.next = .inComment →
          pushed.fields = [] ∧ pushed.field = [] := by
        intro hnext
        obtain ⟨hbetween, hout⟩ := (shape_new h endian).idle s.dfaState b hnext
        simp only [pushed, trans, RefState.push, hout]
        exact hs.idle hbetween
      refine ⟨⟨fun hstr => ?_, fun hstr hnot => ?_, hidle⟩, hhanded'⟩
      · rw [show pushed.fields = s.fields from hpushed.1]
        exact hs.fields hstr
      · by_cases hstate : s.dfaState = .inComment
        · have hcomment := (transition_inComment endian config b).2
          have htrans : trans = (Dfa.new endian config).transition .inComment b :=
            congrArg ((Dfa.new endian config).transition · b) hstate
          rw [← htrans] at hcomment
          have hstart : trans.next = .recordStart := hcomment.resolve_right hnot
          rw [show pushed.field = [] from (hidle (Or.inl hstart)).2]
          rw [htrans] at hstart
          exact Utf8.cut_behind read (ascii_of_comment_end endian hstart)
        · exact cut_push h endian hascii hs b hstate herror hstr

theorem keeps_step {chunkEnd x : ℕ} {read rest : Bytes} {b : Byte} {s : RefState σ}
    (hvalid : output = .str → Utf8.Valid (read ++ b :: rest)) (hs : InFlight output read s)
    (hhanded : HandedOut acc (Promised config output) initial s.state) :
    Keeps config output acc initial (read ++ [b])
      (s.step (reference endian config) acc chunkEnd x b) := by
  have hbegun : InFlight output read (s.begin x) := by
    rw [RefState.begin]
    split_ifs
    · exact ⟨hs.fields, hs.field, hs.idle⟩
    · exact hs
  have hbegin : (s.begin x).dfaState = s.dfaState ∧ (s.begin x).state = s.state := by
    rw [RefState.begin]
    split_ifs <;> exact ⟨rfl, rfl⟩
  rw [RefState.step]
  split_ifs with hblank hstop
  · exact hhanded
  · -- a blank byte, before a record
    simp only [RefState.isBlank, Bool.and_eq_true, beq_iff_eq] at hblank
    obtain ⟨hstart, hnext⟩ := hblank
    obtain ⟨hfields, hfield⟩ := hs.idle (Or.inl hstart)
    refine ⟨inFlight_idle hfields hfield fun hstr _ => Utf8.cut_behind read ?_, hhanded⟩
    have hterm := (blank_reference h endian b).mp hnext
    apply ascii_of_symbol h (hascii hstr)
    rw [(symbol_tests h b).2.1.mpr hterm]
    decide
  · rw [← hbegin.1]
    exact keeps_read h endian hascii hvalid hbegun (hbegin.2.symm ▸ hhanded)

theorem keeps_after {chunkEnd x : ℕ} {read : Bytes} (bytes : Bytes) {s : RefState σ}
    (hvalid : output = .str → Utf8.Valid (read ++ bytes)) (hs : InFlight output read s)
    (hhanded : HandedOut acc (Promised config output) initial s.state) :
    Keeps config output acc initial (read ++ bytes)
      (s.after (reference endian config) acc chunkEnd x bytes) := by
  induction bytes generalizing read x s with
  | nil =>
      rw [List.append_nil]
      exact ⟨hs, hhanded⟩
  | cons b rest ih =>
      have hstep := @keeps_step _ _ h endian output hascii acc initial chunkEnd x read rest b s
        hvalid hs hhanded
      rw [RefState.after]
      cases hnext : s.step (reference endian config) acc chunkEnd x b with
      | inr outcome =>
          rw [hnext] at hstep
          exact hstep
      | inl next =>
          rw [hnext] at hstep
          rw [List.append_cons]
          rw [List.append_cons] at hvalid
          exact ih hvalid hstep.1 hstep.2

omit h hascii in
theorem handed_finish {x : ℕ} {read : Bytes} {s : RefState σ}
    (hvalid : output = .str → Utf8.Valid read)
    (hkeeps : Keeps config output acc initial read (.inl s)) :
    HandedOut acc (Promised config output) initial
      (s.finish (reference endian config) acc x).1 := by
  obtain ⟨hs, hhanded⟩ := hkeeps
  have hemit := fun hstate => @handed_emit _ config endian output acc initial
    (s.closeField (reference endian config))
    (fun hstr => hs.closeField _ hstr hstate (hvalid hstr)) hhanded
  rw [RefState.finish]
  cases hstate : s.dfaState with
  | fieldStart | inField | afterClosingQuote =>
      have hlast := hemit (by rw [hstate]; decide)
      simp only
      cases hresult : (s.closeField (reference endian config)).emit (reference endian config)
          acc with
      | mk state result =>
          rw [hresult] at hlast
          cases result <;> exact hlast
  | _ => exact hhanded

/-- Every record the byte automaton hands out is as promised. -/
theorem handedOut_parseFrom (reader : ChunkReader) (base : ℕ) :
    HandedOut acc (Promised config output) initial
      ((DfaChunkParser.new endian config).parseFrom output acc reader initial base).1 := by
  have hends := @run_ends _ (reference endian config) acc (searchSound_new endian config) output
    reader base initial
  have hkeeps : ∀ v, Reached output reader.pending v →
      (output = .str → Utf8.Valid (reader.pending.take v)) ∧
        Keeps config output acc initial (reader.pending.take v)
          ((RefState.new base initial).after (reference endian config) acc
            (base + reader.chunkRemaining) base (reader.pending.take v)) := by
    intro v hreached
    have hvalid : output = .str → Utf8.Valid (reader.pending.take v) := by
      rintro rfl
      exact hreached.valid.2
    refine ⟨hvalid, ?_⟩
    exact keeps_after h endian hascii (reader.pending.take v) hvalid
      (inFlight_new output base initial) .start
  rw [DfaChunkParser.parseFrom]
  change HandedOut acc (Promised config output) initial (ChunkDriver.run
    (stepper (reference endian config) acc) output (.new reader base) (.new base) initial).1
  generalize ChunkDriver.run (stepper (reference endian config) acc) output (.new reader base)
    (.new base) initial = result at hends ⊢
  cases hends with
  | halted hreached hafter =>
      have hthere := (hkeeps _ hreached).2
      rw [hafter] at hthere
      exact hthere
  | finished hreached hafter =>
      obtain ⟨hvalid, hthere⟩ := hkeeps _ hreached
      rw [List.take_length] at hvalid hthere
      rw [hafter] at hthere
      exact handed_finish endian hvalid hthere
  | failed hreached hafter _ =>
      have hthere := (hkeeps _ hreached).2
      rw [hafter] at hthere
      exact hthere.2
  | refused hreached hafter _ =>
      have hthere := (hkeeps _ hreached).2
      rw [hafter] at hthere
      exact hthere.2

end Run

end Csveee.Dfa
