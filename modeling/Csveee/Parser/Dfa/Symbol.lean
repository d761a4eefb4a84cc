import Csveee.Parser.Dfa.Table

/-!
# The table over symbols

A validated dialect puts every byte into one of six classes, and outside of
comments the transition depends on the class only.  What the states do to each
other is thereby a finite table.
-/

namespace Csveee

/-- What a byte stands for in a dialect. -/
inductive Symbol
  | delimiter
  | terminator
  | quote
  /-- An escape byte distinct from the quote. -/
  | escape
  | comment
  | content
  deriving DecidableEq, Repr

namespace Config

/-- The class of a byte. -/
def symbol (config : Config) (b : Byte) : Symbol :=
  if b = config.delimiter then .delimiter
  else if config.isTerminator b then .terminator
  else if config.quote = some b then .quote
  else if config.escape = some b then .escape
  else if config.comment = some b then .comment
  else .content

end Config

namespace Dfa

/-- The transition on a symbol. -/
def symbolRow (mode : QuoteHandling) (doubled : Bool) : State → Symbol → Transition
  | .recordStart, .terminator => ⟨.recordStart, false, false⟩
  | .recordStart, .comment => ⟨.inComment, false, false⟩
  | .recordStart, .quote | .fieldStart, .quote => ⟨.inQuotedField, false, false⟩
  | .recordStart, .delimiter | .fieldStart, .delimiter | .inField, .delimiter
  | .afterClosingQuote, .delimiter => ⟨.fieldEnd, false, false⟩
  | .fieldStart, .terminator | .inField, .terminator
  | .afterClosingQuote, .terminator => ⟨.recordEnd, false, false⟩
  | .recordStart, _ | .fieldStart, _ => ⟨.inField, true, false⟩
  | .inField, .quote =>
      match mode with
      | .toggle => ⟨.inQuotedField, false, true⟩
      | .literal => ⟨.inField, true, true⟩
      | .strict => ⟨.error, false, false⟩
  | .inField, _ => ⟨.inField, true, false⟩
  | .inQuotedField, .escape => ⟨.inEscapedQuote, false, false⟩
  | .inQuotedField, .quote => ⟨.afterClosingQuote, false, false⟩
  | .inQuotedField, _ => ⟨.inQuotedField, true, false⟩
  | .afterClosingQuote, symbol =>
      if doubled = true ∧ symbol = .quote then ⟨.inQuotedField, true, false⟩
      else match mode with
        | .toggle =>
            if symbol = .quote then ⟨.inQuotedField, false, true⟩ else ⟨.inField, true, true⟩
        | .literal => ⟨.inField, true, true⟩
        | .strict => ⟨.error, false, false⟩
  | .inEscapedQuote, _ => ⟨.inQuotedField, true, false⟩
  | .inComment, _ => ⟨.inComment, false, false⟩
  | .fieldEnd, _ | .recordEnd, _ | .error, _ => ⟨.error, false, false⟩

section

variable {config : Config} {b : Byte}

/-- Which tests of the rows a symbol passes. -/
theorem symbol_tests (h : config.Distinct) (b : Byte) :
    (config.symbol b = .delimiter ↔ b = config.delimiter) ∧
    (config.symbol b = .terminator ↔ config.isTerminator b = true) ∧
    (config.symbol b = .quote ↔ config.quote = some b) ∧
    (config.symbol b = .escape ↔ config.escape = some b ∧ config.doubledQuotes = false) ∧
    (config.symbol b = .comment ↔ config.comment = some b) := by
  have hdelim := h.delimiter
  have hquote := h.quote b
  have hescape := h.escape b
  have hcomment := h.comment b
  have hquoted := h.escape_quote
  rw [Config.symbol, Config.doubledQuotes]
  split_ifs with h1 h2 h3 h4 h5
  · subst h1
    simp_all
  · simp_all
  · simp_all
  · simp_all
    grind
  · simp_all
  · simp_all

/-- Outside of comments, the transition depends on the symbol only. -/
theorem transition_eq (h : config.Distinct) (endian : Endian) (state : State)
    (hstate : state ≠ .inComment) (b : Byte) :
    (Dfa.new endian config).transition state b =
      symbolRow config.quoteHandling config.doubledQuotes state (config.symbol b) := by
  obtain ⟨hdelim, hterm, hquote, hescape, hcomment⟩ := symbol_tests h b
  have hdoubled : config.doubledQuotes = true → config.escape = config.quote := by
    rw [Config.doubledQuotes]
    split
    · rename_i q e hq he
      intro heq
      rw [hq, he, eq_of_beq heq]
    · intro hfalse
      cases hfalse
  simp only [transition, Dfa.new]
  cases hsymbol : config.symbol b <;>
    simp only [hsymbol, reduceCtorEq, false_iff, true_iff]
      at hdelim hterm hquote hescape hcomment <;>
    cases state <;>
    simp_all [recordStartRow, fieldStartRow, inFieldRow, inQuotedFieldRow,
      afterClosingQuoteRow, inEscapedQuoteRow, symbolRow, Transition.withStrictError]
  all_goals
    cases hmode : config.quoteHandling <;> cases hdouble : config.doubledQuotes <;> simp_all

theorem symbolRow_recordEnd {mode : QuoteHandling} {doubled : Bool} {state : State}
    {symbol : Symbol} (h : (symbolRow mode doubled state symbol).next = .recordEnd) :
    symbol = .terminator := by
  cases mode <;> cases doubled <;> cases state <;> cases symbol <;> first | rfl | cases h

/-- Nothing but a blank byte leads back to where a record starts, nothing but a
comment byte into a comment. -/
theorem symbolRow_idle {mode : QuoteHandling} {doubled : Bool} {state : State}
    {symbol : Symbol} (hstate : state ≠ .inComment)
    (h : (symbolRow mode doubled state symbol).next = .recordStart ∨
      (symbolRow mode doubled state symbol).next = .inComment) :
    state = .recordStart ∧ (symbolRow mode doubled state symbol).hasOutput = false := by
  rcases h with h | h <;>
    cases mode <;> cases doubled <;> cases state <;> cases symbol <;>
      first | exact absurd rfl hstate | exact ⟨rfl, rfl⟩ | cases h

theorem transition_inComment (endian : Endian) (config : Config) (b : Byte) :
    ((Dfa.new endian config).transition .inComment b).hasOutput = false ∧
      (((Dfa.new endian config).transition .inComment b).next = .recordStart ∨
        ((Dfa.new endian config).transition .inComment b).next = .inComment) := by
  change (inCommentRow config b).hasOutput = false ∧
    ((inCommentRow config b).next = .recordStart ∨ (inCommentRow config b).next = .inComment)
  rw [inCommentRow]
  split_ifs
  · exact ⟨rfl, Or.inl rfl⟩
  · exact ⟨rfl, Or.inr rfl⟩

/-- How the cells lead into and out of the states between records. -/
structure Shape (dfa : Dfa) : Prop where
  /-- A byte that ends a record is blank where the next one starts. -/
  recordEnd_blank : ∀ state b, (dfa.transition state b).next = .recordEnd →
    (dfa.transition .recordStart b).next = .recordStart
  /-- Between records, nothing is content. -/
  idle : ∀ state b, (dfa.transition state b).next = .recordStart ∨
      (dfa.transition state b).next = .inComment →
    (state = .recordStart ∨ state = .inComment) ∧
      (dfa.transition state b).hasOutput = false

theorem shape_new (h : config.Distinct) (endian : Endian) :
    Shape (Dfa.new endian config) where
  recordEnd_blank := by
    intro state b hend
    by_cases hstate : state = .inComment
    · subst hstate
      rcases (transition_inComment endian config b).2 with hnext | hnext <;>
        rw [hnext] at hend <;> cases hend
    · rw [transition_eq h endian state hstate] at hend
      rw [transition_eq h endian .recordStart (by decide), symbolRow_recordEnd hend]
      rfl
  idle := by
    intro state b hidle
    by_cases hstate : state = .inComment
    · subst hstate
      exact ⟨Or.inr rfl, (transition_inComment endian config b).1⟩
    · rw [transition_eq h endian state hstate] at hidle ⊢
      obtain ⟨hstart, hout⟩ := symbolRow_idle hstate hidle
      exact ⟨Or.inl hstart, hout⟩

end

end Dfa

end Csveee
