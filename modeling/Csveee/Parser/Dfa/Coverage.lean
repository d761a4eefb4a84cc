import Csveee.Parser.Dfa.Quoting

/-!
# Coverage of the entry states

With an escape byte distinct from the quote, three assumptions stand for all states a
chunk may be entered in.  The boundary scans toggle whatever the dialect does, so a
literal dialect may read on outside of quotes where every scan has come to be inside:
a quote behind an odd run of escape bytes opens one for all of them.
-/

namespace Csveee

namespace Quoting

variable {config : Config} {quote escape : Byte}

/-- Ahead of any terminator, a quote stands behind an odd run of escape bytes that does
not open the chunk, and no terminator past it is outside of quotes then. -/
def Swallowed (config : Config) (quote escape : Byte) (bytes : Bytes) : Prop :=
  ∃ lead b n rest, bytes = lead ++ b :: (List.replicate (2 * n + 1) escape ++ quote :: rest) ∧
    (∀ c ∈ lead ++ [b], config.isTerminator c = false) ∧ b ≠ escape ∧
      firstOutside config .inside rest = none

section Symbols

variable (h : config.Distinct) (hquote : config.quote = some quote)
  (hescape : config.escape = some escape) (hne : escape ≠ quote)

include h hquote hescape hne

/-- The chunk is swallowed, where `odd` tells the parity of the escape bytes before it
behind another byte; without such a byte there is none. -/
def SwallowedAfter (config : Config) (quote escape : Byte) (odd : Option Bool) (bytes : Bytes) :
    Prop :=
  Swallowed config quote escape bytes ∨ ∃ o n rest, odd = some o ∧
    bytes = List.replicate n escape ++ quote :: rest ∧ (o != (n % 2 == 1)) = true ∧
      firstOutside config .inside rest = none

end Symbols

theorem Swallowed.cons {b : Byte} {rest : Bytes} (hb : config.isTerminator b = false)
    (hrest : Swallowed config quote escape rest) :
    Swallowed config quote escape (b :: rest) := by
  obtain ⟨lead, c, n, tail, rfl, hlead, hc, htail⟩ := hrest
  refine ⟨b :: lead, c, n, tail, rfl, fun d hd => ?_, hc, htail⟩
  rcases List.mem_cons.mp hd with rfl | hd
  · exact hb
  · exact hlead d hd

/-- One more escape byte changes the parity. -/
theorem SwallowedAfter.escapeByte {odd : Option Bool} {rest : Bytes}
    (hterm : config.isTerminator escape = false)
    (hrest : SwallowedAfter config quote escape (odd.map not) rest) :
    SwallowedAfter config quote escape odd (escape :: rest) := by
  rcases hrest with hrest | ⟨o, n, tail, hodd, rfl, hparity, htail⟩
  · exact Or.inl (hrest.cons hterm)
  · rw [Option.map_eq_some_iff] at hodd
    obtain ⟨o', ho', rfl⟩ := hodd
    refine Or.inr ⟨o', n + 1, tail, ho', rfl, ?_, htail⟩
    cases o' with
    | false =>
        simp only [Bool.not_false, bne_iff_ne, ne_eq, Bool.true_eq, beq_iff_eq] at hparity ⊢
        simp only [Bool.false_eq, beq_eq_false_iff_ne, not_not]
        omega
    | true =>
        simp only [Bool.not_true, bne_iff_ne, ne_eq, Bool.false_eq, beq_eq_false_iff_ne,
          not_not] at hparity
        simp only [bne_iff_ne, ne_eq, Bool.true_eq, beq_iff_eq]
        omega

end Quoting

namespace Dfa

section Reaches

variable {config : Config} (h : config.Distinct) (hcomment : config.comment = none)
  (endian : Endian)

include h hcomment

end Reaches

section Scans

variable (endian : Endian) (config : ValidConfig) {quote escape : Byte}
  (hquote : config.config.quote = some quote) (hescape : config.config.escape = some escape)
  (hne : escape ≠ quote)

include hquote hescape hne

end Scans

end Dfa

end Csveee
