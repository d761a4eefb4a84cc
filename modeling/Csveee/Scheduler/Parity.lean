import Csveee.Parser.Dfa.Quoting
import Csveee.Parser.Contract
import Csveee.Parser.Simd.Boundary
import Csveee.Scheduler.Resolve

/-!
# Quote parity

Without an escape byte of its own, a dialect leaves two assumptions about a chunk: outside
of quotes, or inside.  Every quote swaps them, so a terminator is outside of quotes under
one of the two exactly, and a chunk with a terminator is never without a boundary.
-/

namespace Csveee

namespace Quoting

/-- The other side of a quote. -/
def flip : Quoting → Quoting
  | .outside => .inside
  | .inside => .outside
  | .escaped => .escaped

variable {config : Config} (hescape : ∀ b, config.symbol b ≠ .escape)

include hescape

theorem after_flip {quoting : Quoting} (hquoting : quoting ≠ .escaped) (bytes : Bytes) :
    quoting.flip.after config bytes = (quoting.after config bytes).flip ∧
      quoting.after config bytes ≠ .escaped := by
  induction bytes generalizing quoting with
  | nil => exact ⟨rfl, hquoting⟩
  | cons b rest ih =>
      have hnext : quoting.flip.next (config.symbol b) = (quoting.next (config.symbol b)).flip ∧
          quoting.next (config.symbol b) ≠ .escaped := by
        have hsymbol := hescape b
        cases quoting with
        | escaped => exact absurd rfl hquoting
        | outside | inside =>
            cases hcase : config.symbol b <;> first | exact absurd hcase hsymbol | decide
      rw [after_cons, after_cons, hnext.1]
      exact ih hnext.2

/-- From the two sides of a quote, one leads outside. -/
theorem outside_xor (bytes : Bytes) :
    Xor (Quoting.outside.after config bytes = .outside)
      (Quoting.inside.after config bytes = .outside) := by
  obtain ⟨hflip, hquoting⟩ := after_flip hescape (show Quoting.outside ≠ .escaped by decide) bytes
  rw [flip] at hflip
  rw [hflip]
  cases hcase : Quoting.outside.after config bytes with
  | outside => exact Or.inl ⟨rfl, by decide⟩
  | inside => exact Or.inr ⟨rfl, by decide⟩
  | escaped => exact absurd hcase hquoting

/-- Every quote swaps the sides. -/
theorem after_eq_of_even {q : Byte} (hquote : ∀ b, config.symbol b = .quote ↔ q = b)
    {quoting : Quoting} (hquoting : quoting ≠ .escaped) (bytes : Bytes) :
    quoting.after config bytes = if Even (bytes.count q) then quoting else quoting.flip := by
  induction bytes generalizing quoting with
  | nil => rfl
  | cons b rest ih =>
      rw [after_cons]
      by_cases hb : b = q
      · have hnext : quoting.next (config.symbol b) = quoting.flip := by
          rw [(hquote b).mpr hb.symm]
          cases quoting with
          | escaped => exact absurd rfl hquoting
          | outside | inside => rfl
        have hflip : quoting.flip ≠ .escaped ∧ quoting.flip.flip = quoting := by
          cases quoting with
          | escaped => exact absurd rfl hquoting
          | outside | inside => decide
        rw [hnext, ih hflip.1, hb, List.count_cons_self, hflip.2]
        by_cases heven : Even (rest.count q)
        · rw [if_pos heven, if_neg (Nat.even_add_one.not.mpr (not_not.mpr heven))]
        · rw [if_neg heven, if_pos (Nat.even_add_one.mpr heven)]
      · have hnext : quoting.next (config.symbol b) = quoting := by
          have hne : config.symbol b ≠ .quote := fun h => hb ((hquote b).mp h).symm
          have hsymbol := hescape b
          cases quoting with
          | escaped => exact absurd rfl hquoting
          | outside | inside =>
              cases hcase : config.symbol b <;>
                first | exact absurd hcase hne | exact absurd hcase hsymbol | rfl
        rw [hnext, ih hquoting, List.count_cons_of_ne hb]

end Quoting

namespace Scheduler

/-- What an assumption says about the byte before the chunk, without an escape byte. -/
def quotingOf : Assumption → Quoting
  | .outOfQuotes => .outside
  | _ => .inside

section

variable {σ : Type}

/-- The lenient scan of these bytes as a chunk reports a boundary here, whatever the
refills. -/
def Reports (parser : ChunkParser σ) (assumption : Assumption) (bytes : Bytes) (off : ℕ) : Prop :=
  ∀ reader : ChunkReader, reader.schedule.Reliable →
    reader.pending.take reader.chunkRemaining = bytes →
      ∃ later, parser.scanRecordStart reader assumption false = .ok (some (later, off))

/-- A terminator is out of quotes if the scan, taken up again behind each boundary it
reports, reports it. -/
inductive OutOfQuotes (parser : ChunkParser σ) : Assumption → Bytes → ℕ → Prop
  | reported {assumption : Assumption} {bytes : Bytes} {off : ℕ}
      (h : Reports parser assumption bytes off) : OutOfQuotes parser assumption bytes off
  | behind {assumption : Assumption} {bytes : Bytes} {off i : ℕ}
      (h : Reports parser assumption bytes off)
      (hlater : OutOfQuotes parser .outOfQuotes (bytes.drop (off + 1)) i) :
      OutOfQuotes parser assumption bytes (off + 1 + i)

/-- A parser whose lenient scan keeps track of quotes. -/
def TracksQuotes (config : Config) (parser : ChunkParser σ) : Prop :=
  ∀ reader assumption, assumption ≠ .inQuotesAfterEscape →
    (parser.scanRecordStart reader assumption false).Matches reader
      (Dfa.boundaryAt 0 ((quotingOf assumption).firstOutside config
        (reader.pending.take reader.chunkRemaining)))

namespace TracksQuotes

variable {config : Config} {parser : ChunkParser σ} (h : TracksQuotes config parser)

include h

theorem scan_eq {reader : ChunkReader} (hreliable : reader.schedule.Reliable)
    {assumption : Assumption} (hassumption : assumption ≠ .inQuotesAfterEscape) :
    ∃ found, parser.scanRecordStart reader assumption false = .ok found ∧
      found.map Prod.snd = (quotingOf assumption).firstOutside config
        (reader.pending.take reader.chunkRemaining) := by
  have hmatches := h reader assumption hassumption
  generalize parser.scanRecordStart reader assumption false = outcome at hmatches
  generalize (quotingOf assumption).firstOutside config
    (reader.pending.take reader.chunkRemaining) = first at hmatches
  rcases outcome with err | _ | ⟨later, off⟩
  · rcases hmatches with ⟨off, hoff, -⟩ | ⟨failure, hfails, -⟩
    · cases first <;> cases hoff
    · exact absurd hfails (hreliable.not_failsWith failure)
  · refine ⟨none, rfl, ?_⟩
    cases first with
    | none => rfl
    | some off => cases hmatches
  · refine ⟨some (later, off), rfl, ?_⟩
    cases first with
    | none => cases hmatches.1
    | some first =>
        have hoff := hmatches.1
        rw [Dfa.boundaryAt, Nat.zero_add, Boundary.found.injEq] at hoff
        rw [hoff]
        rfl

theorem reports_iff {assumption : Assumption} (hassumption : assumption ≠ .inQuotesAfterEscape)
    (bytes : Bytes) (off : ℕ) :
    Reports parser assumption bytes off ↔
      (quotingOf assumption).firstOutside config bytes = some off := by
  constructor
  · intro hreports
    have hwhole : (ChunkReader.whole bytes).pending.take (ChunkReader.whole bytes).chunkRemaining =
        bytes := List.take_length
    obtain ⟨later, hlater⟩ := hreports (.whole bytes) Schedule.reliable_exact hwhole
    have hreliable : (ChunkReader.whole bytes).schedule.Reliable := Schedule.reliable_exact
    obtain ⟨found, hscan, hfound⟩ := h.scan_eq hreliable hassumption
    rw [hlater, Except.ok.injEq] at hscan
    rw [← hscan, hwhole] at hfound
    exact hfound.symm
  · intro hfirst reader hreliable hbytes
    obtain ⟨found, hscan, hfound⟩ := h.scan_eq hreliable hassumption
    rw [hbytes, hfirst, Option.map_eq_some_iff] at hfound
    obtain ⟨⟨later, off'⟩, rfl, rfl⟩ := hfound
    exact ⟨later, hscan⟩

/-- Out of quotes is where an even number of quotes leads, counted from the start the
assumption makes. -/
theorem outOfQuotes_iff (hdistinct : config.Distinct) {assumption : Assumption}
    (hassumption : assumption ≠ .inQuotesAfterEscape) (bytes : Bytes) (i : ℕ) :
    OutOfQuotes parser assumption bytes i ↔
      (∃ b, bytes[i]? = some b ∧ config.isTerminator b = true) ∧
        (quotingOf assumption).after config (bytes.take i) = .outside := by
  -- a terminator outside of quotes leaves the run outside of quotes
  have hpass : ∀ quoting : Quoting, ∀ bytes : Bytes, ∀ off j,
      (quoting.firstOutside config bytes = some off) →
        quoting.after config (bytes.take (off + 1 + j)) =
          Quoting.outside.after config ((bytes.drop (off + 1)).take j) := by
    intro quoting bytes off j hfirst
    obtain ⟨⟨⟨b, hb, hterm⟩, hquoting⟩, -⟩ := Quoting.firstOutside_eq_some.mp hfirst
    have hsymbol := (Dfa.symbol_tests hdistinct b).2.1.mpr hterm
    rw [List.take_add, Quoting.after_append, List.take_add_one, hb, Quoting.after_append,
      hquoting, Option.toList_some, Quoting.after_cons, hsymbol]
    rfl
  constructor
  · intro hout
    induction hout with
    | reported hreports =>
        rw [h.reports_iff hassumption] at hreports
        exact (Quoting.firstOutside_eq_some.mp hreports).1
    | @behind assumption bytes off j hreports _ ih =>
        rw [h.reports_iff hassumption] at hreports
        obtain ⟨⟨b, hb, hterm⟩, hquoting⟩ := ih (by decide)
        rw [hpass _ _ _ _ hreports]
        rw [List.getElem?_drop] at hb
        exact ⟨⟨b, hb, hterm⟩, hquoting⟩
  · rintro ⟨⟨b, hb, hterm⟩, hquoting⟩
    induction hlength : bytes.length using Nat.strong_induction_on
      generalizing bytes assumption i with
    | h length ih =>
        cases hfirst : (quotingOf assumption).firstOutside config bytes with
        | none => exact absurd hquoting (Quoting.firstOutside_eq_none.mp hfirst i b hb hterm)
        | some off =>
            have hreports := (h.reports_iff hassumption bytes off).mpr hfirst
            obtain ⟨⟨⟨c, hc, -⟩, -⟩, hmin⟩ := Quoting.firstOutside_eq_some.mp hfirst
            have hoff : off < bytes.length := (List.getElem?_eq_some_iff.mp hc).1
            rcases Nat.lt_trichotomy i off with hlt | rfl | hgt
            · exact absurd hquoting (hmin i hlt b hb hterm)
            · exact .reported hreports
            · obtain ⟨j, rfl⟩ := Nat.exists_eq_add_of_le hgt
              apply OutOfQuotes.behind hreports
              rw [Nat.succ_eq_add_one, hpass _ _ _ _ hfirst] at hquoting
              refine ih _ ?_ (by decide) _ _ hquoting ?_ rfl
              · rw [← hlength, List.length_drop]
                omega
              · rw [List.getElem?_drop]
                exact hb

/-- The first terminator is reported where quotes lead outside to it. -/
theorem reports_first {assumption : Assumption} (hassumption : assumption ≠ .inQuotesAfterEscape)
    {bytes : Bytes} {first : ℕ} (hfirst : bytes.findIdx? config.isTerminator = some first) :
    Reports parser assumption bytes first ↔
      (quotingOf assumption).after config (bytes.take first) = .outside := by
  obtain ⟨hlt, hterm, hmin⟩ := List.findIdx?_eq_some_iff_getElem.mp hfirst
  rw [h.reports_iff hassumption, Quoting.firstOutside_eq_some]
  constructor
  · exact fun hreports => hreports.1.2
  · refine fun hquoting => ⟨⟨⟨_, List.getElem?_eq_getElem hlt, hterm⟩, hquoting⟩, ?_⟩
    intro i hi b hb hterm'
    rw [List.getElem?_eq_getElem (by omega), Option.some.injEq] at hb
    exact absurd (hb ▸ hterm') (hmin i hi)

/-- What is reported in a chunk is a terminator that quotes lead outside to. -/
theorem after_of_found {reader : ChunkReader} (hreliable : reader.schedule.Reliable)
    {assumption : Assumption} (hassumption : assumption ≠ .inQuotesAfterEscape)
    {later : ChunkReader} {off : ℕ}
    (hscan : parser.scanRecordStart reader assumption false = .ok (some (later, off))) :
    (quotingOf assumption).after config
      ((reader.pending.take reader.chunkRemaining).take off) = .outside := by
  obtain ⟨found, hok, hfound⟩ := h.scan_eq hreliable hassumption
  rw [hscan, Except.ok.injEq] at hok
  rw [← hok] at hfound
  exact (Quoting.firstOutside_eq_some.mp hfound.symm).1.2

end TracksQuotes

section Backends

variable (platform : Platform) (config : ValidConfig) {q : Byte} (output : Output)
  (acc : Accumulator σ)

/-- The byte automaton's boundary, told by quotes alone. -/
theorem boundaryOf_quoting (endian : Endian) {config : Config} (h : config.Distinct)
    {assumption : Assumption} (hassumption : assumption ≠ .inQuotesAfterEscape) (bytes : Bytes) :
    Dfa.boundaryOf endian config assumption false bytes =
      Dfa.boundaryAt 0 ((quotingOf assumption).firstOutside config bytes) := by
  cases assumption with
  | outOfQuotes =>
      have hquoting := @Dfa.scan_quoting _ h endian .fieldStart rfl (by decide) (by decide) 0 bytes
      exact hquoting
  | inQuotes =>
      have hquoting :=
        @Dfa.scan_quoting _ h endian .inQuotedField rfl (by decide) (by decide) 0 bytes
      exact hquoting
  | inQuotesAfterEscape => exact absurd rfl hassumption

theorem tracksQuotes_dfa : TracksQuotes config.config
    (parserOf platform .dfa config.config output acc) := by
  intro reader assumption hassumption
  have hsound := Dfa.probeSound_new platform.endian config.config
  rw [← boundaryOf_quoting platform.endian config.distinct hassumption]
  exact Dfa.findRecordStartFrom_spec hsound.toSearchSound (fun _ => hsound) reader _

theorem tracksQuotes_simd (hsupports : Simd.supports config.config = .ok ())
    (hquote : config.config.quote = some q) : TracksQuotes config.config
      (parserOf platform .simd config.config output acc) := by
  intro reader assumption hassumption
  have hs := Simd.supported_of_supports config.distinct hsupports
  have hmem : assumption ∈ assumptionsForConfig config.config.quote config.config.escape := by
    rw [hquote]
    cases assumption with
    | outOfQuotes => exact outOfQuotes_mem_assumptions _ _
    | inQuotes => exact inQuotes_mem_assumptions _ _
    | inQuotesAfterEscape => exact absurd rfl hassumption
  rw [← boundaryOf_quoting platform.endian config.distinct hassumption,
    ← Simd.boundaryOf_eq hs config.distinct platform.endian hmem
      (fun hfalse => absurd hfalse Bool.false_ne_true)]
  exact Simd.findRecordStart_spec config.distinct reader assumption false

/-- The lenient scan is complete: it never fails; it takes the terminators for out of quotes
that an even number of quotes leads outside to, so each of them under one of the two assumptions
exactly; the first one is reported under one of them, and the two never report the same. -/
theorem lenientScan_complete (hquote : config.config.quote = some q)
    (hescape : config.config.escape = none ∨ config.config.escape = some q) (backend : Backend)
    (hbackend : backend = .simd → Simd.supports config.config = .ok ()) :
    let parser := parserOf platform backend config.config output acc
    (∀ reader : ChunkReader, reader.schedule.Reliable →
      ∀ assumption ∈ assumptionsForConfig config.config.quote config.config.escape,
        ∃ found, parser.scanRecordStart reader assumption false = .ok found) ∧
      (∀ assumption ∈ assumptionsForConfig config.config.quote config.config.escape,
        ∀ bytes i,
          (OutOfQuotes parser assumption bytes i ↔
            (∃ b, bytes[i]? = some b ∧ config.config.isTerminator b = true) ∧
              (quotingOf assumption).after config.config (bytes.take i) = .outside) ∧
          ((quotingOf assumption).after config.config (bytes.take i) = .outside ↔
            (Even ((bytes.take i).count q) ↔ assumption = .outOfQuotes))) ∧
      (∀ bytes i b, bytes[i]? = some b → config.config.isTerminator b = true →
        Xor (OutOfQuotes parser .outOfQuotes bytes i) (OutOfQuotes parser .inQuotes bytes i)) ∧
      (∀ bytes first, bytes.findIdx? config.config.isTerminator = some first →
        Xor (Reports parser .outOfQuotes bytes first) (Reports parser .inQuotes bytes first)) ∧
      ∀ reader reader' : ChunkReader, reader.schedule.Reliable → reader'.schedule.Reliable →
        reader.pending.take reader.chunkRemaining = reader'.pending.take reader'.chunkRemaining →
        ∀ later later' off off',
          parser.scanRecordStart reader .outOfQuotes false = .ok (some (later, off)) →
          parser.scanRecordStart reader' .inQuotes false = .ok (some (later', off')) →
            off ≠ off' := by
  intro parser
  have hdistinct := config.distinct
  have htracks : TracksQuotes config.config parser := by
    cases backend with
    | dfa => exact tracksQuotes_dfa platform config output acc
    | simd => exact tracksQuotes_simd platform config output acc (hbackend rfl) hquote
  have hassumptions : assumptionsForConfig config.config.quote config.config.escape =
      [.outOfQuotes, .inQuotes] := by
    rcases hescape with hnone | hsome
    · rw [hquote, hnone]
      rfl
    · rw [hquote, hsome]
      exact if_pos rfl
  have hsymbol : ∀ b, config.config.symbol b ≠ .escape := by
    intro b hb
    obtain ⟨heq, hdoubled⟩ := (Dfa.symbol_tests hdistinct b).2.2.2.1.mp hb
    rcases hescape with hnone | hsome
    · rw [hnone] at heq
      cases heq
    · rw [Config.doubledQuotes, hquote, hsome] at hdoubled
      exact Bool.false_ne_true (hdoubled.symm.trans (beq_self_eq_true q))
  have hxor := Quoting.outside_xor hsymbol
  have hassumption : ∀ assumption ∈
      assumptionsForConfig config.config.quote config.config.escape,
        assumption ≠ .inQuotesAfterEscape := by
    rw [hassumptions]
    decide
  have hquotes : ∀ b, config.config.symbol b = .quote ↔ q = b := by
    intro b
    rw [(Dfa.symbol_tests hdistinct b).2.2.1, hquote, Option.some_inj]
  refine ⟨?_, ?_, ?_, ?_, ?_⟩
  · intro reader hreliable assumption hmem
    have hassumption := hassumption assumption hmem
    obtain ⟨found, hfound, -⟩ := htracks.scan_eq hreliable hassumption
    exact ⟨found, hfound⟩
  · intro assumption hmem bytes i
    refine ⟨htracks.outOfQuotes_iff hdistinct (hassumption assumption hmem) bytes i, ?_⟩
    have hside : quotingOf assumption ≠ .escaped := by cases assumption <;> decide
    rw [Quoting.after_eq_of_even hsymbol hquotes hside]
    have hne := hassumption assumption hmem
    cases assumption with
    | outOfQuotes => split_ifs with heven <;> simp [quotingOf, Quoting.flip, heven]
    | inQuotes => split_ifs with heven <;> simp [quotingOf, Quoting.flip, heven]
    | inQuotesAfterEscape => exact absurd rfl hne
  · intro bytes i b hb hterm
    rw [htracks.outOfQuotes_iff hdistinct (by decide),
      htracks.outOfQuotes_iff hdistinct (by decide)]
    simp only [hb, Option.some.injEq, exists_eq_left', hterm, true_and]
    exact hxor (bytes.take i)
  · intro bytes first hfirst
    rw [htracks.reports_first (by decide) hfirst, htracks.reports_first (by decide) hfirst]
    exact hxor (bytes.take first)
  · rintro reader reader' hreliable hreliable' hbytes later later' off off' hscan hscan' rfl
    have hout := htracks.after_of_found hreliable (by decide) hscan
    have hin := htracks.after_of_found hreliable' (by decide) hscan'
    rw [← hbytes] at hin
    rcases hxor ((reader.pending.take reader.chunkRemaining).take off) with ⟨-, hnot⟩ | ⟨-, hnot⟩
    · exact hnot hin
    · exact hnot hout

theorem lenientScan_complete_newline :
    Xor (Reports (parserOf scalarPlatform .simd Simd.pairs.config .bytes
        RecordWise.acceptAll.accumulator) .outOfQuotes [34, 10] 1)
      (Reports (parserOf scalarPlatform .simd Simd.pairs.config .bytes
        RecordWise.acceptAll.accumulator) .inQuotes [34, 10] 1) :=
  (lenientScan_complete scalarPlatform Simd.pairs .bytes RecordWise.acceptAll.accumulator rfl
    (Or.inr rfl) .simd fun _ => rfl).2.2.2.1 [34, 10] 1 (by decide)

end Backends

end

end Scheduler

end Csveee
