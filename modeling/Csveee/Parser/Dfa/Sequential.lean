import Csveee.Lib.Sequential
import Csveee.Parser.Dfa.Composition
import Csveee.Parser.Dfa.Parser

/-!
# The reference as a sequential parser

Without comments, the reference parser can stop at any chunk end and go on from the
boundary it reports: parsing in pieces is parsing in one.
-/

namespace Csveee.Dfa

open RefState

/-- The records of a body up to a chunk end, and the boundary to go on from.  At the
end of the input there is nothing to go on with. -/
def bodyRecords (config : StepperConfig) (acc : RecordWise) (data : Bytes) (p c : ℕ) :
    Except Unit (List Record × Option ℕ) :=
  match refParse config acc.accumulator c p (data.drop p) [] with
  | (records, .ok next) => .ok (records, if c < data.length then next else none)
  | (_, .error _) => .error ()

section

variable {config : StepperConfig} {acc : RecordWise} {data : Bytes} {p c : ℕ}

theorem bodyRecords_ok {records : List Record} {next : Option ℕ} :
    bodyRecords config acc data p c = .ok (records, next) ↔
      ∃ next', refParse config acc.accumulator c p (data.drop p) [] =
          (records, .ok next') ∧ next = if c < data.length then next' else none := by
  rw [bodyRecords]
  split
  · rename_i records' next' hparse
    rw [hparse]
    constructor
    · intro h
      cases h
      exact ⟨next', rfl, rfl⟩
    · rintro ⟨_, h, rfl⟩
      cases h
      rfl
  · rename_i records' err hparse
    rw [hparse]
    constructor
    · intro h
      cases h
    · rintro ⟨_, h, -⟩
      cases h

theorem bodyRecords_error {err : Unit} :
    bodyRecords config acc data p c = .error err ↔
      ∃ records err', refParse config acc.accumulator c p (data.drop p) [] =
        (records, .error err') := by
  rw [bodyRecords]
  split
  · rename_i records next hparse
    rw [hparse]
    constructor
    · intro h
      cases h
    · rintro ⟨_, _, h⟩
      cases h
  · rename_i records err' hparse
    exact ⟨fun _ => ⟨records, err', hparse⟩, fun _ => rfl⟩

/-- The records before a parse do not change it. -/
theorem follows_append (acc : RecordWise) (earlier : List Record) :
    Follows acc.accumulator acc.accumulator (earlier ++ ·) := by
  intro state fields
  exact ⟨List.append_assoc earlier state [fields], rfl⟩

theorem live_new (base : ℕ) (state : List Record) :
    (RefState.new base state).Live := ⟨rfl, by simp [RefState.new]⟩

variable (hshape : Shape config.dfa) (hfree : CommentFree config.dfa)

include hshape hfree

/-- A parse that ends before the input does leaves a boundary. -/
theorem refParse_next (hp : p ≤ c) (hc : c < data.length) {records : List Record}
    {next : Option ℕ}
    (h : refParse config acc.accumulator c p (data.drop p) [] = (records, .ok next)) :
    ∃ q, next = some q ∧ c ≤ q ∧ q ≤ data.length ∧
      (q < data.length → ∃ b, data[q]? = some b ∧
        (config.dfa.transition .recordStart b).next = .recordStart) := by
  have hlen : p + (data.drop p).length = data.length := by
    rw [List.length_drop]
    omega
  obtain ⟨q, hq, hpq, hcq, hle, hbyte⟩ := run_next hshape hfree (data.drop p) _
    (live_new p []) (by omega) (Or.inl hp) h
  rw [hlen] at hle hbyte
  refine ⟨q, hq, hcq, hle, fun hlt => ?_⟩
  obtain ⟨b, hb, hblank⟩ := hbyte hlt
  rw [List.getElem?_drop, Nat.add_sub_cancel' hpq] at hb
  exact ⟨b, hb, hblank⟩

omit hshape hfree in
/-- From a boundary up to itself, there is nothing to parse. -/
theorem bodyRecords_boundary {q : ℕ}
    (hbyte : q < data.length → ∃ b, data[q]? = some b ∧
      (config.dfa.transition .recordStart b).next = .recordStart) :
    bodyRecords config acc data q q =
      .ok ([], if q < data.length then some q else none) := by
  rw [bodyRecords_ok]
  by_cases hq : q < data.length
  · obtain ⟨b, hb, hblank⟩ := hbyte hq
    have hdrop : data.drop q = b :: data.drop (q + 1) := by
      rw [List.drop_eq_getElem_cons hq]
      rw [List.getElem?_eq_getElem hq] at hb
      rw [Option.some.inj hb]
    refine ⟨some q, ?_, rfl⟩
    simp only [refParse, hdrop, run, RefState.step, isBlank, RefState.new, hblank, beq_self_eq_true,
      Bool.and_self, if_true, Nat.le_refl]
  · exact ⟨none, by rw [List.drop_eq_nil_of_le (by omega)]; rfl, by simp only [if_neg hq]⟩

omit hfree in
/-- How the parses up to an earlier and a later chunk end relate. -/
theorem refParse_chunkEnd {c' : ℕ} (hp : p ≤ data.length) (hc : c ≤ c') :
    (refParse config acc.accumulator c' p (data.drop p) [] =
        refParse config acc.accumulator c p (data.drop p) [] ∧
      ∀ records q, refParse config acc.accumulator c p (data.drop p) [] =
        (records, .ok (some q)) → c ≤ q → q < data.length → c' ≤ q) ∨
    ∃ q records last, q < data.length ∧ c ≤ q ∧ q < c' ∧
      refParse config acc.accumulator c p (data.drop p) [] = (records, .ok (some q)) ∧
      Moved 0 last (records ++ ·)
        (refParse config acc.accumulator c' q (data.drop q) [])
        (refParse config acc.accumulator c' p (data.drop p) []) := by
  have hlen : p + (data.drop p).length = data.length := by
    rw [List.length_drop]
    omega
  rcases run_chunkEnd hshape hc p (data.drop p)
    (RefState.new p []) (idle_new p []) (fun last hl => by cases hl) with hsame | hcut
  · rw [hlen] at hsame
    exact Or.inl hsame
  · obtain ⟨q, records, last, hpq, hq, hcq, hqc, hhere, hthere⟩ := hcut
    rw [hlen] at hq
    refine Or.inr ⟨q, records, last, hq, hcq, hqc, hhere, ?_⟩
    have hmove := @run_move _ config _ _ _ 0 last _ (follows_append acc records) c' q
      (data.drop q) (RefState.new q [])
    have hstate : (RefState.new q ([] : List Record)).move 0 last (records ++ ·) =
        { RefState.new q records with lastRecordEnd := last } := by
      simp [RefState.move, RefState.new]
    rw [hstate, Nat.zero_add, Nat.zero_add] at hmove
    rw [List.drop_drop, Nat.add_sub_cancel' hpq] at hthere
    rw [refParse, refParse, hthere]
    exact hmove

theorem bodyRecords_le_next {records : List Record} {next : Option ℕ} (hp : p ≤ c)
    (h : bodyRecords config acc data p c = .ok (records, next)) :
    (data.length ≤ c ∧ next = none) ∨ c < data.length ∧ ∃ q, next = some q ∧ c ≤ q ∧
      q ≤ data.length ∧
      refParse config acc.accumulator c p (data.drop p) [] = (records, .ok (some q)) ∧
      (q < data.length → ∃ b, data[q]? = some b ∧
        (config.dfa.transition .recordStart b).next = .recordStart) := by
  obtain ⟨next', hparse, hnext⟩ := bodyRecords_ok.mp h
  by_cases hc : c < data.length
  · rw [if_pos hc] at hnext
    obtain ⟨q, hq, hcq, hle, hbyte⟩ := refParse_next hshape hfree hp hc hparse
    rw [hq] at hnext hparse
    exact Or.inr ⟨hc, q, hnext, hcq, hle, hparse, hbyte⟩
  · rw [if_neg hc] at hnext
    exact Or.inl ⟨by omega, hnext⟩

/-- The laws of parsing in pieces, for the reference. -/
def sequential (acc : RecordWise) (data : Bytes) : Sequential Record Unit where
  len := data.length
  body := bodyRecords config acc data
  none_only_at_len := by
    intro p c records hp hc h
    rcases bodyRecords_le_next hshape hfree hp h with ⟨hlen, -⟩ | ⟨-, q, hq, -⟩
    · omega
    · cases hq
  le_next := by
    intro p c records q hp hc h
    rcases bodyRecords_le_next hshape hfree hp h with ⟨-, hq⟩ | ⟨-, q', hq, hcq, hle, -⟩
    · cases hq
    · cases hq
      exact ⟨hcq, hle⟩
  handover := by
    intro p c c' records q hp hc hc' h hqc
    rcases bodyRecords_le_next hshape hfree hp h with
      ⟨-, hq⟩ | ⟨hclen, q', hq, hcq, hle, hparse, hbyte⟩
    · cases hq
    cases hq
    rcases @refParse_chunkEnd _ _ data p _ hshape _ (by omega) hc with
      ⟨hsame, hshort⟩ | ⟨q', records', last, hlt, -, hqc', hhere, hmoved⟩
    · -- the parse stops at the boundary under either end
      have hend : c' = q := by
        by_cases hlt : q < data.length
        · exact le_antisymm (hshort records q hparse hcq hlt) hqc
        · omega
      subst hend
      rw [bodyRecords_boundary hbyte]
      refine bodyRecords_ok.mpr ⟨some c', ?_, rfl⟩
      rw [List.append_nil]
      exact hsame.trans hparse
    · rw [hparse] at hhere
      cases hhere
      obtain ⟨hrecords, hnext⟩ := hmoved
      cases hrest : refParse config acc.accumulator c' q (data.drop q) [] with
      | mk rest outcome =>
          cases hall : refParse config acc.accumulator c' p (data.drop p) [] with
          | mk all outcome' =>
              rw [hrest, hall] at hrecords hnext
              simp only at hrecords hnext
              subst hrecords
              cases outcome with
              | error err =>
                  cases outcome' with
                  | ok => cases hnext
                  | error err' =>
                      have hfails : bodyRecords config acc data q c' = .error () :=
                        bodyRecords_error.mpr ⟨_, _, hrest⟩
                      rw [hfails]
                      exact bodyRecords_error.mpr ⟨_, _, hall⟩
              | ok next =>
                  cases outcome' with
                  | error => cases hnext
                  | ok next' =>
                      rw [bodyRecords_ok.mpr ⟨_, hrest, rfl⟩]
                      refine bodyRecords_ok.mpr ⟨_, hall, ?_⟩
                      simp only
                      by_cases hlen : c' < data.length
                      · obtain ⟨q', hq', -⟩ := refParse_next hshape hfree hqc hlen hrest
                        subst hq'
                        simp only [Except.toOption, Option.map_some, Option.some_or,
                          Nat.zero_add] at hnext
                        rw [Option.some.inj hnext]
                      · simp only [if_neg hlen]
  stay := by
    intro p c c' records q hp hc hc' h hqc
    rcases bodyRecords_le_next hshape hfree hp h with
      ⟨-, hq⟩ | ⟨hclen, q', hq, hcq, hle, hparse, -⟩
    · cases hq
    cases hq
    rcases @refParse_chunkEnd _ _ data p _ hshape _ (by omega) hc with
      ⟨hsame, -⟩ | ⟨q', records', last, hlt, -, hqc', hhere, -⟩
    · rw [h]
      exact bodyRecords_ok.mpr ⟨some q, hsame.trans hparse, by rw [if_pos (by omega)]⟩
    · rw [hparse] at hhere
      cases hhere
      omega
  error := by
    intro p c c' err hp hc hc' h
    obtain ⟨records, err', hparse⟩ := bodyRecords_error.mp h
    rcases @refParse_chunkEnd _ _ data p _ hshape _ (by omega) hc with
      ⟨hsame, -⟩ | ⟨q', records', last, hlt, -, hqc', hhere, -⟩
    · exact bodyRecords_error.mpr ⟨records, err', hsame.trans hparse⟩
    · rw [hparse] at hhere
      cases hhere

end

section

variable {config : Config}

/-- What the reference parser of a dialect works with. -/
def reference (endian : Endian) (config : Config) : StepperConfig :=
  (DfaChunkParser.new endian config).stepperConfig

theorem shape_reference (h : config.Distinct) (endian : Endian) :
    Shape (reference endian config).dfa := shape_new h endian

/-- Exactly the terminators are blank where a record starts. -/
theorem blank_reference (h : config.Distinct) (endian : Endian) (b : Byte) :
    ((reference endian config).dfa.transition .recordStart b).next = .recordStart ↔
      config.isTerminator b = true := by
  have hterm := (symbol_tests h b).2.1
  change ((Dfa.new endian config).transition .recordStart b).next = .recordStart ↔ _
  rw [transition_eq h endian .recordStart (by decide), ← hterm]
  cases config.symbol b <;> simp [symbolRow]

theorem commentFree_reference (h : config.Distinct) (hcomment : config.comment = none)
    (endian : Endian) : CommentFree (reference endian config).dfa := by
  intro b hb
  have hsymbol := (symbol_tests h b).2.2.2.2
  change ((Dfa.new endian config).transition .recordStart b).next = .inComment at hb
  rw [transition_eq h endian .recordStart (by decide)] at hb
  cases hs : config.symbol b with
  | comment =>
      rw [hcomment] at hsymbol
      cases hsymbol.mp hs
  | _ =>
      rw [hs] at hb
      cases hb

/-- Leading blank lines short of the chunk's end are passed over. -/
theorem refParse_skip (h : config.Distinct) (endian : Endian) {σ : Type} (acc : Accumulator σ)
    (c x k : ℕ) (bytes : Bytes) (state : σ) (hk : k ≤ blankRun config bytes)
    (hc : x + k ≤ c) :
    refParse (reference endian config) acc c (x + k) (bytes.drop k) state =
      refParse (reference endian config) acc c x bytes state := by
  induction k generalizing x bytes with
  | zero => rfl
  | succ k ih =>
      cases bytes with
      | nil => simp [blankRun] at hk
      | cons b rest =>
          by_cases hb : config.isTerminator b = true
          · rw [blankRun, List.takeWhile_cons, if_pos hb, List.length_cons] at hk
            have hrest := ih (x + 1) rest (by rw [blankRun]; omega) (by omega)
            rw [show x + (k + 1) = x + 1 + k by omega, List.drop_succ_cons, hrest]
            have hblank := (blank_reference h endian b).mpr hb
            have hstep : (RefState.new x state).step (reference endian config) acc c x b =
                .inl (RefState.new x state) := by
              simp only [RefState.step, isBlank, RefState.new, hblank, beq_self_eq_true,
                Bool.and_self, if_true, if_neg (show ¬ c ≤ x by omega)]
            simp only [refParse, run, hstep]
            exact (run_startAt c (x + 1) rest (RefState.new x state) rfl (x + 1) (x + 1))
          · rw [blankRun, List.takeWhile_cons, if_neg hb, List.length_nil] at hk
            omega

/-- A blank run that outlasts the chunk leaves nothing to parse. -/
theorem refParse_straddle (h : config.Distinct) (endian : Endian) {σ : Type}
    (acc : Accumulator σ) (c x : ℕ) (bytes : Bytes) (state : σ) (hx : x ≤ c)
    (hrun : c - x < blankRun config bytes) :
    refParse (reference endian config) acc c x bytes state = (state, .ok (some c)) := by
  rw [← refParse_skip h endian acc c x (c - x) bytes state (by omega) (by omega),
    Nat.add_sub_cancel' hx]
  have hdrop := blankRun_drop config bytes (c - x) (by omega)
  cases hbytes : bytes.drop (c - x) with
  | nil =>
      rw [hbytes] at hdrop
      simp only [blankRun, List.takeWhile_nil, List.length_nil] at hdrop
      rw [blankRun] at hrun
      omega
  | cons b rest =>
      have hb : config.isTerminator b = true := by
        rw [hbytes] at hdrop
        by_contra hb
        rw [blankRun, List.takeWhile_cons, if_neg hb, List.length_nil] at hdrop
        omega
      have hblank := (blank_reference h endian b).mpr hb
      simp only [refParse, run, RefState.step, isBlank, RefState.new, hblank,
        beq_self_eq_true, Bool.and_self, if_true, Nat.le_refl]

variable {ref : StepperConfig} {acc : RecordWise} {c x : ℕ} {bytes : Bytes}
  {records : List Record}

/-- A parse does not depend on where offsets are counted from. -/
theorem refParse_shift (n : ℕ) :
    Moved n none id (refParse ref acc.accumulator c x bytes [])
      (refParse ref acc.accumulator (n + c) (n + x) bytes []) :=
  run_move ref (fun _ _ => ⟨rfl, rfl⟩) c x
    bytes (RefState.new x [])

theorem refParse_ok_shift {next : Option ℕ} (n : ℕ)
    (h : refParse ref acc.accumulator c x bytes [] = (records, .ok next)) :
    refParse ref acc.accumulator (n + c) (n + x) bytes [] =
      (records, .ok (next.map (n + ·))) := by
  obtain ⟨hrecords, hnext⟩ := refParse_shift n
  rw [h] at hrecords hnext
  cases hthere : refParse ref acc.accumulator (n + c) (n + x) bytes [] with
  | mk records' outcome =>
      rw [hthere] at hrecords hnext
      cases outcome with
      | error => cases hnext
      | ok next' =>
          simp only [Except.toOption, Option.map_some, Option.or_none] at hnext
          rw [show records' = records from hrecords, Option.some.inj hnext]

theorem refParse_error_shift {err : Error} (n : ℕ)
    (h : refParse ref acc.accumulator c x bytes [] = (records, .error err)) :
    ∃ err', refParse ref acc.accumulator (n + c) (n + x) bytes [] = (records, .error err') := by
  obtain ⟨hrecords, hnext⟩ := refParse_shift n
  rw [h] at hrecords hnext
  cases hthere : refParse ref acc.accumulator (n + c) (n + x) bytes [] with
  | mk records' outcome =>
      rw [hthere] at hrecords hnext
      cases outcome with
      | error err' => exact ⟨err', by rw [show records' = records from hrecords]⟩
      | ok => cases hnext

end

end Csveee.Dfa
