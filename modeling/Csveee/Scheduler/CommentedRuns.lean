import Csveee.Parser.Dfa.LineRecords
import Csveee.Scheduler.Reproducible

/-!
# Runs over commented lines

Without quotes, and with comments that end on the terminators, every terminator is a boundary.
A pass may run past its chunk's end in a comment, and one that meets only comments reports no
boundary at all, so that the merge takes whatever comes next.  None of this loses or repeats a
record: where the merge stands, the records so far and those of the rest are those of the input.
-/

namespace Csveee.Scheduler.Job

open Dfa

/-- A run over a dialect without quotes whose comments end on its terminators. -/
structure Unquoted (job : Job (List Record)) (endian : Endian) (acc : RecordWise) : Prop where
  parser : job.parser =
    (DfaChunkParser.new endian job.config).chunkParser .bytes acc.accumulator
  distinct : job.config.Distinct
  quote : job.config.quote = none
  ends : ∀ b, job.config.endsComment b = job.config.isTerminator b
  init : job.init = []
  chunkSize : 0 < job.chunkSize
  reliable : job.env.Reliable

namespace Unquoted

variable {job : Job (List Record)} {endian : Endian} {acc : RecordWise}

/-- A comment ends on every byte a record ends on. -/
theorem closes (h : job.Unquoted endian acc) (b : Byte)
    (hb : Blank (reference endian job.config).dfa b) :
    ((reference endian job.config).dfa.transition .inComment b).next = .recordStart := by
  have hterm := (blank_reference h.distinct endian b).mp hb
  rw [← h.ends, Config.endsComment, decide_eq_true_eq] at hterm
  change (inCommentRow job.config b).next = .recordStart
  rw [inCommentRow, if_pos hterm]

/-- The parse of the whole input. -/
def total (_ : job.Unquoted endian acc) : Except (List Record) (List Record) :=
  restFrom (reference endian job.config) acc job.data 0 []

/-- Where the merge stands past the chunk end `c`. -/
def Stands (h : job.Unquoted endian acc) (c : ℕ) (records : List Record) (next : Option ℕ) :
    Prop :=
  Pending (reference endian job.config) acc job.data h.total c records next

/-- What a parse from `p` up to `stop` reports. -/
def Reports (_ : job.Unquoted endian acc) (p stop : ℕ) (recordEnd : Option ℕ) :
    Except Error (List Record) → Prop
  | .ok records => refParse (reference endian job.config) acc.accumulator stop p (job.data.drop p)
      [] = (records, .ok recordEnd)
  | .error _ => ∃ records err, refParse (reference endian job.config) acc.accumulator stop p
      (job.data.drop p) [] = (records, .error err)

/-- A parse of the rest of the input, up to a chunk's end, brings the merge there. -/
theorem stands_of_reports (h : job.Unquoted endian acc) {p stop : ℕ} {records : List Record}
    {recordEnd : Option ℕ} (hp : p ≤ job.data.length)
    (hrest : restFrom (reference endian job.config) acc job.data p records = h.total)
    (hstop : p ≤ stop) (result : Except Error (List Record)) :
    h.Reports p stop recordEnd result →
      match result with
      | .ok more => h.Stands stop (records ++ more) recordEnd
      | .error _ => ∃ left, h.total = .error left := by
  intro hresult
  have hpending := @refParse_pending _ acc job.data (shape_reference h.distinct endian) h.closes
    records p stop hstop hp
  rw [hrest] at hpending
  cases result with
  | ok more =>
      have hok : refParse _ _ _ _ _ _ = _ := hresult
      rw [hok] at hpending
      exact hpending
  | error err =>
      obtain ⟨left, err', herr⟩ := hresult
      rw [herr] at hpending
      exact hpending

/-- Where the merge stands, it goes on with a parse from the boundary pending, or from any later
one if none is. -/
theorem Stands.advance (h : job.Unquoted endian acc) {c p stop : ℕ}
    {records : List Record} {next recordEnd : Option ℕ} (hstands : h.Stands c records next)
    (hp : next = some p ∨
      next = none ∧ c ≤ p ∧ ∃ b, job.data[p]? = some b ∧ job.config.isTerminator b = true)
    (hstop : p ≤ stop) (result : Except Error (List Record)) :
    h.Reports p stop recordEnd result →
      match result with
      | .ok more => h.Stands stop (records ++ more) recordEnd
      | .error _ => ∃ left, h.total = .error left := by
  rcases hp with rfl | ⟨rfl, hcp, b, hb, hterm⟩
  · exact h.stands_of_reports hstands.1 hstands.2.2.2 hstop result
  · exact h.stands_of_reports (List.getElem?_eq_some_iff.mp hb).1.le
      (hstands.2 p b hcp hb ((blank_reference h.distinct endian b).mpr hterm)) hstop result

/-- A chunk without a pass leaves the merge where it stands. -/
theorem Stands.skip (h : job.Unquoted endian acc) {c c' : ℕ} {records : List Record}
    {next : Option ℕ} (hstands : h.Stands c records next) (hc : c ≤ c')
    (hnext : ∀ q b, next = some q → job.data[q]? = some b → job.config.isTerminator b = true →
      c ≤ q → c' ≤ q) :
    h.Stands c' records next := by
  cases next with
  | none => exact ⟨hstands.1, fun q b hq => hstands.2 q b (hc.trans hq)⟩
  | some q =>
      obtain ⟨hle, hbyte, hshort, hrest⟩ := hstands
      refine ⟨hle, hbyte, fun hlt => ?_, hrest⟩
      by_cases hq : q < job.data.length
      · obtain ⟨b, hb, hblank⟩ := hbyte hq
        by_contra hne
        have hcq : c ≤ q := by
          by_contra hlt
          exact hne (hshort (by omega))
        have := hnext q b rfl hb ((blank_reference h.distinct endian b).mp hblank) hcq
        omega
      · rw [← hrest, restFrom, List.drop_eq_nil_of_le (by omega)]
        rfl

/-- Past the input's end, the records are all there are. -/
theorem Stands.total_eq (h : job.Unquoted endian acc) {c : ℕ} {records : List Record}
    {next : Option ℕ} (hstands : h.Stands c records next) (hc : job.data.length ≤ c) :
    h.total = .ok records := by
  cases next with
  | none => exact hstands.1
  | some q =>
      obtain ⟨hle, -, hshort, hrest⟩ := hstands
      by_cases hq : q < job.data.length
      · exact hshort (by omega)
      · rw [← hrest, restFrom, List.drop_eq_nil_of_le (by omega)]
        rfl

/-- Every scan of a chunk finds its first terminator. -/
theorem boundaryFor_eq (h : job.Unquoted endian acc) {find : FindRecordStart}
    (hfind : find ≠ .skipHeaders) (bytes : Bytes) :
    boundaryFor endian job.config (boundaryOf endian job.config) .outOfQuotes find bytes =
      boundaryAt 0 (startIn job.config find bytes) := by
  have hscan := fun probe => scan_unquoted h.distinct h.quote endian .toggle probe
    (Or.inl rfl : State.fieldStart = .fieldStart ∨ _) 0 bytes
  cases find with
  | no => rfl
  | skipHeaders => exact absurd rfl hfind
  | lenient => exact hscan false
  | strict => exact hscan true

/-- A pass over a chunk, told in offsets of the whole input. -/
theorem reports_ofBody (h : job.Unquoted endian acc) {start stop : ℕ} (off : ℕ)
    (hstart : start ≤ stop) :
    let pr := PassResult.ofBody off (refParse (reference endian job.config) acc.accumulator
      (stop - start) off (job.data.drop (start + off)) [])
    pr.recordStart = some off ∧
      h.Reports (start + off) stop (pr.recordEnd.map (start + ·)) pr.result := by
  cases hparse : refParse (reference endian job.config) acc.accumulator (stop - start) off
      (job.data.drop (start + off)) [] with
  | mk records outcome =>
      cases outcome with
      | ok next =>
          have hshift := refParse_ok_shift start hparse
          rw [Nat.add_sub_cancel' hstart] at hshift
          exact ⟨rfl, hshift⟩
      | error err =>
          obtain ⟨err', hshift⟩ := refParse_error_shift start hparse
          rw [Nat.add_sub_cancel' hstart] at hshift
          exact ⟨rfl, records, err', hshift⟩

/-- An attempt parses from the first terminator of its chunk. -/
theorem attempt_spec (h : job.Unquoted endian acc) (idx : ℕ) {start stop : ℕ}
    (hstart : start ≤ stop) {find : FindRecordStart} (hfind : find ≠ .skipHeaders) :
    let pr := job.attempt idx start stop find .outOfQuotes
    match startIn job.config find (job.chunkBytes start stop) with
    | none => pr.recordStart = none
    | some off => start + off ≤ stop ∧ pr.recordStart = some off ∧
        h.Reports (start + off) stop (pr.recordEnd.map (start + ·)) pr.result := by
  have hattempt : job.attempt idx start stop find .outOfQuotes =
      passAt endian job.config acc.accumulator (job.data.drop start) (stop - start) []
        (boundaryAt 0 (startIn job.config find (job.chunkBytes start stop))) := by
    rw [attempt, h.parser, h.init, parse_eq_chunkPass endian job.config acc.accumulator
      (h.reliable _), ← h.boundaryFor_eq hfind]
    rfl
  rw [hattempt]
  cases hfound : startIn job.config find (job.chunkBytes start stop) with
  | none => rfl
  | some off =>
      have hoff : off ≤ stop - start := by
        cases find with
        | no =>
            cases hfound
            exact Nat.zero_le _
        | skipHeaders => exact absurd rfl hfind
        | strict | lenient =>
            have hlt := (List.findIdx?_eq_some_iff_getElem.mp hfound).1
            rw [chunkBytes, List.length_take] at hlt
            omega
      simp only [boundaryAt, Nat.zero_add, passAt]
      rw [passFrom_eq endian job.config acc.accumulator h.distinct _ hoff, List.drop_drop]
      exact ⟨by omega, h.reports_ofBody off hstart⟩

theorem assumptions_eq (h : job.Unquoted endian acc) : job.assumptions = [.outOfQuotes] := by
  rw [assumptions, h.quote, assumptionsForConfig]

/-- The passes of a chunk start from its first terminator, and report what a parse from there
comes to. -/
theorem processChunk_passes (h : job.Unquoted endian acc) {idx : ℕ} (hidx : idx < job.chunkCount)
    (hmode : findMode job.config idx ≠ .skipHeaders) {pass : ResolvedPass (List Record)}
    (hmem : pass ∈ (job.processChunk idx).passes) :
    ∃ off, startIn job.config (findMode job.config idx)
        (job.chunkBytes (job.chunkStart idx) (job.chunkStop idx)) = some off ∧
      pass.recordStart = job.chunkStart idx + off ∧ pass.recordStart ≤ job.chunkStop idx ∧
      h.Reports pass.recordStart (job.chunkStop idx) (job.processChunk idx).recordEnd
        pass.result := by
  have hstart := chunkStart_le (lt_chunkCount hidx).le
  obtain ⟨find, assumption, hassumption, hfind, off, hoff, hpass, hresult⟩ :=
    (job.processChunk_spec idx).1 pass hmem
  rw [h.assumptions_eq, List.mem_singleton] at hassumption
  subst hassumption
  have hsame : find ≠ .skipHeaders ∧ ∀ bytes, startIn job.config find bytes =
      startIn job.config (findMode job.config idx) bytes := by
    rcases hfind with rfl | ⟨hstrict, rfl⟩
    · exact ⟨hmode, fun _ => rfl⟩
    · rw [hstrict]
      exact ⟨by simp, fun _ => rfl⟩
  have hattempt := h.attempt_spec idx hstart hsame.1
  rw [hsame.2] at hattempt
  cases hfound : startIn job.config (findMode job.config idx)
      (job.chunkBytes (job.chunkStart idx) (job.chunkStop idx)) with
  | none =>
      rw [hfound] at hattempt
      have hnone := hoff.symm.trans hattempt
      cases hnone
  | some off' =>
      rw [hfound] at hattempt
      obtain ⟨hle, hsome, hreports⟩ := hattempt
      rw [hoff] at hsome
      cases hsome
      rw [hpass]
      refine ⟨off, rfl, rfl, hle, ?_⟩
      cases hpr : (job.attempt idx (job.chunkStart idx) (job.chunkStop idx) find
          .outOfQuotes).result with
      | ok records =>
          rw [hpr] at hresult hreports
          rw [hresult.1, hresult.2]
          exact hreports
      | error err =>
          rw [hpr] at hresult hreports
          rw [hresult]
          exact hreports

/-- A chunk with a terminator in it has a pass. -/
theorem passes_ne_nil (h : job.Unquoted endian acc) {idx : ℕ} (hidx : idx < job.chunkCount)
    (hmode : findMode job.config idx ≠ .skipHeaders) {off : ℕ}
    (hfound : startIn job.config (findMode job.config idx)
      (job.chunkBytes (job.chunkStart idx) (job.chunkStop idx)) = some off) :
    (job.processChunk idx).passes ≠ [] := by
  have hattempt := h.attempt_spec idx (chunkStart_le (lt_chunkCount hidx).le) hmode
  rw [hfound] at hattempt
  refine (job.processChunk_spec idx).2.mpr (Or.inl ⟨.outOfQuotes, ?_, ?_⟩)
  · rw [h.assumptions_eq, List.mem_singleton]
  · rw [Starts, hattempt.2.1]
    rfl

/-- The merge's callback parses from the boundary it is given. -/
theorem reparseChunk_reports (h : job.Unquoted endian acc) (p chunkEnd : ℕ)
    (hp : p ≤ min chunkEnd job.data.length) :
    match job.reparseChunk p chunkEnd with
    | .ok (records, recordEnd) =>
        h.Reports p (min chunkEnd job.data.length) (recordEnd.map (p + ·)) (.ok records)
    | .error err => h.Reports p (min chunkEnd job.data.length) none (.error err) := by
  have hparse : job.parser.parse (sliceReader job.data
      (job.env (.reparse p (min chunkEnd job.data.length))) p (min chunkEnd job.data.length))
        job.init .outOfQuotes .no = .ofBody 0 (refParse (reference endian job.config)
          acc.accumulator (min chunkEnd job.data.length - p) 0 (job.data.drop (p + 0)) []) := by
    rw [h.parser, h.init, parse_eq_chunkPass endian job.config acc.accumulator (h.reliable _)]
    exact passFrom_eq endian job.config acc.accumulator h.distinct _ (Nat.zero_le _) []
  have hreports := (h.reports_ofBody 0 hp).2
  rw [Nat.add_zero] at hreports
  simp only [reparseChunk, hparse]
  generalize PassResult.ofBody 0 (refParse (reference endian job.config) acc.accumulator
    (min chunkEnd job.data.length - p) 0 (job.data.drop (p + 0)) []) = pr at hreports
  obtain ⟨recordStart, recordEnd, result⟩ := pr
  cases result with
  | ok records => exact hreports
  | error err => exact hreports

/-- Past the end of the input, the end of the last chunk makes no difference. -/
theorem Stands.beyond (h : job.Unquoted endian acc) {k : ℕ} {records : List Record}
    {next : Option ℕ} (hstands : h.Stands (job.chunkStop k) records next) :
    h.Stands ((k + 1) * job.chunkSize) records next := by
  have hstop := chunkStop_eq job k
  refine Stands.skip h hstands (by omega) fun q b _ hb _ hq => ?_
  have hlt := (List.getElem?_eq_some_iff.mp hb).1
  omega

theorem findMode_later (config : Config) {k : ℕ} (hpos : 0 < k) :
    findMode config k = .strict := by
  rw [findMode, if_neg (by omega)]

/-- A later chunk without a pass has no terminator in it. -/
theorem le_of_passes_nil (h : job.Unquoted endian acc) {k : ℕ} (hpos : 0 < k)
    (hidx : k < job.chunkCount) (hempty : (job.processChunk k).passes = []) {q : ℕ} {b : Byte}
    (hb : job.data[q]? = some b) (hterm : job.config.isTerminator b = true)
    (hq : job.chunkStart k ≤ q) : (k + 1) * job.chunkSize ≤ q := by
  by_contra hlt
  have hmode := findMode_later job.config hpos
  have hstop := chunkStop_eq job k
  have hlen := (List.getElem?_eq_some_iff.mp hb).1
  have hbyte : (job.chunkBytes (job.chunkStart k) (job.chunkStop k))[q - job.chunkStart k]? =
      some b := by
    rw [chunkBytes, List.getElem?_take_of_lt (by omega), List.getElem?_drop,
      Nat.add_sub_cancel' hq, hb]
  cases hfound : startIn job.config .strict
      (job.chunkBytes (job.chunkStart k) (job.chunkStop k)) with
  | none =>
      have hnone := List.findIdx?_eq_none_iff.mp hfound b (List.mem_of_getElem? hbyte)
      rw [hterm] at hnone
      cases hnone
  | some off =>
      rw [← hmode] at hfound
      exact h.passes_ne_nil hidx (by rw [hmode]; simp) hfound hempty

/-- The passes of a later chunk start from a terminator in it. -/
theorem later_passes (h : job.Unquoted endian acc) {k : ℕ} (hpos : 0 < k)
    (hidx : k < job.chunkCount) {pass : ResolvedPass (List Record)}
    (hmem : pass ∈ (job.processChunk k).passes) :
    (job.chunkStart k ≤ pass.recordStart ∧
      ∃ b, job.data[pass.recordStart]? = some b ∧ job.config.isTerminator b = true) ∧
      pass.recordStart ≤ job.chunkStop k ∧
      h.Reports pass.recordStart (job.chunkStop k) (job.processChunk k).recordEnd
        pass.result := by
  have hmode := findMode_later job.config hpos
  obtain ⟨off, hoff, hpass, hreports⟩ := h.processChunk_passes hidx (by rw [hmode]; simp) hmem
  rw [hmode] at hoff
  obtain ⟨hlt, hterm, -⟩ := List.findIdx?_eq_some_iff_getElem.mp hoff
  obtain ⟨b, hb, hterm⟩ : ∃ b, (job.chunkBytes (job.chunkStart k) (job.chunkStop k))[off]? =
      some b ∧ job.config.isTerminator b = true := ⟨_, List.getElem?_eq_getElem hlt, hterm⟩
  rw [chunkBytes, List.length_take] at hlt
  rw [chunkBytes, List.getElem?_take_of_lt (by omega), List.getElem?_drop, ← hpass] at hb
  exact ⟨⟨by omega, b, hb, hterm⟩, hreports⟩

/-- The result tells what the parse of the whole input comes to. -/
def Completes (h : job.Unquoted endian acc) : Except Error (List (List Record)) → Prop
  | .ok states => h.total = .ok states.flatten
  | .error _ => ∃ left, h.total = .error left

/-- From where it stands, the merge gets through the input. -/
theorem mergeLoop_completes (h : job.Unquoted endian acc) (n k : ℕ) (next : Option ℕ)
    (states : List (List Record)) (hpos : 0 < k) (hcount : k + n = job.chunkCount)
    (hstands : h.Stands (k * job.chunkSize) states.flatten next) :
    h.Completes (mergeLoop job.chunkSize job.reparseChunk
      ((List.range' k n).map job.processChunk) (k * job.chunkSize) next states) := by
  induction n generalizing k next states with
  | zero =>
      have hcover := le_chunkCount h.chunkSize
      rw [← hcount, Nat.add_zero] at hcover
      exact hstands.total_eq h hcover
  | succ n ih =>
      have hend : k * job.chunkSize + job.chunkSize = (k + 1) * job.chunkSize :=
        (Nat.succ_mul _ _).symm
      have hidx : k < job.chunkCount := by omega
      have hstop := chunkStop_eq job k
      have hskip : (∀ q b, next = some q → job.data[q]? = some b →
          job.config.isTerminator b = true → k * job.chunkSize ≤ q → (k + 1) * job.chunkSize ≤ q) →
          h.Completes (mergeLoop job.chunkSize job.reparseChunk
            ((List.range' (k + 1) n).map job.processChunk) ((k + 1) * job.chunkSize) next
              states) := fun hnext =>
        ih (k + 1) next states (by omega) (by omega) (hstands.skip h (by omega) hnext)
      have hmerge : ∀ {records recordEnd},
          h.Stands (job.chunkStop k) (states.flatten ++ records) recordEnd →
          h.Completes (mergeLoop job.chunkSize job.reparseChunk
            ((List.range' (k + 1) n).map job.processChunk) ((k + 1) * job.chunkSize) recordEnd
              (states ++ [records])) := by
        intro records recordEnd hstop
        refine ih (k + 1) recordEnd _ (by omega) (by omega) ?_
        rw [List.flatten_append, List.flatten_singleton]
        exact Stands.beyond h hstop
      rw [List.range'_succ, List.map_cons]
      simp only [mergeLoop, hend]
      split
      · rename_i hbeyond
        rw [Option.any_eq_true] at hbeyond
        obtain ⟨q, rfl, hlt⟩ := hbeyond
        refine hskip fun q' _ hq' _ _ _ => ?_
        cases hq'
        exact (of_decide_eq_true hlt).le
      · rename_i hwithin
        split
        · rename_i hempty
          -- a pending boundary in the chunk would have made for a pass
          exact hskip fun q b _ hb hterm hq =>
            h.le_of_passes_nil hpos hidx (List.isEmpty_iff.mp hempty) hb hterm hq
        · rename_i hpasses
          split
          · rename_i pass hfind
            have haligned := List.find?_some hfind
            obtain ⟨hterm, hle, hreports⟩ :=
              h.later_passes hpos hidx (List.mem_of_find?_eq_some hfind)
            have hboundary : next = some pass.recordStart ∨
                next = none ∧ k * job.chunkSize ≤ pass.recordStart ∧
                  ∃ b, job.data[pass.recordStart]? = some b ∧
                    job.config.isTerminator b = true := by
              cases next with
              | none => exact Or.inr ⟨rfl, hterm⟩
              | some q =>
                  simp only [Option.all_some, beq_iff_eq] at haligned
                  rw [haligned]
                  exact Or.inl rfl
            have hadvance := hstands.advance h hboundary hle pass.result hreports
            split
            · rename_i err hresult
              rw [hresult] at hadvance
              exact hadvance
            · rename_i records hresult
              rw [hresult] at hadvance
              exact hmerge hadvance
          · rename_i hfind
            split
            · rw [List.find?_eq_none] at hfind
              obtain ⟨pass, hmem⟩ := List.exists_mem_of_ne_nil _
                fun hnil => hpasses (List.isEmpty_iff.mpr hnil)
              exact absurd rfl (hfind pass hmem)
            · rename_i expected
              have hwithin' : expected ≤ (k + 1) * job.chunkSize := by simpa using hwithin
              have hexpected : expected ≤ min ((k + 1) * job.chunkSize) job.data.length :=
                le_min hwithin' hstands.1
              have hreports := h.reparseChunk_reports expected ((k + 1) * job.chunkSize) hexpected
              rw [← hstop] at hreports hexpected
              split
              · rename_i err hresult
                rw [hresult] at hreports
                exact hstands.advance h (Or.inl rfl) hexpected (.error err) hreports
              · rename_i records recordEnd hresult
                rw [hresult] at hreports
                exact hmerge (hstands.advance h (Or.inl rfl) hexpected (.ok records) hreports)

/-- A run without a header row gets through the input. -/
theorem runWith_completes (h : job.Unquoted endian acc)
    (hheaders : job.config.hasHeaders = false) : h.Completes job.runWith := by
  have hmode : findMode job.config 0 = .no := by
    rw [findMode, if_pos rfl, hheaders]
    rfl
  cases hcount : job.chunkCount with
  | zero =>
      have hcover := le_chunkCount h.chunkSize
      rw [hcount, Nat.zero_mul, Nat.le_zero, List.length_eq_zero_iff] at hcover
      rw [runWith_none fun idx hidx => by omega, Completes, total, hcover]
      rfl
  | succ n =>
      have hidx : 0 < job.chunkCount := by omega
      have hne := h.passes_ne_nil hidx (by rw [hmode]; simp)
        (show startIn _ _ _ = some 0 by rw [hmode]; rfl)
      obtain ⟨pass, passes, hpasses⟩ := List.exists_cons_of_ne_nil hne
      obtain ⟨off, hoff, hstart, hle, hreports⟩ := h.processChunk_passes hidx
        (by rw [hmode]; simp) (by rw [hpasses]; exact List.mem_cons_self)
      have hzero : pass.recordStart = 0 := by
        rw [hmode] at hoff
        cases hoff
        rw [hstart, chunkStart, Nat.zero_mul]
      rw [hzero] at hreports
      have hadvance := h.stands_of_reports (Nat.zero_le _) rfl (Nat.zero_le _) pass.result hreports
      have houtputs : job.outputs =
          job.processChunk 0 :: (List.range' 1 n).map job.processChunk := by
        rw [outputs, show divCeil job.data.length job.chunkSize = n + 1 from hcount,
          List.range_eq_range', List.range'_succ, List.map_cons]
      rw [runWith, houtputs, collectAndMerge]
      simp only [mergeLoop, hpasses, Option.any_none, Bool.false_eq_true, if_false,
        List.isEmpty_cons, List.find?_cons, Option.all_none, List.nil_append]
      cases hresult : pass.result with
      | error err =>
          rw [hresult] at hadvance
          exact hadvance
      | ok records =>
          rw [hresult] at hadvance
          have hloop := h.mergeLoop_completes n 1 (job.processChunk 0).recordEnd [records]
            Nat.one_pos (by omega) (by
              rw [List.flatten_singleton]
              exact Stands.beyond h hadvance)
          rw [Nat.one_mul] at hloop
          rw [Nat.zero_add]
          exact hloop

/-- The stream is the parse of the whole input. -/
theorem stream_total (h : job.Unquoted endian acc) (hfits : job.data.length ≤ usizeMax) :
    (job.stream .no).result.toOption = h.total.toOption := by
  have hparse := @parse_reading _ endian job.config h.distinct acc.accumulator
    (streamReader job.data (job.env .stream)) (h.reliable _) hfits [] .outOfQuotes
  rw [stream, h.parser, h.init, hparse, total, restFrom, List.drop_zero]
  rfl

theorem Completes.sameRecords (h : job.Unquoted endian acc) (hfits : job.data.length ≤ usizeMax)
    {result : Except Error (List (List Record))} (hresult : h.Completes result) :
    SameRecords result ((job.stream .no).result.map fun state => [state]) := by
  have hstream := h.stream_total hfits
  cases result with
  | error err =>
      obtain ⟨left, hleft⟩ := hresult
      rw [hleft] at hstream
      cases hout : (job.stream .no).result with
      | error err' => trivial
      | ok records =>
          rw [hout] at hstream
          cases hstream
  | ok states =>
      rw [show h.total = .ok states.flatten from hresult] at hstream
      cases hout : (job.stream .no).result with
      | error err' =>
          rw [hout] at hstream
          cases hstream
      | ok records =>
          rw [hout] at hstream
          cases hstream
          exact List.flatten_singleton.symm

end Unquoted

end Csveee.Scheduler.Job

namespace Csveee.Scheduler

open Dfa

/-- Without quotes, comments may straddle the chunks of a parallel run: it agrees with the
stream, and yields the lines that are neither blank nor comments. -/
theorem runSlice_comments (platform : Platform) (config : ValidConfig)
    (hquote : config.config.quote = none) {c : Byte} (hcomment : config.config.comment = some c)
    (hterm : config.config.terminator = .crlf ∨ config.config.terminator = .byte lineFeed)
    (hheaders : config.config.hasHeaders = false) (acc : RecordWise) (data : Input)
    (env : Environment) (hreliable : env.Reliable) :
    Job.SameRecords (runSlice platform config .bytes acc.accumulator [] data env)
        (runStream platform config .bytes acc.accumulator [] data env) ∧
      ∀ states, runSlice platform config .bytes acc.accumulator [] data env = .ok states →
        states.flatten = config.config.lineRecords data.bytes := by
  cases hbackend : resolveParserBackend config.config with
  | error reason =>
      simp only [runSlice, runStream, hbackend]
      exact ⟨trivial, fun states hfalse => by cases hfalse⟩
  | ok backend =>
      have hdfa : backend = .dfa := by
        cases backend with
        | dfa => rfl
        | simd =>
            have hs := Simd.supported_of_supports config.distinct (supports_of_resolve hbackend)
            rw [hs.comment] at hcomment
            cases hcomment
      subst hdfa
      have hfeed : config.config.isTerminator lineFeed = true := by
        rcases hterm with hterm | hterm <;> rw [Config.isTerminator, hterm] <;> rfl
      have h : (recordJob platform config acc data env .dfa).Unquoted platform.endian acc :=
        ⟨rfl, config.distinct, hquote, Config.endsComment_eq_isTerminator hfeed, rfl,
          resolveChunkSize_pos config.config .dfa, hreliable⟩
      have hcompletes := h.runWith_completes hheaders
      rw [runSlice_eq hbackend, runStream_eq hbackend, hheaders, if_neg Bool.false_ne_true]
      refine ⟨hcompletes.sameRecords h data.length_le_usizeMax, fun states hstates => ?_⟩
      rw [hstates] at hcompletes
      exact Reading.run_lineRecords config.distinct hquote platform.endian h.ends acc hcompletes

/-- Unquoted lines and comments, in chunks of three bytes. -/
def commented3 : ValidConfig where
  config := { Config.default with
    hasHeaders := false
    quote := none
    escape := none
    comment := some 35
    chunkSize := 3 }
  valid := by decide

/-- Comments longer than a chunk, two in a row and one up to the end of the input.  A chunk ends
between the carriage return and the line feed of the first. -/
def commentedLines : Input :=
  ⟨[97, 13, 10, 35, 120, 44, 121, 122, 13, 10, 35, 13, 10, 98, 44, 99, 13, 10, 35, 122, 122, 122,
    122, 122], by decide⟩

/-- The two records come out, and nothing of the comments. -/
theorem runSlice_comments_straddling :
    ∃ states, runSlice scalarPlatform commented3 .bytes RecordWise.acceptAll.accumulator []
        commentedLines exactReaders = .ok states ∧
      states.flatten = [[[97]], [[98], [99]]] := by
  obtain ⟨hsame, hlines⟩ := runSlice_comments scalarPlatform commented3 rfl rfl (Or.inl rfl) rfl
    RecordWise.acceptAll commentedLines exactReaders reliable_exactReaders
  have hstream : runStream scalarPlatform commented3 .bytes RecordWise.acceptAll.accumulator []
      commentedLines exactReaders = .ok [[[[97]], [[98], [99]]]] := by
    decide +kernel
  cases hslice : runSlice scalarPlatform commented3 .bytes RecordWise.acceptAll.accumulator []
      commentedLines exactReaders with
  | error err =>
      rw [hslice, hstream] at hsame
      exact hsame.elim
  | ok states =>
      refine ⟨states, rfl, ?_⟩
      rw [hlines states hslice]
      decide

end Csveee.Scheduler
