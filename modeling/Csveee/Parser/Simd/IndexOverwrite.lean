import Csveee.Parser.Simd.Assembly
import Csveee.Parser.Simd.IndexFinish
import Csveee.Parser.Simd.Overwrite

/-!
# The index stepper over overwritten fields

Whatever the stepper reads of its buffer lies behind the records it has handed out: the walk
over a terminator run, the walk that places an error, the bytes of a field, and at the end of
the text the byte in front of the open field, which no field takes in.
-/

namespace Csveee.Simd

open Positions Slice

variable {σ : Type}

/-! ## Walks over the buffer -/

section Walks

variable {buf buf' : Bytes} {start : ℕ} (hsame : SameOn (fun i => start ≤ i) buf buf')

include hsame

theorem locateBadRecord_alike (n : ℕ) (delim term : Byte) (termB quote : Option Byte) :
    locateBadRecord buf' start n delim term termB quote =
      locateBadRecord buf start n delim term termB quote := by
  have hdrop : buf'.drop (min start buf.length) = buf.drop (min start buf.length) := by
    rcases Nat.le_total start buf.length with hle | hge
    · rw [min_eq_left hle]
      apply List.ext_getElem?
      intro i
      rw [List.getElem?_drop, List.getElem?_drop]
      exact hsame.values _ (Nat.le_add_right _ _)
    · rw [min_eq_right hge, List.drop_length, ← hsame.length, List.drop_length]
  rw [locateBadRecord, locateBadRecord, hsame.length]
  simp only [hdrop]

theorem runLength_alike (p : Byte → Bool) {i : ℕ} (hi : start ≤ i) (limit : ℕ) :
    runLength p buf' i limit = runLength p buf i limit := by
  rw [runLength, runLength, hsame.slice fun k hk _ => hi.trans hk]

theorem termOf_alike (isTerm : Byte → Bool) (resolvedEnd walkCap : ℕ) {e : ℕ} (he : start ≤ e) :
    termOf isTerm buf' resolvedEnd walkCap e = termOf isTerm buf resolvedEnd walkCap e := by
  rw [termOf, termOf]
  simp only [runLength_alike hsame _ he, runLength_alike hsame _
    (show start ≤ e + runLength (fun c => !isTerm c) buf e resolvedEnd + 1 by omega)]

end Walks

theorem lastResolved_alike {resolve resolve' : ℕ → Option (ℕ × Option ℕ)} (avail : ℕ)
    (h : ∀ k, 1 ≤ k → k ≤ avail → resolve' k = resolve k) :
    lastResolved resolve' avail = lastResolved resolve avail := by
  induction avail with
  | zero => rfl
  | succ avail ih =>
      rw [lastResolved, lastResolved, h _ (Nat.succ_pos _) le_rfl,
        ih fun k hk hle => h k hk (Nat.le_succ_of_le hle)]

theorem recordsBefore_alike {ends ends' : ℕ → Bool} (fuel k : ℕ)
    (h : ∀ i, k < i → i ≤ k + fuel → ends' i = ends i) :
    recordsBefore ends' fuel k = recordsBefore ends fuel k := by
  induction fuel generalizing k with
  | zero => rfl
  | succ fuel ih =>
      rw [recordsBefore, recordsBefore, h (k + 1) (Nat.lt_succ_self k) (by omega),
        ih (k + 1) fun i hi hle => h i (by omega) (by omega)]

/-- A last record that does not end before the boundary is not counted. -/
theorem recordsBefore_lt {ends : ℕ → Bool} {avail : ℕ} (hpos : 1 ≤ avail)
    (hlast : ends avail = false) : recordsBefore ends avail 0 < avail := by
  obtain ⟨-, hle, hall, -⟩ := recordsBefore_spec ends avail 0
  by_contra hge
  have hends := hall (avail - 1) (Nat.zero_le _) (by omega)
  rw [Nat.sub_add_cancel hpos, hlast] at hends
  cases hends

/-! ## Emission -/

section Emission

variable {acc acc' : Accumulator σ} (hverdicts : acc.SameVerdicts acc')

include hverdicts

theorem handAll_alike (records : List Record) (state : σ) :
    handAll acc' records state = handAll acc records state := by
  induction records generalizing state with
  | nil => rfl
  | cons record records ih =>
      obtain ⟨hstate, hresult⟩ := hverdicts state record
      rw [handAll, handAll, hstate, hresult]
      simp only [ih]

/-- Assembly hands out the same records, whatever is left behind of them. -/
theorem assembleRecordsFixed_alike {n : ℕ} (hn : 1 ≤ n) (count : ℕ) {buf buf' : Bytes}
    {fields : List (ℕ × ℕ)} {rOffs : List ℕ} (htotal : count * n ≤ fields.length)
    (hordered : Ordered buf.length 0 fields) (hsorted : rOffs.Pairwise (· < ·))
    (hsame : SameOn (InFields fields) buf buf') (state : σ) :
    (assembleRecordsFixed acc' n count buf' fields rOffs state).2 =
      (assembleRecordsFixed acc n count buf fields rOffs state).2 := by
  have hordered' : Ordered buf'.length 0 fields := by
    rw [hsame.length]
    exact hordered
  have hleft := (assembleRecordsFixed_exact acc hn count buf fields rOffs htotal hordered hsorted
    state).1
  have hright := (assembleRecordsFixed_exact acc' hn count buf' fields rOffs htotal hordered'
    hsorted state).1
  have hcut : cutRecords buf' rOffs (recordsAt n count fields) =
      cutRecords buf rOffs (recordsAt n count fields) := by
    apply List.map_congr_left
    intro others hothers
    apply List.map_congr_left
    intro field hfield
    have hmem : field ∈ fields := by
      have hthere := List.mem_flatten_of_mem hothers hfield
      rw [flatten_recordsAt] at hthere
      exact List.mem_of_mem_take hthere
    exact cutBytes_congr (fun i hlo hhi => hsame.values i ⟨field, hmem, hlo, hhi⟩)
      fun _ _ _ => Iff.rfl
  rw [hright, hcut, handAll_alike hverdicts, ← hleft]

end Emission

namespace Body

variable {body : Body σ} {acc : Accumulator σ} {origin lo upTo : ℕ} {rest : List Cell}
  {w : Flush SimdIndexStepper σ} {buf : Bytes}

/-- The records at hand are cut alike from another buffer that shows the text. -/
theorem Waiting.assemble_alike (h : body.Waiting origin lo upTo rest w)
    (hverdicts : body.acc.SameVerdicts acc) {count : ℕ}
    (hcount : count * body.n ≤ w.st.eOffs.length - w.head)
    (hfits : ∀ cell ∈ body.finished upTo rest, body.marks.fin cell ≤ origin + w.buf.length)
    (hlo : lo ≤ origin + w.buf.length) (hshows : body.Shows origin lo buf)
    (hlength : buf.length = w.buf.length) :
    (assembleRecordsFixed acc body.n count buf
        ((w.st.bOffs.drop w.head).zip (w.st.eOffs.drop w.head)) (w.st.rOffs.drop w.rHead)
        w.state).2 =
      (assembleRecordsFixed body.acc body.n count w.buf
        ((w.st.bOffs.drop w.head).zip (w.st.eOffs.drop w.head)) (w.st.rOffs.drop w.rHead)
        w.state).2 := by
  have horigin := h.shows.origin_le
  obtain ⟨more, hbegins⟩ := h.begins
  have hends := congrArg List.length h.ends
  rw [List.length_drop, List.length_map] at hends
  obtain ⟨tail, htail⟩ : body.finished upTo rest <+: rest := List.takeWhile_prefix _
  have hordered := ordered_fields (htail.symm ▸ h.handed.chain) horigin hlo hfits
  rw [hbegins, h.ends, zip_map_append]
  apply assembleRecordsFixed_alike hverdicts body.n_pos.1
  · rw [List.length_map]
    omega
  · generalize (body.finished upTo rest).map
      (fun cell => (body.beginAt origin cell, body.finAt origin cell)) = fields at hordered
    cases fields with
    | nil => exact Nat.zero_le _
    | cons field fields => exact ⟨Nat.zero_le _, hordered.2⟩
  · rw [h.removals]
    exact pairwise_removals horigin
  · refine (h.shows.sameOn hshows hlength).mono fun i hin => ?_
    obtain ⟨field, hfield, hfirst, -⟩ := hin
    have hle := (hordered.mem hfield).1
    omega

/-- Handing out what is at hand comes to the same. -/
theorem Waiting.emitPending_alike (h : body.Waiting origin lo upTo rest w)
    (hverdicts : body.acc.SameVerdicts acc) {count : ℕ}
    (hcount : count * body.n ≤ w.st.eOffs.length - w.head)
    (hfits : ∀ cell ∈ body.finished upTo rest, body.marks.fin cell ≤ origin + w.buf.length)
    (hlo : lo ≤ origin + w.buf.length) (hshows : body.Shows origin lo buf)
    (hlength : buf.length = w.buf.length) (totalConsumed remaining : ℕ) (stop : Bool)
    (run : ℕ × Option ℕ) :
    ∃ buf', SimdIndexStepper.emitPending acc totalConsumed remaining count stop run
        { w with buf := buf } =
      ({ (SimdIndexStepper.emitPending body.acc totalConsumed remaining count stop run w).1 with
          buf := buf' },
        (SimdIndexStepper.emitPending body.acc totalConsumed remaining count stop run w).2) := by
  have hassemble := h.assemble_alike hverdicts hcount hfits hlo hshows hlength
  rw [SimdIndexStepper.emitPending, SimdIndexStepper.emitPending]
  simp only [h.count]
  generalize assembleRecordsFixed acc body.n count buf _ _ w.state = right at hassemble
  generalize assembleRecordsFixed body.acc body.n count w.buf _ _ w.state = left at hassemble
  obtain ⟨buf₁, state₁, result₁⟩ := left
  obtain ⟨buf₂, state₂, result₂⟩ := right
  obtain ⟨rfl, rfl⟩ := Prod.mk.inj hassemble
  cases result₂ <;> exact ⟨buf₂, rfl⟩

/-- The offset of a field's end at hand lies behind what is handed out. -/
theorem Waiting.lo_le_end (h : body.Waiting origin lo upTo rest w) {i : ℕ}
    (hi : i < w.st.eOffs.length - w.head) : lo ≤ origin + w.st.eOffs.getD (w.head + i) 0 := by
  have hends := congrArg List.length h.ends
  rw [List.length_drop, List.length_map] at hends
  have hget := List.getElem?_eq_getElem (show i < (body.finished upTo rest).length by omega)
  have hmem := (List.takeWhile_sublist _).mem (List.getElem_mem
    (show i < (body.finished upTo rest).length by omega))
  obtain ⟨hat, hle⟩ := h.handed.chain.cellAt hmem
  have hfin := (hat.fin_le body.proper).2
  have horigin := h.shows.origin_le
  rw [h.getD_eOffs hget, finAt]
  omega

/-- The run of a record ends before the boundary. -/
def endsBefore (remaining : ℕ) : Option (ℕ × Option ℕ) → Bool
  | some (_, some end_) => decide (end_ < remaining)
  | _ => false

/-- A flush comes to the same. -/
theorem Waiting.flush_alike (h : body.Waiting origin lo upTo rest w)
    (hverdicts : body.acc.SameVerdicts acc) (hlo : lo ≤ upTo)
    (hbuf : upTo ≤ origin + w.buf.length) (hshows : body.Shows origin lo buf)
    (hlength : buf.length = w.buf.length) (resolvedEnd remaining totalConsumed : ℕ) :
    ∃ buf', SimdIndexStepper.flushRecords acc resolvedEnd remaining totalConsumed
        { w with buf := buf } =
      ({ (SimdIndexStepper.flushRecords body.acc resolvedEnd remaining totalConsumed w).1 with
          buf := buf' },
        (SimdIndexStepper.flushRecords body.acc resolvedEnd remaining totalConsumed w).2) := by
  have hn := body.n_pos
  have horigin := h.shows.origin_le
  have hemit : ∀ count, count ≤ (w.st.eOffs.length - w.head) / body.n → ∀ stop run, ∃ buf',
      SimdIndexStepper.emitPending acc totalConsumed remaining count stop run
        { w with buf := buf } =
      ({ (SimdIndexStepper.emitPending body.acc totalConsumed remaining count stop run w).1 with
          buf := buf' },
        (SimdIndexStepper.emitPending body.acc totalConsumed remaining count stop run w).2) := by
    intro count hcount stop run
    refine h.emitPending_alike hverdicts ((Nat.le_div_iff_mul_le (by omega)).mp hcount)
      (fun cell hcell => ?_) (hlo.trans hbuf) hshows hlength _ _ _ _
    have hfin := mem_finished hcell
    omega
  have hsame : SameOn (fun i => lo - origin ≤ i) w.buf buf :=
    (h.shows.sameOn hshows hlength).mono fun i hi => by omega
  obtain ⟨resolve, hresolve⟩ : ∃ resolve : ℕ → Option (ℕ × Option ℕ), ∀ records,
      termOf w.st.scannerConfig.isTerm w.buf resolvedEnd (min resolvedEnd (remaining + 1))
        (w.st.eOffs.getD (w.head + records * body.n - 1) 0) = resolve records := ⟨_, fun _ => rfl⟩
  obtain ⟨resolve', hresolve'⟩ : ∃ resolve' : ℕ → Option (ℕ × Option ℕ), ∀ records,
      termOf w.st.scannerConfig.isTerm buf resolvedEnd (min resolvedEnd (remaining + 1))
        (w.st.eOffs.getD (w.head + records * body.n - 1) 0) = resolve' records := ⟨_, fun _ => rfl⟩
  have halike : ∀ k, 1 ≤ k → k ≤ (w.st.eOffs.length - w.head) / body.n →
      resolve' k = resolve k := by
    intro k hk hle
    have hmul := (Nat.le_div_iff_mul_le (by omega)).mp hle
    have hpos : 1 ≤ k * body.n := Nat.mul_pos hk hn.1
    have hend := h.lo_le_end (show k * body.n - 1 < w.st.eOffs.length - w.head by omega)
    rw [← Nat.add_sub_assoc hpos] at hend
    rw [← hresolve, ← hresolve', termOf_alike hsame _ _ _ (by omega)]
  rw [SimdIndexStepper.flushRecords, SimdIndexStepper.flushRecords]
  simp only [h.count, hresolve, hresolve', lastResolved_alike _ halike]
  cases hlast : lastResolved resolve ((w.st.eOffs.length - w.head) / body.n) with
  | none => exact ⟨buf, rfl⟩
  | some found =>
      obtain ⟨avail, last⟩ := found
      obtain ⟨hpos, hle, hfound⟩ := lastResolved_spec hlast
      simp only
      by_cases hzero : remaining = 0
      · simp only [if_pos hzero, halike 1 le_rfl (hpos.trans hle)]
        exact hemit 1 (hpos.trans hle) _ _
      · simp only [if_neg hzero]
        by_cases hall : (last.2.any fun end_ => decide (end_ < remaining)) = true
        · simp only [if_pos hall, ne_eq, not_true_eq_false, if_false]
          exact hemit avail hle _ _
        · have hbefore := fun (k : ℕ) (hk : 1 ≤ k) (hk' : k ≤ avail) =>
            halike k hk (hk'.trans hle)
          have hends : ∀ k, 1 ≤ k → k ≤ avail → endsBefore remaining (resolve' k) =
              endsBefore remaining (resolve k) := fun k hk hk' => by rw [hbefore k hk hk']
          have hcounted := @recordsBefore_alike (fun k => endsBefore remaining (resolve k))
            (fun k => endsBefore remaining (resolve' k)) avail 0 fun i hi hi' =>
              hends i hi (by omega)
          have hlt := @recordsBefore_lt (fun k => endsBefore remaining (resolve k)) avail hpos (by
            simp only [hfound]
            obtain ⟨start, _ | end_⟩ := last
            · rfl
            · exact Bool.eq_false_of_not_eq_true hall)
          simp only [if_neg hall]
          change ∃ buf', SimdIndexStepper.emitPending acc totalConsumed remaining
            (recordsBefore (fun k => endsBefore remaining (resolve' k)) avail 0 + 1) true
            (if recordsBefore (fun k => endsBefore remaining (resolve' k)) avail 0 + 1 ≠ avail then
              (resolve' (recordsBefore (fun k => endsBefore remaining (resolve' k)) avail 0 +
                1)).getD last else last) _ = _
          rw [hcounted, hbefore _ (Nat.succ_pos _) hlt]
          exact hemit _ (hlt.trans_le hle) _ _

/-! ## Vector by vector -/

variable {ctx : StepCtx} {head j cursor : ℕ}

theorem StepAt.withAcc (hctx : body.StepAt origin ctx) (hverdicts : body.acc.SameVerdicts acc) :
    (body.withAcc hverdicts).StepAt origin ctx :=
  ⟨hctx.total, hctx.remaining, hctx.valid, hctx.within, hctx.view⟩

theorem Waiting.withAcc (h : body.Waiting origin lo upTo rest w)
    (hverdicts : body.acc.SameVerdicts acc) (hshows : body.Shows origin lo buf) :
    (body.withAcc hverdicts).Waiting origin lo upTo rest { w with buf := buf } :=
  ⟨h.scannerConfig, h.count, h.start, hshows.withAcc hverdicts, h.handed.withAcc hverdicts,
    h.heads, h.begins, h.ends, h.removals⟩

theorem Extracted.withAcc (h : body.Extracted origin lo upTo rest w)
    (hverdicts : body.acc.SameVerdicts acc) (hshows : body.Shows origin lo buf) :
    (body.withAcc hverdicts).Extracted origin lo upTo rest { w with buf := buf } :=
  ⟨h.waiting.withAcc hverdicts hshows, h.lo_le, h.begins, h.phase⟩

/-- What two runs have in common between two vectors. -/
structure TracksAlike (body : Body σ) (head origin j lo : ℕ) (rest : List Cell)
    (w : Flush SimdIndexStepper σ) (buf : Bytes) : Prop where
  tracks : body.Tracks head origin j lo rest w
  shows : body.Shows origin lo buf
  length : buf.length = w.buf.length

/-- A flush, and where both runs stand behind it. -/
theorem Extracted.flush_alike (h : body.Extracted origin lo upTo rest w)
    (hverdicts : body.acc.SameVerdicts acc) (hctx : body.StepAt origin ctx)
    (hupTo : upTo ≤ origin + ctx.scanEnd) (hbuf : w.buf.length = ctx.buf.length)
    (hshows : body.Shows origin lo buf) (hlength : buf.length = w.buf.length) :
    ∃ buf', SimdIndexStepper.flushRecords acc (upTo - origin) ctx.remainingInChunk
        ctx.totalConsumed { w with buf := buf } =
      ({ (SimdIndexStepper.flushRecords body.acc (upTo - origin) ctx.remainingInChunk
            ctx.totalConsumed w).1 with buf := buf' },
        (SimdIndexStepper.flushRecords body.acc (upTo - origin) ctx.remainingInChunk
          ctx.totalConsumed w).2) ∧
      ∀ w', SimdIndexStepper.flushRecords body.acc (upTo - origin) ctx.remainingInChunk
          ctx.totalConsumed w = (w', .ok none) →
        ∃ lo' rest', body.Extracted origin lo' upTo rest' w' ∧ w'.st.scanner = w.st.scanner ∧
          SameFlags w w' ∧ body.Shows origin lo' buf' ∧ buf'.length = w'.buf.length := by
  have hview := hctx.view
  obtain ⟨buf', halike⟩ := h.waiting.flush_alike hverdicts h.lo_le (by omega) hshows hlength
    (upTo - origin) ctx.remainingInChunk ctx.totalConsumed
  refine ⟨buf', halike, fun w' hflushed => ?_⟩
  have hleft := h.flush hctx hupTo hbuf
  have hright := (h.withAcc hverdicts hshows).flush (hctx.withAcc hverdicts) hupTo
    (hlength.trans hbuf)
  rw [hflushed] at hleft
  rw [show (body.withAcc hverdicts).acc = acc from rfl, halike, hflushed] at hright
  obtain ⟨lo', rest', -, hextracted, hscanner, hflags⟩ := hleft
  obtain ⟨lo'', rest'', -, hextracted', -, hflags'⟩ := hright
  have hstart := hextracted.waiting.start
  have hstart' := hextracted'.waiting.start
  simp only at hstart'
  have hthere := hextracted'.waiting.shows.ofAcc
  rw [show lo'' = lo' by omega] at hthere
  refine ⟨lo', rest', hextracted, hscanner, hflags, hthere, ?_⟩
  have hsize := hflags'.length
  rw [hflags.length]
  exact hsize.trans hlength

theorem publish_alike {st : SimdIndexStepper} {view view' : Bytes}
    (hsame : SameOn (fun i => st.recordBufStart ≤ i) view view') (out : Option VectorOutput)
    (base : ℤ) (totalConsumed : ℕ) :
    SimdIndexStepper.publish st out base view' totalConsumed =
      SimdIndexStepper.publish st out base view totalConsumed := by
  cases out with
  | none => rfl
  | some out =>
      rw [SimdIndexStepper.publish, SimdIndexStepper.publish]
      simp only [SimdIndexStepper.arityError, locateBadRecord_alike hsame]

theorem TracksAlike.sameOn (h : body.TracksAlike head origin j lo rest w buf) :
    SameOn (fun i => w.st.recordBufStart ≤ i) w.buf buf := by
  have hstart := h.tracks.extracted.waiting.start
  exact (h.tracks.extracted.waiting.shows.sameOn h.shows h.length).mono fun i hi => by omega

theorem vectorLoop_alike (hverdicts : body.acc.SameVerdicts acc) (hctx : body.StepAt origin ctx)
    (other : Bytes) (fuel : ℕ) (h : body.TracksAlike head origin j lo rest w buf)
    (hj : 64 * j = head + origin + cursor) (hbuf : w.buf.length = ctx.buf.length)
    (hcursor : cursor ≤ ctx.scanEnd) :
    ∃ buf', SimdIndexStepper.vectorLoop acc { ctx with buf := other } fuel cursor
        { w with buf := buf } =
      ((SimdIndexStepper.vectorLoop body.acc ctx fuel cursor w).1,
        { (SimdIndexStepper.vectorLoop body.acc ctx fuel cursor w).2.1 with buf := buf' },
        (SimdIndexStepper.vectorLoop body.acc ctx fuel cursor w).2.2) ∧
      ∀ cursor' w', SimdIndexStepper.vectorLoop body.acc ctx fuel cursor w = (cursor', w', none) →
        ∃ j' lo' rest', body.TracksAlike head origin j' lo' rest' w' buf' ∧
          64 * j' = head + origin + cursor' ∧ cursor' ≤ ctx.scanEnd ∧
          w'.buf.length = ctx.buf.length := by
  induction fuel generalizing cursor j lo rest w buf with
  | zero =>
      refine ⟨buf, rfl, fun cursor' w' hdone => ?_⟩
      cases hdone
      exact ⟨j, lo, rest, h, hj, hcursor, hbuf⟩
  | succ fuel ih =>
      have hview := hctx.view
      have htracks := h.tracks
      have hshows := htracks.extracted.waiting.shows
      have hstart := htracks.extracted.waiting.start
      have hlo := htracks.extracted.lo_le
      have hfrontier : frontier head (j + 1) = origin + cursor := by
        rw [frontier]
        omega
      rw [frontier] at hlo
      have hsame := h.sameOn
      have hread : slice buf cursor 64 = slice w.buf cursor 64 :=
        hsame.slice fun i hi _ => show w.st.recordBufStart ≤ i by omega
      have hverified := fun (scanner : Scanner) out base => @publish_alike
        { w.st with scanner := scanner } _ _ (hsame.take ctx.scanEnd) out base ctx.totalConsumed
      rw [SimdIndexStepper.vectorLoop, SimdIndexStepper.vectorLoop, vectorBytes]
      simp only [hread, hverified]
      split_ifs with hroom
      · have hpublish := htracks.publish (reads_slice hj hshows (by omega) (by omega))
          (show (cursor : ℤ) - 64 = 64 * ((j : ℤ) - 1) - head - origin by omega)
          (hshows.take ctx.scanEnd) (Or.inl (by rw [hfrontier, List.length_take]; omega))
        rw [← hctx.total] at hpublish
        simp only [Nat.cast_ofNat]
        generalize SimdIndexStepper.publish { w.st with scanner := _ } _ _ _ _ = published
          at hpublish ⊢
        cases published with
        | error err => exact ⟨buf, rfl, fun _ _ hdone => by cases hdone⟩
        | ok st =>
            obtain ⟨htracks', hflags⟩ := hpublish
            have hlater : body.TracksAlike head origin (j + 1) lo rest { w with st := st } buf :=
              ⟨htracks', h.shows, h.length⟩
            simp only
            split_ifs with hfew
            · exact ih hlater (by omega) hbuf hroom
            · have hflush := htracks'.extracted.flush_alike hverdicts hctx
                (by rw [hfrontier]; omega) hbuf h.shows h.length
              rw [hfrontier, Nat.add_sub_cancel_left] at hflush
              rw [Nat.add_sub_cancel]
              obtain ⟨buf', halike, hmore⟩ := hflush
              simp only at halike
              rw [halike]
              generalize SimdIndexStepper.flushRecords body.acc cursor ctx.remainingInChunk
                ctx.totalConsumed { w with st := st } = flushed at hmore
              obtain ⟨w', err | _ | end_⟩ := flushed
              · exact ⟨buf', rfl, fun _ _ hdone => by cases hdone⟩
              · obtain ⟨lo', rest', hextracted, hscanner, hflags', hshows', hlength'⟩ :=
                  hmore w' rfl
                have htracks'' : body.Tracks head origin (j + 1) lo' rest' w' :=
                  ⟨by rw [hfrontier]; exact hextracted, hscanner.trans htracks'.scanner⟩
                have hbuf' : w'.buf.length = ctx.buf.length := hflags'.length.trans hbuf
                simp only
                split_ifs with hcompact
                · exact ih ⟨htracks''.dropPrefix, hshows', hlength'⟩ (by omega) hbuf' hroom
                · exact ih ⟨htracks'', hshows', hlength'⟩ (by omega) hbuf' hroom
              · exact ⟨buf', rfl, fun _ _ hdone => by cases hdone⟩
      · refine ⟨buf, rfl, fun cursor' w' hdone => ?_⟩
        cases hdone
        exact ⟨j, lo, rest, h, hj, hcursor, hbuf⟩

theorem finalFlush_alike (hverdicts : body.acc.SameVerdicts acc) (hctx : body.StepAt origin ctx)
    (other : Bytes) (h : body.TracksAlike head origin j lo rest w buf)
    (hj : 64 * j = head + origin + cursor) (hbuf : w.buf.length = ctx.buf.length)
    (hcursor : cursor ≤ ctx.scanEnd) :
    ∃ buf', SimdIndexStepper.finalFlush acc { ctx with buf := other } cursor
        { w with buf := buf } =
      ({ (SimdIndexStepper.finalFlush body.acc ctx cursor w).1 with buf := buf' },
        (SimdIndexStepper.finalFlush body.acc ctx cursor w).2) := by
  rw [SimdIndexStepper.finalFlush, SimdIndexStepper.finalFlush, vectorBytes]
  simp only
  split_ifs with hready
  · have hfrontier : frontier head j = origin + (cursor - 64) := by
      rw [frontier]
      omega
    obtain ⟨buf', halike, -⟩ := h.tracks.extracted.flush_alike hverdicts hctx
      (by rw [hfrontier]; omega) hbuf h.shows h.length
    rw [hfrontier, Nat.add_sub_cancel_left] at halike
    exact ⟨buf', halike⟩
  · exact ⟨buf, rfl⟩

/-- The prologue reads the text's first bytes, before anything is handed out. -/
theorem prologue_alike {st : SimdIndexStepper} {state : σ}
    (h : body.Tracks head origin j lo rest ⟨st, ctx.buf, 0, 0, state⟩)
    (haligned : st.needsAlignPrologue = true → head = 0 ∧ origin = 0 ∧ j = 0)
    (hshows : body.Shows origin lo buf) (hlength : buf.length = ctx.buf.length) :
    SimdIndexStepper.prologue st { ctx with buf := buf } = SimdIndexStepper.prologue st ctx := by
  rw [SimdIndexStepper.prologue, SimdIndexStepper.prologue]
  by_cases hneeds : st.needsAlignPrologue = true ∧ ctx.scanStart = 0
  · obtain ⟨rfl, rfl, rfl⟩ := haligned hneeds.1
    have hlo : lo ≤ 0 := h.extracted.lo_le
    have hsame := h.extracted.waiting.shows.sameOn hshows hlength
    have hbuf : buf = ctx.buf := List.ext_getElem? fun i => hsame.values i (by omega)
    rw [hbuf]
  · rw [if_neg hneeds, if_neg hneeds]

/-- A step comes to the same, but for the bytes it leaves behind. -/
theorem step_alike (hverdicts : body.acc.SameVerdicts acc) (hctx : body.StepAt origin ctx)
    {st : SimdIndexStepper} {state : σ} {scanned : ℕ}
    (h : body.Rests origin lo ctx.scanStart scanned st ctx.buf state)
    (hscanned : scanned < ctx.scanEnd) (hshows : body.Shows origin lo buf)
    (hlength : buf.length = ctx.buf.length) :
    ∃ buf', SimdIndexStepper.step acc st { ctx with buf := buf } state =
      { SimdIndexStepper.step body.acc st ctx state with buf := buf' } := by
  obtain ⟨head, j, rest, htracks, hj, haligned⟩ := h.tracks
  have hstart := h.resume_le
  obtain ⟨-, hflagA⟩ := armed_flags st
  rw [← hflagA] at haligned
  obtain ⟨head', j', hprologue, hj', hle, -⟩ := prologue_spec hctx htracks hj (by omega) haligned
  have halike := prologue_alike htracks haligned hshows hlength
  rw [SimdIndexStepper.step, SimdIndexStepper.step]
  simp only
  rw [← armed, halike]
  generalize SimdIndexStepper.prologue (armed st) ctx = entered at hprologue hj' hle
  obtain ⟨st', cursor⟩ := entered
  simp only at hprologue hj' hle ⊢
  obtain ⟨buf', hlooped, hmore⟩ := vectorLoop_alike hverdicts hctx buf (ctx.scanEnd - cursor)
    ⟨hprologue, hshows, hlength⟩ hj' rfl hle
  simp only at hlooped
  rw [hlooped]
  generalize SimdIndexStepper.vectorLoop body.acc ctx (ctx.scanEnd - cursor) cursor
    ⟨st', ctx.buf, 0, 0, state⟩ = looped at hmore
  obtain ⟨cursor', w, _ | result⟩ := looped
  · obtain ⟨j'', lo', rest', hthere, hj'', hcursor, hbuf⟩ := hmore cursor' w rfl
    obtain ⟨buf'', hflush⟩ := finalFlush_alike hverdicts hctx buf hthere hj'' hbuf hcursor
    simp only
    rw [hflush]
    obtain ⟨w', err | _ | end_⟩ := SimdIndexStepper.finalFlush body.acc ctx cursor' w
    · exact ⟨buf'', rfl⟩
    · exact ⟨buf'', rfl⟩
    · exact ⟨buf'', rfl⟩
  · exact ⟨buf', rfl⟩

end Body

end Csveee.Simd
