import Csveee.Parser.Simd.Drive
import Csveee.Parser.Simd.IndexStepper

/-!
# Feeding a text in vectors

A step feeds the text vector by vector, behind as much padding as puts the vectors on
boundaries; `finalize` feeds what is left, with a terminator spliced in unless the text
ends on one, and padding behind it.
-/

namespace Csveee.Simd

open Positions Slice

variable {σ : Type}

namespace Body

variable {body : Body σ} {origin lo upTo head j cursor : ℕ} {rest : List Cell} {buf : Bytes}
  {ctx : StepCtx}

/-- The padding in front of the text. -/
def padding (body : Body σ) (head : ℕ) : Bytes :=
  let cfg := scannerConfigOf body.config
  List.replicate head (neutralPad cfg.delim cfg.term cfg.termB cfg.quote)

theorem neutral_padding : ∀ c ∈ body.padding head, (scannerConfigOf body.config).Neutral c := by
  intro c hc
  rw [List.eq_of_mem_replicate hc]
  exact neutral_neutralPad _

theorem length_padding : (body.padding head).length = head := List.length_replicate

/-- The vector is the next of the padded text's. -/
def Reads (body : Body σ) (head j : ℕ) (v : Bytes) : Prop :=
  Scanner.Reads (scannerConfigOf body.config)
    (.of (scannerConfigOf body.config) (body.padding head ++ body.ended)) j v

/-- Up to where the vectors are resolved. -/
def frontier (head j : ℕ) : ℕ := 64 * (j - 1) - head

theorem reads_slice (hj : 64 * j = head + origin + cursor) (hshows : body.Shows origin lo buf)
    (hlo : lo ≤ origin + cursor) (hview : cursor + 64 ≤ buf.length) :
    body.Reads head j (slice buf cursor 64) := by
  refine Scanner.reads_vector _ fun i hi => ?_
  have hthere := hshows.getElem?_ended (i := origin + cursor + i) (by omega) (by omega)
  rw [slice, List.getElem?_take_of_lt hi, List.getElem?_drop,
    List.getElem?_append_right (by rw [length_padding]; omega), length_padding,
    show 64 * j + i - head = origin + cursor + i by omega, ← hthere]
  congr 1
  omega

/-- The bytes behind the padding of the first vector are the text's. -/
theorem reads_headPadded {misalign : ℕ} (hshows : body.Shows 0 0 buf) (hmisalign : misalign ≤ 64)
    (hview : 64 - misalign ≤ buf.length) :
    body.Reads misalign 0 (body.padding misalign ++ buf.take (64 - misalign)) := by
  refine Scanner.reads_vector _ fun i hi => ?_
  rw [Nat.mul_zero, Nat.zero_add]
  rcases Nat.lt_or_ge i misalign with hlt | hge
  · rw [List.getElem?_append_left (by rw [length_padding]; exact hlt),
      List.getElem?_append_left (by rw [length_padding]; exact hlt)]
  · have hthere := hshows.getElem?_ended (i := i - misalign) (Nat.zero_le _) (by omega)
    rw [List.getElem?_append_right (by rw [length_padding]; exact hge),
      List.getElem?_append_right (by rw [length_padding]; exact hge), length_padding,
      List.getElem?_take_of_lt (by omega), ← hthere]
    rfl

theorem headPaddedPrologue_vector {buf v : Bytes} {misalign misalign' scanEnd : ℕ} {pad : Byte}
    (h : headPaddedPrologue buf misalign scanEnd pad = .vector v misalign') :
    misalign' = misalign ∧ v = List.replicate misalign pad ++ buf.take (64 - misalign) ∧
      64 - misalign + 64 ≤ scanEnd := by
  rw [headPaddedPrologue] at h
  split at h
  · cases h
  · simp only at h
    split at h
    · cases h
    · rename_i hlong
      cases h
      rw [vectorBytes] at hlong
      exact ⟨rfl, rfl, by omega⟩

theorem kinds_eq (hchain : body.marks.Chain lo rest) :
    (positions body.marks.dStruct lo upTo).map body.marks.runEnd =
      (rest.takeWhile fun cell => decide (cell.bound < upTo)).map Cell.last := by
  rw [hchain.positions_dStruct body.proper, List.map_map]
  apply List.map_congr_left
  intro cell hcell
  exact (hchain.cellAt ((List.takeWhile_sublist _).mem hcell)).1.runEnd_bound body.proper

theorem takeWhile_all (hchain : body.marks.Chain lo rest) (hupTo : body.ended.length ≤ upTo) :
    rest.takeWhile (fun cell => decide (cell.bound < upTo)) = rest := by
  rw [List.takeWhile_eq_self_iff]
  intro cell hcell
  have hbound := hchain.bound_lt body.proper hcell
  exact decide_eq_true (by omega)

/-- A context that shows the text's last bytes. -/
structure AtEnd (body : Body σ) (origin lo : ℕ) (ctx : StepCtx) : Prop where
  step : body.StepAt origin ctx
  shows : body.Shows origin lo ctx.buf
  all : ctx.scanEnd = ctx.buf.length
  text_end : origin + ctx.scanEnd = body.text.length
  lo_lt : lo < body.text.length

theorem ended_eq (hne : body.text ≠ []) :
    body.ended = if body.text.getLast?.any body.config.isTerminator then body.text
      else body.text ++ [body.config.terminator.bytes.1] := by
  rcases terminated_cases body.config body.text with ⟨heq, hend⟩ | ⟨heq, -, hend⟩
  · rw [hend.resolve_left hne, if_pos rfl]
    exact heq
  · rw [hend, if_neg Bool.false_ne_true]
    exact heq

theorem AtEnd.getLast? (h : body.AtEnd origin lo ctx) :
    ctx.buf[ctx.scanEnd - 1]? = body.text.getLast? := by
  have hend := h.text_end
  have horigin := h.shows.origin_le
  have hlo := h.lo_lt
  have hall := h.all
  rw [List.getLast?_eq_getElem?, ← h.shows.view (body.text.length - 1) (by omega) (by omega)]
  congr 1
  omega

/-- The last bytes, with the terminator that is spliced in behind them. -/
theorem AtEnd.tail_eq (h : body.AtEnd origin lo ctx) {cursor : ℕ} (hlo : lo ≤ origin + cursor)
    (hcursor : cursor ≤ ctx.scanEnd) :
    (if decide (0 < ctx.scanEnd) &&
        !(ctx.buf[ctx.scanEnd - 1]?.any body.config.isTerminator) then
      slice ctx.buf cursor (ctx.scanEnd - cursor) ++ [body.config.terminator.bytes.1]
    else slice ctx.buf cursor (ctx.scanEnd - cursor)) = body.ended.drop (origin + cursor) := by
  have hend := h.text_end
  have horigin := h.shows.origin_le
  have hlt := h.lo_lt
  have hne : body.text ≠ [] := List.ne_nil_of_length_pos (by omega)
  have htail : slice ctx.buf cursor (ctx.scanEnd - cursor) = body.text.drop (origin + cursor) := by
    rw [slice, h.all, List.take_of_length_le (by rw [List.length_drop])]
    apply List.ext_getElem?
    intro i
    rw [List.getElem?_drop, List.getElem?_drop]
    rcases Nat.lt_or_ge (cursor + i) ctx.buf.length with hin | hout
    · have hthere := h.shows.view (origin + (cursor + i)) (by omega) (by omega)
      rw [Nat.add_sub_cancel_left] at hthere
      rw [hthere, Nat.add_assoc]
    · have hall := h.all
      rw [List.getElem?_eq_none hout, List.getElem?_eq_none (by omega)]
  rw [h.getLast?, decide_eq_true (show 0 < ctx.scanEnd by omega), Bool.true_and, htail,
    ended_eq hne]
  cases body.text.getLast?.any body.config.isTerminator with
  | true => rfl
  | false =>
      rw [Bool.not_false, if_pos rfl, if_neg Bool.false_ne_true,
        List.drop_append_of_le_length (by omega)]

/-- Padded, they are a vector of the text's. -/
theorem AtEnd.reads_tail (h : body.AtEnd origin lo ctx) {cursor : ℕ} (hlo : lo ≤ origin + cursor)
    (hcursor : cursor ≤ ctx.scanEnd) (hnear : ctx.scanEnd < cursor + 64)
    (hj : 64 * j = head + origin + cursor) :
    body.Reads head j (SimdIndexStepper.tailVector (scannerConfigOf body.config)
      (slice ctx.buf cursor (ctx.scanEnd - cursor))
      (decide (0 < ctx.scanEnd) &&
        !(ctx.buf[ctx.scanEnd - 1]?.any body.config.isTerminator))) := by
  have hend := h.text_end
  have hlength := body.length_ended
  obtain ⟨pads, hneutral, hv⟩ : ∃ pads, (∀ c ∈ pads, (scannerConfigOf body.config).Neutral c) ∧
      SimdIndexStepper.tailVector (scannerConfigOf body.config)
        (slice ctx.buf cursor (ctx.scanEnd - cursor))
        (decide (0 < ctx.scanEnd) &&
          !(ctx.buf[ctx.scanEnd - 1]?.any body.config.isTerminator)) =
        body.ended.drop (origin + cursor) ++ pads := by
    refine ⟨_, fun c hc => ?_, congrArg₂ (· ++ ·) (h.tail_eq hlo hcursor) rfl⟩
    rw [List.eq_of_mem_replicate hc]
    exact neutral_neutralPad _
  rw [hv, Reads, ← Marks.of_append hneutral]
  refine Scanner.reads_vector _ fun i hi => ?_
  have hhead := @length_padding _ body head
  calc (body.ended.drop (origin + cursor) ++ pads)[i]?
      = (body.ended ++ pads)[origin + cursor + i]? := by
        rw [← List.drop_append_of_le_length (by omega), List.getElem?_drop]
    _ = (body.padding head ++ body.ended ++ pads)[64 * j + i]? := by
        rw [List.append_assoc, @List.getElem?_append_right _ (body.padding head) _ _ (by omega),
          hhead]
        congr 1
        omega

end Body

end Csveee.Simd
