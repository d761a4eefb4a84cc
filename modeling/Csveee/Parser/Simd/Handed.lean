import Csveee.Parser.Dfa.Handed
import Csveee.Parser.Simd.Differential

/-!
# What the vectorized steppers hand out

A field is cut from between two bytes of the dialect, and the bytes removed from it are
quotes.  So it is text once the byte that ends it passed the validation.
-/

namespace Csveee.Simd

open Positions

variable {σ : Type}

/-- Bytes at ascending positions of a range are the range, but for those left out. -/
theorem thins_positions {bytes : Bytes} {flag : ℕ → Bool} {lo hi : ℕ} (hle : lo ≤ hi)
    (hhi : hi ≤ bytes.length)
    (hleft : ∀ i b, lo ≤ i → i < hi → flag i = false → bytes[i]? = some b → b < 0x80) :
    Utf8.Thins ((bytes.take hi).drop lo) ((positions flag lo hi).map fun i => bytes.getD i 0) := by
  induction hi, hle using Nat.le_induction with
  | base =>
      rw [positions_of_le le_rfl, List.drop_eq_nil_of_le (List.length_take_le _ _)]
      exact .nil
  | succ hi hle ih =>
      have hsome := List.getElem?_eq_getElem (show hi < bytes.length by omega)
      have htake : (bytes.take (hi + 1)).drop lo = (bytes.take hi).drop lo ++ [bytes[hi]] := by
        rw [List.take_add_one, hsome, Option.toList_some,
          List.drop_append_of_le_length (by rw [List.length_take]; omega)]
      have hfront := ih (by omega) fun i b hlo hi' => hleft i b hlo (by omega)
      rw [htake, positions_succ hle, List.map_append]
      apply hfront.append
      split_ifs with hflag
      · rw [List.map_singleton, List.getD_eq_getElem?_getD, hsome, Option.getD_some]
        exact .refl _
      · exact .drop (hleft hi _ hle (Nat.lt_succ_self hi) (Bool.eq_false_of_not_eq_true hflag)
          hsome) .nil

/-- A byte of the dialect. -/
def Marks.Marked (marks : Marks) (i : ℕ) : Prop :=
  marks.delim i = true ∨ marks.term i = true ∨ marks.quote i = true

section Text

variable {config : Config} {text : Bytes} (h : config.Distinct)
  (hascii : config.validateAsciiControlBytes = .ok ())

include hascii in
theorem ascii_of_mark {i : ℕ} {b : Byte} (hb : text[i]? = some b)
    (hmark : (marksOf config (terminated config text)).Marked i) : b < 0x80 := by
  have hi := (List.getElem?_eq_some_iff.mp hb).1
  have hcontrol := fun kind => @ascii_of_control config hascii kind b
  rw [Config.controlBytes] at hcontrol
  rw [Marks.Marked, marksOf_delim, marksOf_term, marksOf_quote, getElem?_terminated hi, hb,
    Option.any_some, Option.any_some, Option.any_some] at hmark
  rcases hmark with hdelim | hterm | hquote
  · apply hcontrol .delimiter
    rw [eq_of_beq hdelim]
    exact List.mem_cons_self
  · rw [Config.isTerminator, Bool.or_eq_true, beq_iff_eq, beq_iff_eq] at hterm
    apply hcontrol .terminator
    rcases hterm with hfirst | hsecond
    · rw [hfirst]
      simp
    · rw [hsecond]
      simp
  · apply hcontrol .quote
    rw [show config.quote = some b from eq_of_beq hquote]
    simp

/-- A field begins at the text's start, or behind a byte of the dialect. -/
theorem Marks.CellAt.marked_begin {marks : Marks} {cell : Cell} (hcell : marks.CellAt cell) :
    marks.begin cell = 0 ∨ ∃ i, marks.begin cell = i + 1 ∧ marks.Marked i := by
  rw [Marks.begin]
  split_ifs with hopens
  · exact Or.inr ⟨cell.lo, rfl, Or.inr (Or.inr hopens.2)⟩
  · rcases hcell.starts with hzero | hstruct
    · exact Or.inl hzero
    · rcases Nat.eq_zero_or_eq_succ_pred cell.lo with hzero | hsucc
      · exact Or.inl hzero
      · rw [hsucc, lag_succ, Marks.dStruct, Bool.or_eq_true, Marks.delimOoq, Marks.runEnd,
          Marks.termOoq, Bool.and_eq_true, Bool.and_eq_true, Bool.and_eq_true] at hstruct
        exact Or.inr ⟨_, hsucc, hstruct.imp And.left fun hrun => Or.inl hrun.1.1⟩

/-- A field ends on a byte of the dialect. -/
theorem Marks.CellAt.marked_fin {marks : Marks} {n : ℕ} (hproper : marks.Proper n) {cell : Cell}
    (hcell : marks.CellAt cell) : marks.Marked (marks.fin cell) := by
  rw [Marks.fin]
  split_ifs with hcloses
  · rw [show cell.stop = cell.stop - 1 + 1 by
      have hlt := hcell.lo_lt_of_closes hproper hcloses
      omega, lag_succ, Marks.closes, Bool.and_eq_true, Bool.and_eq_true] at hcloses
    exact Or.inr (Or.inr hcloses.1.1)
  · cases hlast : cell.last with
    | false =>
        have hdelim := (hcell.delim hlast).1
        rw [Marks.delimOoq, Bool.and_eq_true] at hdelim
        exact Or.inl hdelim.1
    | true =>
        obtain ⟨hle, hrun, -⟩ := hcell.term hlast
        have hterm := hrun cell.stop le_rfl hle
        rw [Marks.termOoq, Bool.and_eq_true] at hterm
        exact Or.inr (Or.inl hterm.1)

include h hascii

theorem cut_content {cell : Cell} (hat : (marksOf config (terminated config text)).CellAt cell)
    (hfin : (marksOf config (terminated config text)).fin cell ≤ text.length) :
    Utf8.Cut (text.take ((marksOf config (terminated config text)).fin cell))
      (content config (terminated config text) cell) := by
  set marks := marksOf config (terminated config text) with hmarks
  have hproper : marks.Proper (terminated config text).length := proper_marksOf h
  have hle := hat.begin_le_fin hproper
  have hcontent : content config (terminated config text) cell =
      (positions (fun i => !marks.r config.doubledQuotes i) (marks.begin cell)
        (marks.fin cell)).map fun i => text.getD i 0 := by
    rw [content, kept, ← hmarks, ← hat.positions_keep hproper]
    apply List.map_congr_left
    intro i hi
    rw [mem_positions] at hi
    rw [List.getD_eq_getElem?_getD, List.getD_eq_getElem?_getD, getElem?_terminated (by omega)]
  refine ⟨text.take (marks.begin cell), (text.take (marks.fin cell)).drop (marks.begin cell), ?_,
    ?_, ?_⟩
  · have hsplit := List.take_append_drop (marks.begin cell) (text.take (marks.fin cell))
    rw [List.take_take, min_eq_left hle] at hsplit
    exact hsplit.symm
  · rcases hat.marked_begin with hzero | ⟨i, hbegin, hmark⟩
    · rw [hzero]
      exact Or.inl rfl
    · have hsome := List.getElem?_eq_getElem (show i < text.length by omega)
      rw [hbegin, List.take_add_one, hsome, Option.toList_some]
      exact Utf8.anchored_snoc (ascii_of_mark hascii hsome hmark) _
  · rw [hcontent]
    apply thins_positions hle hfin
    intro i b hlo hhi hremoved hb
    rw [Bool.not_eq_false', Marks.r, Bool.and_eq_true, Bool.and_eq_true, Bool.and_eq_true]
      at hremoved
    exact ascii_of_mark hascii hb (Or.inr (Or.inr hremoved.1.1.1))

/-- In the bytes that passed the validation, the content of a cell is text. -/
theorem valid_content {v : ℕ} (hvalid : Utf8.Valid (text.take v)) (hv : v ≤ text.length)
    {cell : Cell} (hat : (marksOf config (terminated config text)).CellAt cell)
    (hfin : (marksOf config (terminated config text)).fin cell ≤ v) :
    Utf8.Valid (content config (terminated config text) cell) := by
  refine (cut_content h hascii hat (le_trans hfin hv)).valid ?_
  have hmark := hat.marked_fin (proper_marksOf h)
  rcases Nat.lt_or_eq_of_le hfin with hlt | heq
  · have hsome := List.getElem?_eq_getElem (show
      (marksOf config (terminated config text)).fin cell < text.length by omega)
    have hsplit := List.take_append_drop ((marksOf config (terminated config text)).fin cell)
      (text.take v)
    rw [List.take_take, min_eq_left hfin, List.drop_take, List.drop_eq_getElem_cons (by omega),
      show v - (marksOf config (terminated config text)).fin cell =
        v - (marksOf config (terminated config text)).fin cell - 1 + 1 by omega,
      List.take_succ_cons] at hsplit
    rw [← hsplit] at hvalid
    exact ((Utf8.valid_append_cons (ascii_of_mark hascii hsome hmark)).mp hvalid).1
  · rw [heq]
    exact hvalid

end Text

/-- The body of a run that keeps in mind what it handed out. -/
def Body.promised {config : Config} (hs : Supported config) (h : config.Distinct)
    (acc : Accumulator σ) {output : Output}
    (hascii : output = .str → config.validateAsciiControlBytes = .ok ()) {n : ℕ}
    (hcount : config.fieldCount = some n) (text : Bytes) {base chunkEnd : ℕ}
    (hle : base ≤ chunkEnd) (initial : σ) {cells : List Cell}
    (hchain : (marksOf config (terminated config text)).Chain 0 cells) : Body σ :=
  { Body.plain hs h acc output hcount text hle initial hchain with
    valid := Reached output text
    kept := HandedOut acc (Promised config output) initial
    valid_zero := .start
    validates := fun _ _ _ hv hw hvalid => .window hv hw hvalid
    kept_initial := .start
    keeps := by
      intro v state row hreached hv hcells hkept
      refine hkept.record ⟨?_, ?_⟩
      · rw [hcount, Option.all_some, List.length_map, row.length_cells]
        exact beq_self_eq_true n
      · rintro rfl field hmem
        obtain ⟨cell, hcell, rfl⟩ := List.mem_map.mp hmem
        obtain ⟨hin, hfin⟩ := hcells cell hcell
        exact valid_content h (hascii rfl) hreached.valid.2 hv (hchain.cellAt hin).1 hfin }

section Runs

variable {config : Config} (hs : Supported config) (h : config.Distinct) (acc : Accumulator σ)
  {output : Output} (hascii : output = .str → config.validateAsciiControlBytes = .ok ())
  (level : Isa) (reader : ChunkReader) (base : ℕ) (state : σ)

include hs h hascii

/-- Every record the index stepper hands out is as promised. -/
theorem handedOut_index : HandedOut acc (Promised config output) state
    (ChunkDriver.run (SimdIndexStepper.stepper acc) output (.new reader base)
      (.new level config) state).1 := by
  obtain ⟨n, cells, hcount, hchain⟩ := exists_cells hs h reader.pending
  have hle := Nat.le_add_right base reader.chunkRemaining
  have hpost := @Body.index_post σ
    (Body.promised hs h acc hascii hcount reader.pending hle state hchain) level reader rfl
    (Nat.add_sub_cancel_left _ _).symm
  exact hpost.kept

/-- Every record the cursor stepper hands out is as promised. -/
theorem handedOut_cursor (hquote : config.quote = none) :
    HandedOut acc (Promised config output) state
      (ChunkDriver.run (SimdCursorStepper.stepper acc) output (.new reader base)
        (.new level config) state).1 := by
  obtain ⟨n, cells, hcount, hchain⟩ := exists_cells hs h reader.pending
  have hle := Nat.le_add_right base reader.chunkRemaining
  have hpost := @Body.cursor_post σ
    (Body.promised hs h acc hascii hcount reader.pending hle state hchain) hquote level reader rfl
    (Nat.add_sub_cancel_left _ _).symm
  exact hpost.kept

end Runs

/-- Whatever the source holds, however it is refilled and wherever a pass starts and stops: in
text mode every field handed out is valid, by each of the three steppers. -/
theorem fields_valid (config : ValidConfig)
    (hascii : config.config.validateAsciiControlBytes = .ok ()) (acc : Accumulator σ)
    (reader : ChunkReader) (base : ℕ) (state : σ) :
    (∀ endian, ∀ record ∈ (ChunkDriver.run (Dfa.stepper (Dfa.reference endian config.config)
        acc.logged) .str (.new reader base) (.new base) (state, [])).1.2,
      ∀ field ∈ record, Utf8.Valid field) ∧
    (supports config.config = .ok () → ∀ level,
      (∀ record ∈ (ChunkDriver.run (SimdIndexStepper.stepper acc.logged) .str (.new reader base)
          (.new level config.config) (state, [])).1.2,
        ∀ field ∈ record, Utf8.Valid field) ∧
      (config.config.quote = none →
        ∀ record ∈ (ChunkDriver.run (SimdCursorStepper.stepper acc.logged) .str (.new reader base)
            (.new level config.config) (state, [])).1.2,
          ∀ field ∈ record, Utf8.Valid field)) := by
  have h := config.distinct
  refine ⟨fun endian record hmem => ?_, fun hsupports level =>
    ⟨fun record hmem => ?_, fun hquote record hmem => ?_⟩⟩
  · have hhanded := @Dfa.handedOut_parseFrom _ _ h endian .str (fun _ => hascii) acc.logged
      (state, []) reader base
    exact (hhanded.logged record hmem).text rfl
  · have hhanded := @handedOut_index _ _ (supported_of_supports h hsupports) h acc.logged .str
      (fun _ => hascii) level reader base (state, [])
    exact (hhanded.logged record hmem).text rfl
  · have hhanded := @handedOut_cursor _ _ (supported_of_supports h hsupports) h acc.logged .str
      (fun _ => hascii) level reader base (state, []) hquote
    exact (hhanded.logged record hmem).text rfl

/-- A quoted field of two octets that make one character. -/
theorem fields_valid_accent :
    [[195, 169], [98]] ∈ (ChunkDriver.run
        (SimdIndexStepper.stepper RecordWise.acceptAll.accumulator.logged) .str
        (.new (.whole [34, 195, 169, 34, 44, 98, 10]) 0) (.new ⟨false⟩ pairs.config) ([], [])).1.2 ∧
      Utf8.Valid [195, 169] := by
  have hmem : [[195, 169], [98]] ∈ (ChunkDriver.run
      (SimdIndexStepper.stepper RecordWise.acceptAll.accumulator.logged) .str
      (.new (.whole [34, 195, 169, 34, 44, 98, 10]) 0) (.new ⟨false⟩ pairs.config)
      ([], [])).1.2 := by
    decide +kernel
  exact ⟨hmem, ((fields_valid pairs rfl RecordWise.acceptAll.accumulator
    (.whole [34, 195, 169, 34, 44, 98, 10]) 0 []).2 rfl ⟨false⟩).1 _ hmem _ List.mem_cons_self⟩

end Csveee.Simd
