import Csveee.Parser.Simd.Pass

/-!
# Where the bad record is

The walk that places an arity error, told by the records it walks over: all have their
fields, up to one that does not.  It is walked over the bytes, the verifier counts
boundaries; the two agree on the text that is still in the buffer.
-/

namespace Csveee.Simd

open Positions Slice

/-! ## The walk over bytes -/

section Walk

variable (delim : Byte) (isTerm : Byte → Bool) (quote : Option Byte) (n : ℕ)

/-- The front of a record's content: the fields it begins, and whether a quote is open
behind it. -/
inductive Content : Bytes → ℕ → Bool → Prop
  | empty : Content [] 1 false
  | quote {front : Bytes} {c : Byte} {fields : ℕ} {inQuotes : Bool} :
      Content front fields inQuotes → some c = quote → Content (front ++ [c]) fields (!inQuotes)
  | quoted {front : Bytes} {c : Byte} {fields : ℕ} : Content front fields true →
      some c ≠ quote → Content (front ++ [c]) fields true
  | delimiter {front : Bytes} {c : Byte} {fields : ℕ} : Content front fields false →
      some c ≠ quote → c = delim → Content (front ++ [c]) (fields + 1) false
  | other {front : Bytes} {c : Byte} {fields : ℕ} : Content front fields false →
      some c ≠ quote → c ≠ delim → isTerm c = false → Content (front ++ [c]) fields false

/-- From the start of a record on, the first one that does not have its fields: how far
away it is, and the fields it has by the bytes there are. -/
inductive FirstBad (atEnd : ℕ → Prop) : Bytes → ℕ → ℕ → Prop
  /-- The record ends with too few fields or too many, or the bytes end. -/
  | here {content rest : Bytes} {fields : ℕ} {inQuotes : Bool} :
      Content delim isTerm quote content fields inQuotes →
      rest = [] ∧ atEnd fields ∨
        inQuotes = false ∧ rest.head?.any isTerm = true ∧ fields ≠ n →
      FirstBad atEnd (content ++ rest) 0 fields
  /-- A record that has its fields, and the run of its terminators. -/
  | behind {content run rest : Bytes} {skipped found : ℕ} :
      Content delim isTerm quote content n false → run ≠ [] → (∀ c ∈ run, isTerm c = true) →
      rest.head?.any isTerm = false → FirstBad atEnd rest skipped found →
      FirstBad atEnd (content ++ run ++ rest) (content.length + run.length + skipped) found

variable {delim isTerm quote n}

theorem locateLoop_firstBad (fuel : ℕ) {front bytes : Bytes} {i start fields : ℕ}
    {inQuotes : Bool} (hcontent : Content delim isTerm quote front fields inQuotes)
    (hi : i = start + front.length) (hfuel : bytes.length ≤ fuel) :
    ∃ skipped found, locateLoop n delim isTerm quote fuel bytes i start fields inQuotes =
      (start + skipped, found) ∧
      FirstBad delim isTerm quote n (fun _ => True) (front ++ bytes) skipped found := by
  induction fuel generalizing front bytes i start fields inQuotes with
  | zero =>
      rw [List.eq_nil_of_length_eq_zero (Nat.le_zero.mp hfuel)]
      exact ⟨0, fields, rfl, .here hcontent (Or.inl ⟨rfl, trivial⟩)⟩
  | succ fuel ih =>
      cases bytes with
      | nil => exact ⟨0, fields, rfl, .here hcontent (Or.inl ⟨rfl, trivial⟩)⟩
      | cons c rest =>
          rw [List.length_cons] at hfuel
          have hnext : i + 1 = start + (front ++ [c]).length := by
            rw [List.length_append, List.length_singleton]
            omega
          rw [locateLoop, List.append_cons]
          split_ifs with hquote hinside hdelim hterm hcount
          · exact ih (.quote hcontent hquote) hnext (by omega)
          · rw [hinside] at hcontent ⊢
            exact ih (.quoted hcontent hquote) hnext (by omega)
          · rw [Bool.eq_false_of_not_eq_true hinside] at hcontent ⊢
            exact ih (.delimiter hcontent hquote hdelim) hnext (by omega)
          · rw [Bool.eq_false_of_not_eq_true hinside] at hcontent
            refine ⟨0, fields, rfl, ?_⟩
            rw [List.append_assoc]
            exact .here hcontent (Or.inr ⟨rfl, hterm, hcount⟩)
          · rw [Bool.eq_false_of_not_eq_true hinside, not_not.mp hcount] at hcontent
            rw [Bool.eq_false_of_not_eq_true hinside]
            have hdrop : rest.drop (rest.takeWhile isTerm).length = rest.dropWhile isTerm := by
              calc rest.drop (rest.takeWhile isTerm).length
                  = (rest.takeWhile isTerm ++ rest.dropWhile isTerm).drop
                      (rest.takeWhile isTerm).length := by rw [List.takeWhile_append_dropWhile]
                _ = rest.dropWhile isTerm := List.drop_left
            have hshort := List.length_dropWhile_le isTerm rest
            have hstart : i + 1 + (rest.takeWhile isTerm).length =
                i + 1 + (rest.takeWhile isTerm).length + ([] : Bytes).length := rfl
            obtain ⟨skipped, found, hloop, hbad⟩ := ih .empty hstart
              (show (rest.dropWhile isTerm).length ≤ fuel by omega)
            refine ⟨front.length + (c :: rest.takeWhile isTerm).length + skipped, found, ?_, ?_⟩
            · simp only [hdrop, hloop, List.length_cons]
              congr 1
              omega
            · have hsplit : front ++ [c] ++ rest =
                  front ++ (c :: rest.takeWhile isTerm) ++ rest.dropWhile isTerm := by
                rw [List.append_assoc, List.append_assoc, List.singleton_append,
                  List.cons_append, List.takeWhile_append_dropWhile]
              rw [hsplit]
              refine .behind hcontent (List.cons_ne_nil _ _) ?_ ?_ hbad
              · intro b hb
                rcases List.mem_cons.mp hb with rfl | hrun
                · exact hterm
                · exact List.mem_takeWhile_imp hrun
              · have hhead := List.head?_dropWhile_not isTerm rest
                cases hnext : (rest.dropWhile isTerm).head? with
                | none => rfl
                | some b =>
                    rw [hnext] at hhead
                    exact hhead
          · rw [Bool.eq_false_of_not_eq_true hinside] at hcontent ⊢
            exact ih (.other hcontent hquote hdelim (Bool.eq_false_of_not_eq_true hterm)) hnext
              (by omega)

theorem locateBadRecord_firstBad (buf : Bytes) {start : ℕ} (hstart : start ≤ buf.length)
    (delim a : Byte) (b quote : Option Byte) : ∃ skipped found,
    locateBadRecord buf start n delim a b quote = (start + skipped, found) ∧
      FirstBad delim (fun c => c == a || b == some c) quote n (fun _ => True) (buf.drop start)
        skipped found := by
  rw [locateBadRecord, min_eq_left hstart]
  exact locateLoop_firstBad _ .empty rfl (List.length_drop ..).le

end Walk

/-! ## The walk and the boundaries -/

section Marked

variable {config : Config} {text : Bytes} (h : config.Distinct)

theorem marks_byte {m : ℕ} {c : Byte} (hc : text[m]? = some c) :
    (marksOf config text).delim m = (c == config.delimiter) ∧
      (marksOf config text).term m = config.isTerminator c ∧
      (marksOf config text).quote m = (config.quote == some c) := by
  rw [marksOf_delim, marksOf_term, marksOf_quote, hc]
  exact ⟨rfl, rfl, rfl⟩

/-- The content of a record, by its marks: the fields are one more than the delimiters out of
quotes, and no terminator is out of quotes. -/
structure Counted (marks : Marks) (lo hi fields : ℕ) (inQuotes : Bool) : Prop where
  inQuotes : lag marks.inQuotes hi = inQuotes
  fields : fields = (positions marks.delimOoq lo hi).length + 1
  quiet : ∀ i, lo ≤ i → i < hi → marks.termOoq i = false

theorem Counted.succ {marks : Marks} {lo hi fields : ℕ} {inQuotes : Bool}
    (h : Counted marks lo hi fields inQuotes) (hle : lo ≤ hi) (hterm : marks.termOoq hi = false) :
    Counted marks lo (hi + 1) (fields + if marks.delimOoq hi = true then 1 else 0)
      (inQuotes ^^ marks.quote hi) where
  inQuotes := by rw [lag_succ, Marks.inQuotes_eq, h.inQuotes]
  fields := by
    rw [positions_succ hle, List.length_append, h.fields]
    split_ifs
    · rw [List.length_singleton]
    · rfl
  quiet := by
    intro i hlo hhi
    rcases Nat.lt_or_eq_of_le (Nat.le_of_lt_succ hhi) with hlt | rfl
    · exact h.quiet i hlo hlt
    · exact hterm

include h in
theorem Content.counted {content : Bytes} {fields : ℕ} {inQuotes : Bool}
    (hcontent : Content config.delimiter config.isTerminator config.quote content fields inQuotes)
    {lo : ℕ} (hlo : lag (marksOf config text).inQuotes lo = false)
    (hbytes : ∀ i < content.length, text[lo + i]? = content[i]?) :
    Counted (marksOf config text) lo (lo + content.length) fields inQuotes := by
  have hproper := @proper_marksOf config text h
  -- one more byte, with what the marks say of it
  have hsnoc : ∀ {front : Bytes} {c : Byte},
      (∀ i < (front ++ [c]).length, text[lo + i]? = (front ++ [c])[i]?) →
        text[lo + front.length]? = some c ∧ ∀ i < front.length, text[lo + i]? = front[i]? := by
    intro front c hbytes
    rw [List.length_append, List.length_singleton] at hbytes
    refine ⟨?_, fun i hi => ?_⟩
    · rw [hbytes _ (Nat.lt_succ_self _), List.getElem?_append_right le_rfl, Nat.sub_self]
      rfl
    · rw [hbytes i (by omega), List.getElem?_append_left hi]
  induction hcontent with
  | empty =>
      exact ⟨hlo, by rw [List.length_nil, positions_of_le (Nat.add_zero lo).le]; rfl,
        fun i hge hlt => by rw [List.length_nil] at hlt; omega⟩
  | @quote front c fields inQuotes _ hquote ih =>
      obtain ⟨hc, hfront⟩ := hsnoc hbytes
      have hcounted := ih hfront
      have hmark : (marksOf config text).quote (lo + front.length) = true := by
        rw [(marks_byte hc).2.2, ← hquote, beq_self_eq_true]
      obtain ⟨hdelim, hterm⟩ := hproper.quote _ hmark
      have hnext := hcounted.succ (Nat.le_add_right _ _)
        (by rw [Marks.termOoq, hterm, Bool.false_and])
      rw [Marks.delimOoq, hdelim, Bool.false_and, if_neg Bool.false_ne_true, hmark,
        Bool.xor_true] at hnext
      rw [List.length_append, List.length_singleton]
      exact hnext
  | @quoted front c fields _ hquote ih =>
      obtain ⟨hc, hfront⟩ := hsnoc hbytes
      have hcounted := ih hfront
      have hmark : (marksOf config text).quote (lo + front.length) = false := by
        rw [(marks_byte hc).2.2]
        exact beq_eq_false_iff_ne.mpr fun heq => hquote heq.symm
      have hinside : (marksOf config text).inQuotes (lo + front.length) = true := by
        rw [Marks.inQuotes_eq, hcounted.inQuotes, hmark]
        rfl
      have hnext := hcounted.succ (Nat.le_add_right _ _)
        (by rw [Marks.termOoq, hinside, Bool.not_true, Bool.and_false])
      rw [Marks.delimOoq, hinside, Bool.not_true, Bool.and_false, if_neg Bool.false_ne_true,
        hmark] at hnext
      rw [List.length_append, List.length_singleton]
      exact hnext
  | @delimiter front c fields _ hquote hdelim ih =>
      obtain ⟨hc, hfront⟩ := hsnoc hbytes
      have hcounted := ih hfront
      have hmark : (marksOf config text).quote (lo + front.length) = false := by
        rw [(marks_byte hc).2.2]
        exact beq_eq_false_iff_ne.mpr fun heq => hquote heq.symm
      have houtside : (marksOf config text).inQuotes (lo + front.length) = false := by
        rw [Marks.inQuotes_eq, hcounted.inQuotes, hmark]
        rfl
      have hseparates : (marksOf config text).delim (lo + front.length) = true := by
        rw [(marks_byte hc).1, hdelim, beq_self_eq_true]
      have hnext := hcounted.succ (Nat.le_add_right _ _)
        (by rw [Marks.termOoq, hproper.not_term _ hseparates, Bool.false_and])
      rw [Marks.delimOoq, houtside, hseparates, Bool.not_false, Bool.and_true, if_pos rfl,
        hmark] at hnext
      rw [List.length_append, List.length_singleton]
      exact hnext
  | @other front c fields _ hquote hdelim hterm ih =>
      obtain ⟨hc, hfront⟩ := hsnoc hbytes
      have hcounted := ih hfront
      have hmark : (marksOf config text).quote (lo + front.length) = false := by
        rw [(marks_byte hc).2.2]
        exact beq_eq_false_iff_ne.mpr fun heq => hquote heq.symm
      have hnot : (marksOf config text).delim (lo + front.length) = false := by
        rw [(marks_byte hc).1]
        exact beq_eq_false_iff_ne.mpr hdelim
      have hnext := hcounted.succ (Nat.le_add_right _ _)
        (by rw [Marks.termOoq, (marks_byte hc).2.1, hterm, Bool.false_and])
      rw [Marks.delimOoq, hnot, Bool.false_and, if_neg Bool.false_ne_true, hmark] at hnext
      rw [List.length_append, List.length_singleton]
      exact hnext

end Marked

/-! ## The boundaries of a range -/

/-- Which boundaries of a range are terminators. -/
def Marks.kindsIn (marks : Marks) (lo hi : ℕ) : List Bool :=
  (positions marks.dStruct lo hi).map marks.runEnd

section Kinds

variable {marks : Marks} {n n' lo mid hi fields : ℕ} {inQuotes : Bool}

theorem kindsIn_append (hlo : lo ≤ mid) (hhi : mid ≤ hi) :
    marks.kindsIn lo mid ++ marks.kindsIn mid hi = marks.kindsIn lo hi := by
  rw [Marks.kindsIn, Marks.kindsIn, ← List.map_append, positions_append hlo hhi]
  rfl

/-- The verifier passes the front of what it passes. -/
theorem phaseAfter_front (hlo : lo ≤ mid) (hhi : mid ≤ hi)
    (h : phaseAfter n 0 (marks.kindsIn lo mid) = none) :
    phaseAfter n 0 (marks.kindsIn lo hi) = none := by
  rw [← kindsIn_append hlo hhi, phaseAfter_append, h]
  rfl

/-- The boundaries within a record are its delimiters. -/
theorem Counted.kindsIn (h : Counted marks lo hi fields inQuotes) :
    marks.kindsIn lo hi = List.replicate (fields - 1) false := by
  have hrunEnd : ∀ i, lo ≤ i → i < hi → marks.runEnd i = false := by
    intro i hlo hhi
    rw [Marks.runEnd, h.quiet i hlo hhi, Bool.false_and]
  have hsame : positions marks.dStruct lo hi = positions marks.delimOoq lo hi := by
    apply positions_congr
    intro i hlo hhi
    rw [Marks.dStruct, hrunEnd i hlo hhi, Bool.or_false]
  rw [Marks.kindsIn, hsame, h.fields, Nat.add_sub_cancel, List.eq_replicate_iff, List.length_map]
  refine ⟨rfl, fun kind hkind => ?_⟩
  obtain ⟨i, hi, rfl⟩ := List.mem_map.mp hkind
  obtain ⟨hrange, -⟩ := mem_positions.mp hi
  exact hrunEnd i hrange.1 hrange.2

theorem Counted.pos (h : Counted marks lo hi fields inQuotes) : 1 ≤ fields := by
  have hfields := h.fields
  omega

/-- Within a record the verifier counts its fields. -/
theorem Counted.phase (h : Counted marks lo hi fields inQuotes) (hn : 1 ≤ n) :
    phaseAfter n 0 (marks.kindsIn lo hi) = if fields ≤ n then some (fields - 1) else none := by
  have hpos := h.pos
  have hphase := phaseAfter_delimiters (show 0 < n by omega) (fields - 1) []
  rw [List.append_nil, Nat.zero_add] at hphase
  rw [h.kindsIn, hphase]
  by_cases hle : fields ≤ n
  · rw [if_pos hle, if_pos (by omega)]
    rfl
  · rw [if_neg hle, if_neg (by omega)]

/-- Within terminators, and behind them, it is out of quotes. -/
theorem outside_run (hproper : marks.Proper n) (hlo : lag marks.inQuotes lo = false)
    (hle : lo ≤ hi) (hterm : ∀ i, lo ≤ i → i < hi → marks.term i = true) :
    lag marks.inQuotes hi = false ∧ ∀ i, lo ≤ i → i < hi → marks.termOoq i = true := by
  induction hi, hle using Nat.le_induction with
  | base => exact ⟨hlo, fun i hge hlt => by omega⟩
  | succ hi hle ih =>
      obtain ⟨houtside, hbefore⟩ := ih fun i hge hlt => hterm i hge (by omega)
      have hquote : marks.quote hi = false := by
        by_contra hquote
        have hnot := (hproper.quote hi (Bool.eq_true_of_not_eq_false hquote)).2
        rw [hterm hi hle (Nat.lt_succ_self hi)] at hnot
        cases hnot
      have hthere : marks.inQuotes hi = false := by
        rw [Marks.inQuotes_eq, houtside, hquote]
        rfl
      refine ⟨hthere, fun i hge hlt => ?_⟩
      rcases Nat.lt_or_eq_of_le (Nat.le_of_lt_succ hlt) with hlt | rfl
      · exact hbefore i hge hlt
      · rw [Marks.termOoq, hterm i hge (Nat.lt_succ_self i), hthere]
        rfl

/-- A run of terminators has one boundary, where it ends. -/
theorem kindsIn_run (hproper : marks.Proper n) (hlt : lo < hi)
    (hterm : ∀ i, lo ≤ i → i < hi → marks.termOoq i = true) :
    marks.kindsIn lo hi = if marks.termOoq hi = true then [] else [true] := by
  have hboundary : ∀ i, lo ≤ i → i < hi →
      marks.dStruct i = !marks.termOoq (i + 1) ∧ marks.runEnd i = !marks.termOoq (i + 1) := by
    intro i hge hlt
    have hthis := hterm i hge hlt
    rw [Marks.dStruct, Marks.not_delimOoq_of_termOoq hproper hthis, Bool.false_or, Marks.runEnd,
      hthis, Bool.true_and, lead]
    exact ⟨rfl, rfl⟩
  have hfront : ∀ i, lo ≤ i → i < hi - 1 → marks.dStruct i = false := by
    intro i hge hless
    rw [(hboundary i hge (by omega)).1, hterm (i + 1) (by omega) (by omega)]
    rfl
  obtain ⟨hlast, hkind⟩ := hboundary (hi - 1) (by omega) (by omega)
  rw [Nat.sub_add_cancel (by omega)] at hlast hkind
  rw [← Nat.sub_add_cancel (show 1 ≤ hi by omega), Marks.kindsIn,
    positions_succ (by omega), positions_eq_nil hfront, List.nil_append,
    Nat.sub_add_cancel (by omega), hlast]
  cases hterm' : marks.termOoq hi with
  | false =>
      rw [hterm'] at hkind
      simp [hkind]
  | true => rfl

/-- A record and the run of terminators behind it: its delimiters, and where the run ends. -/
theorem Counted.kindsIn_record (hproper : marks.Proper n) (h : Counted marks lo mid fields inQuotes)
    (hlo : lo ≤ mid) (hlt : mid < hi) (hterm : ∀ i, mid ≤ i → i < hi → marks.termOoq i = true) :
    marks.kindsIn lo hi =
      List.replicate (fields - 1) false ++ if marks.termOoq hi = true then [] else [true] := by
  rw [← kindsIn_append hlo hlt.le, h.kindsIn, kindsIn_run hproper hlt hterm]

/-- The boundaries that are rejected go on past those that are passed. -/
theorem lt_of_rejected {upTo phase : ℕ}
    (hpassed : phaseAfter n 0 (marks.kindsIn lo hi) = some phase)
    (hphase : phaseAfter n 0 (marks.kindsIn lo upTo) = none) : hi < upTo := by
  by_contra hge
  rcases Nat.lt_or_ge upTo lo with hlt | hpast
  · rw [Marks.kindsIn, positions_of_le hlt.le] at hphase
    cases hphase
  · rw [phaseAfter_front hpast (Nat.le_of_not_lt hge) hphase] at hpassed
    cases hpassed

/-- A record of `n` fields is passed, with the run behind it. -/
theorem Counted.phase_run (hproper : marks.Proper n') (hn : 1 ≤ n)
    (h : Counted marks lo mid n inQuotes) (hlo : lo ≤ mid) (hlt : mid < hi)
    (hterm : ∀ i, mid ≤ i → i < hi → marks.termOoq i = true) :
    phaseAfter n 0 (marks.kindsIn lo hi) =
      some (if marks.termOoq hi = true then n - 1 else 0) := by
  have hpassed := h.phase hn
  rw [if_pos le_rfl] at hpassed
  rw [← kindsIn_append hlo hlt.le, phaseAfter_append, hpassed, Option.bind_some,
    kindsIn_run hproper hlt hterm]
  split_ifs
  · rfl
  · rw [phaseAfter, Nat.sub_add_cancel hn, decide_eq_true rfl, if_pos rfl]
    rfl

end Kinds

/-! ## Rejected boundaries -/

/-- A record, its terminators and what is behind, each in the text. -/
theorem bytes_parts {text content run rest : Bytes} {lo : ℕ}
    (hbytes : ∀ i < (content ++ run ++ rest).length,
      text[lo + i]? = (content ++ run ++ rest)[i]?) :
    (∀ i < content.length, text[lo + i]? = content[i]?) ∧
      (∀ i < run.length, text[lo + content.length + i]? = run[i]?) ∧
      ∀ i < rest.length, text[lo + content.length + run.length + i]? = rest[i]? := by
  rw [List.length_append, List.length_append] at hbytes
  refine ⟨fun i hi => ?_, fun i hi => ?_, fun i hi => ?_⟩
  · rw [hbytes i (by omega), List.append_assoc, List.getElem?_append_left hi]
  · rw [Nat.add_assoc, hbytes _ (by omega), List.append_assoc,
      List.getElem?_append_right (Nat.le_add_right _ _), Nat.add_sub_cancel_left,
      List.getElem?_append_left hi]
  · rw [Nat.add_assoc, Nat.add_assoc, hbytes _ (by omega),
      List.getElem?_append_right (by rw [List.length_append]; omega), List.length_append,
      ← Nat.add_assoc, Nat.add_sub_cancel_left]

section Rejected

variable {config : Config} {text : Bytes} (h : config.Distinct) {n lo upTo stop : ℕ}

/-- Behind a record, or at the start, no terminator is spliced in. -/
theorem not_spliced_at (hrecord : text.length = 0 ∨
      lag (marksOf config (terminated config text)).runEnd text.length = true) :
    (terminated config text).length ≠ text.length + 1 := by
  intro hspliced
  obtain ⟨hnot, hpos⟩ := term_of_spliced hspliced
  rcases hrecord with hzero | hterm
  · omega
  · rw [← Nat.sub_add_cancel hpos, lag_succ, Marks.runEnd, Marks.termOoq, hnot] at hterm
    cases hterm

theorem term_of_run {run : Bytes} (hterms : ∀ c ∈ run, config.isTerminator c = true)
    (hlong : lo + run.length ≤ text.length)
    (hbytes : ∀ i < run.length, text[lo + i]? = run[i]?) (i : ℕ) (hge : lo ≤ i)
    (hlt : i < lo + run.length) : (marksOf config (terminated config text)).term i = true := by
  have hthis := hbytes (i - lo) (by omega)
  rw [Nat.add_sub_cancel' hge,
    List.getElem?_eq_getElem (show i - lo < run.length by omega)] at hthis
  rw [marksOf_term, getElem?_terminated (by omega), hthis, Option.any_some]
  exact hterms _ (List.getElem_mem _)

include h

/-- Behind the text there is at most the terminator that is spliced in. -/
theorem kindsIn_end (upTo : ℕ) :
    (marksOf config (terminated config text)).kindsIn text.length upTo = [] ∨
      (marksOf config (terminated config text)).kindsIn text.length upTo = [true] ∧
        (terminated config text).length = text.length + 1 := by
  have hproper := @proper_marksOf config (terminated config text) h
  have hlength := length_terminated config text
  have hpast : ∀ i, text.length + 1 ≤ i →
      (marksOf config (terminated config text)).dStruct i = false := by
    intro i hi
    obtain ⟨hdelim, hterm, -⟩ := hproper.past i (by omega)
    rw [Marks.dStruct, Marks.delimOoq, hdelim, Marks.runEnd, Marks.termOoq, hterm]
    rfl
  by_cases hboundary : (marksOf config (terminated config text)).dStruct text.length = true
  · have hspliced : (terminated config text).length = text.length + 1 := by
      by_contra hne
      obtain ⟨hdelim, hterm, -⟩ := hproper.past text.length (by omega)
      rw [Marks.dStruct, Marks.delimOoq, hdelim, Marks.runEnd, Marks.termOoq, hterm] at hboundary
      cases hboundary
    rcases Nat.lt_or_ge text.length upTo with hlt | hge
    · refine Or.inr ⟨?_, hspliced⟩
      rw [Marks.kindsIn, positions_eq_singleton le_rfl hlt fun i hge hlt => ⟨fun hi => ?_, ?_⟩]
      · have hlast := term_last (List.ne_nil_of_length_pos
          (show 0 < (terminated config text).length by omega))
        rw [hspliced, Nat.add_sub_cancel] at hlast
        rw [Marks.dStruct, Marks.delimOoq, Bool.or_eq_true, Bool.and_eq_true] at hboundary
        rcases hboundary with ⟨hdelim, -⟩ | hrunEnd
        · rw [hproper.not_term _ hdelim] at hlast
          cases hlast
        · rw [List.map_singleton, hrunEnd]
      · by_contra hne
        rw [hpast i (by omega)] at hi
        cases hi
      · rintro rfl
        exact hboundary
    · exact Or.inl (by rw [Marks.kindsIn, positions_of_le hge]; rfl)
  · refine Or.inl ?_
    rw [Marks.kindsIn, positions_eq_nil fun i hge _ => ?_]
    · rfl
    · rcases Nat.lt_or_eq_of_le hge with hlt | rfl
      · exact hpast i hlt
      · exact Bool.eq_false_of_not_eq_true hboundary

/-- Behind a run of terminators that does not go on in the text there is none. -/
theorem not_term_behind {q : ℕ} {rest : Bytes}
    (hlast : (marksOf config (terminated config text)).term (q - 1) = true)
    (hlong : q + rest.length ≤ text.length) (hrest : ∀ i < rest.length, text[q + i]? = rest[i]?)
    (hnext : rest.head?.any config.isTerminator = false) (hall : rest = [] → q = text.length) :
    (marksOf config (terminated config text)).termOoq q = false := by
  have hproper := @proper_marksOf config (terminated config text) h
  have hlength := length_terminated config text
  cases rest with
  | nil =>
      have hq := hall rfl
      have hwhole : (terminated config text).length = text.length := by
        by_contra hne
        have hspliced := (term_of_spliced (show (terminated config text).length =
          text.length + 1 by omega)).1
        rw [← hq, hlast] at hspliced
        cases hspliced
      rw [Marks.termOoq, (hproper.past q (by omega)).2.1, Bool.false_and]
  | cons c rest =>
      have hthis := hrest 0 (Nat.succ_pos _)
      rw [List.length_cons] at hlong
      rw [Nat.add_zero, List.getElem?_cons_zero] at hthis
      rw [List.head?_cons, Option.any_some] at hnext
      rw [Marks.termOoq, marksOf_term, getElem?_terminated (by omega), hthis, Option.any_some,
        hnext, Bool.false_and]

/-- At the end of the bytes: the record has too many fields, or the text ends there, and the
record has too few. -/
theorem Counted.misfit_end {fields : ℕ} {inQuotes : Bool} (hn : 1 ≤ n)
    (hcounted : Counted (marksOf config (terminated config text)) lo stop fields inQuotes)
    (hle : lo ≤ stop) (hseen : upTo ≤ stop ∨ stop = text.length)
    (hphase : phaseAfter n 0 ((marksOf config (terminated config text)).kindsIn lo upTo) = none) :
    n < fields ∨ fields < n ∧ stop = text.length ∧
      (terminated config text).length = text.length + 1 := by
  rcases Nat.lt_or_ge n fields with hmany | hfew
  · exact Or.inl hmany
  · have hpassed := hcounted.phase hn
    rw [if_pos hfew] at hpassed
    have hpos := hcounted.pos
    rcases Nat.lt_or_ge stop upTo with hlt | hge
    · have hend := hseen.resolve_left (by omega)
      rw [← kindsIn_append hle hlt.le, phaseAfter_append, hpassed, Option.bind_some, hend] at hphase
      rcases kindsIn_end h upTo with hnil | ⟨hlast, hspliced⟩
      · rw [hnil] at hphase
        cases hphase
      · rw [hlast, phaseAfter, Nat.sub_add_cancel hpos] at hphase
        refine Or.inr ⟨lt_of_le_of_ne hfew fun heq => ?_, hend, hspliced⟩
        rw [decide_eq_true heq, if_pos rfl] at hphase
        cases hphase
    · exact absurd (lt_of_rejected hpassed hphase) (Nat.not_lt.mpr hge)

/-- Where the verifier rejects boundaries, the walk finds a record that does not have its
fields, if it sees all bytes up to these boundaries or all there are. -/
theorem FirstBad.misfit (hn : 1 ≤ n) {bytes : Bytes} {skipped found : ℕ}
    (hbad : FirstBad config.delimiter config.isTerminator config.quote n (fun _ => True) bytes
      skipped found)
    (hstop : lo + bytes.length = stop) (hlong : stop ≤ text.length)
    (hbytes : ∀ i < bytes.length, text[lo + i]? = bytes[i]?)
    (hlo : lag (marksOf config (terminated config text)).inQuotes lo = false)
    (hrecord : lo = 0 ∨ lag (marksOf config (terminated config text)).runEnd lo = true)
    (hhead : bytes.head?.any config.isTerminator = false)
    (hseen : upTo ≤ stop ∨ stop = text.length)
    (hphase : phaseAfter n 0 ((marksOf config (terminated config text)).kindsIn lo upTo) = none) :
    FirstBad config.delimiter config.isTerminator config.quote n
        (fun fields => n < fields ∨ fields < n ∧ stop = text.length) bytes skipped found ∧
      ∃ c, bytes[skipped]? = some c ∧ config.isTerminator c = false := by
  have hproper := @proper_marksOf config (terminated config text) h
  induction hbad generalizing lo with
  | @here content rest fields inQuotes hcontent hend =>
      rw [List.length_append] at hstop
      have hcounted := hcontent.counted h hlo fun i hi => by
        rw [getElem?_terminated (by omega), hbytes i (by rw [List.length_append]; omega),
          List.getElem?_append_left hi]
      have hfirst : ∀ b front, content = b :: front →
          ∃ c, (content ++ rest)[0]? = some c ∧ config.isTerminator c = false := by
        rintro b front rfl
        exact ⟨b, rfl, hhead⟩
      rcases hend with ⟨rfl, -⟩ | ⟨houtside, hterm, hne⟩
      · rw [List.length_nil, Nat.add_zero] at hstop
        rw [hstop] at hcounted
        have hwrong := hcounted.misfit_end h hn (by omega) hseen hphase
        refine ⟨.here hcontent (Or.inl ⟨rfl, hwrong.imp_right fun hfew => ⟨hfew.1, hfew.2.1⟩⟩), ?_⟩
        cases content with
        | cons b front => exact hfirst b front rfl
        | nil =>
            rw [List.length_nil, Nat.add_zero] at hstop
            rcases hwrong with hmany | ⟨-, hall, hspliced⟩
            · have hfields := hcounted.fields
              rw [positions_of_le hstop.ge, List.length_nil] at hfields
              omega
            · rw [hstop, hall] at hrecord
              exact absurd hspliced (not_spliced_at hrecord)
      · refine ⟨.here hcontent (Or.inr ⟨houtside, hterm, hne⟩), ?_⟩
        cases content with
        | cons b front => exact hfirst b front rfl
        | nil =>
            rw [List.nil_append, hterm] at hhead
            cases hhead
  | @behind content run rest skipped found hcontent hrun hterms hnext hbad ih =>
      obtain ⟨hcontent', hrun', hrest⟩ := bytes_parts hbytes
      rw [List.length_append, List.length_append] at hstop
      have hrunPos := List.length_pos_iff.mpr hrun
      have hcounted := hcontent.counted h hlo fun i hi => by
        rw [getElem?_terminated (by omega), hcontent' i hi]
      have hterm := term_of_run hterms (by omega) hrun'
      obtain ⟨houtside, htermOoq⟩ := outside_run hproper hcounted.inQuotes
        (Nat.le_add_right _ run.length) hterm
      generalize hq : lo + content.length + run.length = q at houtside htermOoq hterm hrest
      -- the record is passed, so the boundaries that are not lie behind it
      have hfront := hcounted.phase_run hproper hn (show lo ≤ lo + content.length by omega)
        (show lo + content.length < q by omega) htermOoq
      have hfar := lt_of_rejected hfront hphase
      have hopen := not_term_behind h (hterm (q - 1) (by omega) (by omega)) (by omega) hrest
        hnext fun hnil => by
          rw [hnil, List.length_nil, Nat.add_zero] at hstop
          have hall := hseen.resolve_left (by omega)
          omega
      rw [hopen, if_neg Bool.false_ne_true] at hfront
      have hlag : lag (marksOf config (terminated config text)).runEnd q = true := by
        rw [← Nat.sub_add_cancel (show 1 ≤ q by omega), lag_succ, Marks.runEnd,
          htermOoq (q - 1) (by omega) (by omega), lead, Nat.sub_add_cancel (by omega), hopen]
        rfl
      have hthere := hphase
      rw [← kindsIn_append (show lo ≤ q by omega) hfar.le, phaseAfter_append, hfront,
        Option.bind_some] at hthere
      obtain ⟨hbad', c, hc, hfirst⟩ := ih (by omega) hrest houtside (Or.inr hlag) hnext hthere
      refine ⟨.behind hcontent hrun hterms hnext hbad', c, ?_, hfirst⟩
      rw [List.getElem?_append_right (by rw [List.length_append]; omega), List.length_append,
        Nat.add_sub_cancel_left]
      exact hc

end Rejected

/-! ## The record that an error names -/

theorem FirstBad.found_ne {delim : Byte} {isTerm : Byte → Bool} {quote : Option Byte} {n : ℕ}
    {all : Prop} {bytes : Bytes} {skipped found : ℕ}
    (h : FirstBad delim isTerm quote n (fun fields => n < fields ∨ fields < n ∧ all) bytes skipped
      found) : found ≠ n := by
  induction h with
  | here _ hend =>
      rcases hend with ⟨-, hmany | hfew⟩ | hends
      · exact Nat.ne_of_gt hmany
      · exact Nat.ne_of_lt hfew.1
      · exact hends.2.2
  | behind _ _ _ _ _ ih => exact ih

/-- What the walk over `view` comes to, from `start` on: the first record there that does not
have `n` fields by the bytes of `view`, which are those of the text.  If it is the end of the
bytes that cuts it short, the text ends there. -/
structure Placed (config : Config) (n : ℕ) (text view : Bytes) (front start place found : ℕ) :
    Prop where
  walk : locateBadRecord view start n config.delimiter config.terminator.bytes.1
    config.terminator.bytes.2 config.quote = (place, found)
  shows : ∀ i, start ≤ i → i < view.length → view[i]? = text[front + i]?
  start_le : start ≤ place
  firstBad : FirstBad config.delimiter config.isTerminator config.quote n
    (fun fields => n < fields ∨ fields < n ∧ front + view.length = text.length)
    (view.drop start) (place - start) found
  found_ne : found ≠ n
  content : ∃ c, view[place]? = some c ∧ config.isTerminator c = false

namespace Body

variable {σ τ : Type} {body : Body σ}

theorem At.not_term (hblank : blankRun body.config body.text = 0) {lo : ℕ} {rest : List Cell}
    {last : Option ℕ} {state : σ} (h : body.At lo rest last state) (hlt : lo < body.text.length) :
    body.marks.term lo = false := by
  rcases h.record with rfl | hbehind
  · obtain ⟨c, front, htext⟩ := List.exists_cons_of_length_pos hlt
    rw [blankRun, htext, List.takeWhile_cons] at hblank
    rw [marks, marksOf_term, ended, getElem?_terminated hlt, htext]
    by_contra hterm
    rw [List.getElem?_cons_zero, Option.any_some, Bool.not_eq_false] at hterm
    rw [hterm, if_pos rfl, List.length_cons] at hblank
    cases hblank
  · have houtside := h.chain.starts.outside
    by_contra hterm
    rw [Bool.not_eq_false] at hterm
    have hquote : body.marks.quote lo = false := by
      by_contra hquote
      have hnot := (body.proper.quote lo (Bool.eq_true_of_not_eq_false hquote)).2
      rw [hterm] at hnot
      cases hnot
    have htermOoq : body.marks.termOoq lo = true := by
      rw [Marks.termOoq, hterm, Marks.inQuotes_eq, houtside, hquote]
      rfl
    obtain ⟨k, rfl⟩ : ∃ k, lo = k + 1 := by
      cases lo with
      | zero => cases hbehind
      | succ k => exact ⟨k, rfl⟩
    rw [lag_succ, Marks.runEnd, lead, htermOoq, Bool.not_true, Bool.and_false] at hbehind
    cases hbehind

/-- Boundaries that complete no records name the first record that is wrong. -/
theorem Misfit.placed (hblank : blankRun body.config body.text = 0) {walk : Walk} {state : σ}
    {err : Error} (h : body.Misfit walk state err) : ∃ place found,
      err = .numberOfFields body.n found (body.base + walk.origin + place) ∧
        Placed body.config body.n body.text walk.view walk.origin walk.start place found := by
  cases h with
  | @intro lo upTo rest lastRecordEnd place found hlo hat hshows hseen hphase hwalk =>
      have hchain := hat.chain
      rw [← kinds_eq hchain] at hphase
      have hlong := hshows.long
      have hlength := body.length_ended
      have hstart : walk.start ≤ walk.view.length := by
        by_contra hgt
        have hnone : positions body.marks.dStruct lo upTo = [] := by
          apply positions_eq_nil
          intro i hge hlt
          have hstop := hseen.resolve_left (by omega)
          obtain ⟨hdelim, hterm, -⟩ := body.proper.past i (by omega)
          rw [Marks.dStruct, Marks.delimOoq, hdelim, Marks.runEnd, Marks.termOoq, hterm]
          rfl
        rw [hnone] at hphase
        cases hphase
      have hview : ∀ i, walk.start ≤ i → i < walk.view.length →
          walk.view[i]? = body.text[walk.origin + i]? := by
        intro i hge hlt
        have hthis := hshows.view (walk.origin + i) (by omega) (by omega)
        rwa [Nat.add_sub_cancel_left] at hthis
      obtain ⟨skipped, found', hwalk', hbad⟩ := locateBadRecord_firstBad (n := body.n) walk.view
        hstart body.config.delimiter body.config.terminator.bytes.1
        body.config.terminator.bytes.2 body.config.quote
      obtain ⟨rfl, rfl⟩ := Prod.mk.inj (hwalk.symm.trans hwalk')
      have hdrop : walk.start + (walk.view.drop walk.start).length = walk.view.length := by
        rw [List.length_drop]
        omega
      obtain ⟨hbad', c, hc, hcontent⟩ := FirstBad.misfit body.distinct body.n_pos.1 hbad
        (show lo + (walk.view.drop walk.start).length = walk.origin + walk.view.length by omega)
        hlong (fun i hi => by
          rw [List.getElem?_drop, hview _ (by omega) (by omega), hlo, Nat.add_assoc])
        hchain.starts.outside hat.record (by
          rw [List.head?_drop]
          rcases Nat.lt_or_eq_of_le hstart with hlt | heq
          · rw [hview _ le_rfl hlt, ← hlo, ← getElem?_terminated (by omega), ← marksOf_term]
            exact hat.not_term hblank (by omega)
          · rw [List.getElem?_eq_none heq.ge]
            rfl) hseen hphase
      refine ⟨walk.start + skipped, found, rfl, hwalk, hview, Nat.le_add_right _ _, ?_,
        hbad'.found_ne, c, ?_, hcontent⟩
      · rw [Nat.add_sub_cancel_left]
        exact hbad'
      · rw [← hc, List.getElem?_drop]

/-- What is reported of the text as an arity error is the accumulator's own, or it names a
record. -/
theorem Blames.placed (hblank : blankRun body.config body.text = 0) {walk : Walk} {state : σ}
    {expected found byteOffset : ℕ}
    (h : body.Blames walk state (.numberOfFields expected found byteOffset)) :
    Rejects body.acc state (.numberOfFields expected found byteOffset) ∨
      ∃ place, byteOffset = body.base + walk.origin + place ∧
        Placed body.config expected body.text walk.view walk.origin walk.start place found := by
  cases h with
  | rejected _ hrejects => exact Or.inl hrejects
  | misfit hmisfit =>
      obtain ⟨place, found', herr, hplaced⟩ := hmisfit.placed hblank
      obtain ⟨rfl, rfl, rfl⟩ := Error.numberOfFields.inj herr
      exact Or.inr ⟨place, rfl, hplaced⟩

end Body

/-! ## Over a run -/

section Calls

variable {σ τ : Type} (config : Config) (acc : Accumulator σ) (text : Bytes) (base : ℕ)
  (stepper : ChunkStepper τ σ) (recordStart : τ → ℕ)

/-- An arity error of a call is one that the accumulator returned; or the walk over the
buffered bytes, from the oldest record that is not handed out, comes to the record it names. -/
def ArityPlaced : ChunkDriver.Call τ σ → Prop
  | .step st ctx state =>
      let out := stepper.step st ctx state
      ∀ expected found byteOffset,
        out.result = .error (.numberOfFields expected found byteOffset) →
          Rejects acc out.state (.numberOfFields expected found byteOffset) ∨
            ∃ place, byteOffset = ctx.totalConsumed + place ∧
              Placed config expected text (out.buf.take ctx.scanEnd) (ctx.totalConsumed - base)
                (recordStart out.stepper) place found
  | .finalize st ctx state =>
      let out := stepper.finalize st ctx state
      ∀ expected found byteOffset,
        out.2 = .error (.numberOfFields expected found byteOffset) →
          Rejects acc out.1 (.numberOfFields expected found byteOffset) ∨
            ∃ place, byteOffset = ctx.totalConsumed + place ∧
              Placed config expected text (ctx.buf.take ctx.scanEnd) (ctx.totalConsumed - base)
                (recordStart st) place found

variable {stepper recordStart}

theorem Body.Drives.placed {body : Body σ} {lastRecordEnd : τ → Option ℕ}
    {Rests : (origin lo resumeAt scanEnd : ℕ) → τ → Bytes → σ → Prop}
    (h : body.Drives stepper recordStart lastRecordEnd Rests)
    (hblank : blankRun body.config body.text = 0) {reader : ChunkReader}
    (hpending : reader.pending = body.text)
    (hremaining : reader.chunkRemaining = body.chunkEnd - body.base) {st : τ}
    (hstart : Rests 0 0 0 0 st body.text body.initial) (hlast : lastRecordEnd st = none)
    {call : ChunkDriver.Call τ σ}
    (hcall : ChunkDriver.Calls stepper body.output (.new reader body.base) st body.initial call) :
    ArityPlaced body.config body.acc body.text body.base stepper recordStart call := by
  have hvalidated := ChunkDriver.validated_new body.output reader body.base
  rw [hpending] at hvalidated
  have htotal : ∀ {driver fresh : ChunkDriver},
      ChunkDriver.Validated body.output body.text body.base driver →
      ChunkDriver.Refilled body.output driver fresh →
      body.base + (fresh.totalConsumed - body.base) = fresh.totalConsumed := by
    intro driver fresh hvalidated hfresh
    have hbase := hvalidated.base_le
    have hsame := hfresh.totalConsumed
    omega
  refine @ChunkDriver.calls_rule_text _ _ stepper body.output body.text body.base
    (body.Awaits lastRecordEnd Rests reader.schedule) _ (body.Post reader.schedule) ?_ ?_ _ _ _ _
    hcall none hvalidated ?_
  · intro driver fresh st state last hawaits hvalidated hfresh hcomplete expected found byteOffset
      herr
    obtain ⟨-, -, hfinal⟩ := h.finish hawaits hvalidated hfresh hcomplete
    generalize stepper.finalize st fresh.stepCtx state = out at hfinal herr ⊢
    obtain ⟨left, err | finalEnd⟩ := out
    · cases herr
      have hplaced := hfinal.placed hblank
      simp only [htotal hvalidated hfresh] at hplaced
      exact hplaced
    · cases herr
  · intro driver fresh st state last hawaits hvalidated hthere hfresh hprogress
    refine ⟨?_, h.iterate hawaits hthere hfresh hprogress hvalidated.validated_le⟩
    intro expected found byteOffset herr
    obtain ⟨hctx, lo, hready, -⟩ := h.ready hawaits hthere hfresh hvalidated.validated_le
    have hstep := h.step hctx hready hprogress
    rw [herr] at hstep
    have hplaced := hstep.2.placed hblank
    simp only [htotal hvalidated hfresh] at hplaced
    exact hplaced
  · refine ⟨.refl _, ⟨0, ?_⟩, hremaining, hlast.symm⟩
    simp only [ChunkDriver.new, Nat.sub_self, hpending]
    exact hstart

/-- An arity error of either stepper names the right record. -/
theorem arityPlaced (config : ValidConfig) (hsupports : supports config.config = .ok ())
    (level : Isa) (output : Output) (acc : Accumulator σ) {reader later : ChunkReader}
    {skipped : ℕ} (hskip : skipEmptyLines config.config reader = .ok (later, skipped, false))
    (base : ℕ) (state : σ) :
    (∀ call, ChunkDriver.Calls (SimdIndexStepper.stepper acc) output (.new later base)
        (.new level config.config) state call →
      ArityPlaced config.config acc later.pending base (SimdIndexStepper.stepper acc)
        SimdIndexStepper.recordBufStart call) ∧
    (config.config.quote = none → ∀ call, ChunkDriver.Calls (SimdCursorStepper.stepper acc) output
        (.new later base) (.new level config.config) state call →
      ArityPlaced config.config acc later.pending base (SimdCursorStepper.stepper acc)
        SimdCursorStepper.cellStart call) := by
  have h := config.distinct
  have hs := supported_of_supports h hsupports
  have hblank := blankRun_of_skip hskip
  obtain ⟨n, cells, hcount, hchain⟩ := exists_cells hs h later.pending
  have hle := Nat.le_add_right base later.chunkRemaining
  let body := Body.plain hs h acc output hcount later.pending hle state hchain
  have hremaining : later.chunkRemaining = body.chunkEnd - body.base :=
    (Nat.add_sub_cancel_left _ _).symm
  constructor
  · intro call hcall
    exact body.index_drives.placed hblank rfl hremaining (body.rests_new level) rfl hcall
  · intro hquote call hcall
    exact (body.cursor_drives hquote).placed hblank rfl hremaining (body.waits_new level) rfl
      hcall

end Calls

/-- Behind a row of two fields, one of a single field. -/
theorem arityPlaced_short :
    Placed pairs.config 2 [97, 44, 98, 10, 99, 10] [97, 44, 98, 10, 99, 10] 0 0 4 1 := by
  have hplaced := (@arityPlaced _ pairs rfl ⟨false⟩ .bytes RecordWise.acceptAll.accumulator
    (.whole [97, 44, 98, 10, 99, 10]) _ _ rfl 0 []).1 _
      (.again rfl rfl (by decide) rfl (.again rfl rfl (by decide) rfl
        (.finalize rfl rfl (by decide) (by decide)))) 2 1 4 (by decide +kernel)
  rcases hplaced with ⟨before, record, boxed, haccepted, -⟩ | ⟨place, hplace, hplaced⟩
  · cases haccepted
  · cases (Nat.zero_add place).symm.trans hplace.symm
    exact hplaced

end Csveee.Simd
