import Csveee.Parser.Dfa.Modes

/-!
# Dialects without quotes

Without quotes, every terminator is a boundary: a scan finds the first one, and without
comments a header row ends on the first one past its leading blank lines.
-/

namespace Csveee.Dfa

variable {config : Config}

/-- The first terminator past the leading blank lines. -/
def headerEnd (config : Config) (bytes : Bytes) : Option ℕ :=
  ((bytes.drop (blankRun config bytes)).findIdx? config.isTerminator).map
    (blankRun config bytes + ·)

theorem isTerminator_of_lt_blankRun {bytes : Bytes} {i : ℕ} {c : Byte}
    (hi : i < blankRun config bytes) (hc : bytes[i]? = some c) :
    config.isTerminator c = true := by
  have hget : (bytes.takeWhile config.isTerminator)[i]? = some c := by
    rw [← List.takeWhile_append_dropWhile (p := config.isTerminator) (l := bytes),
      List.getElem?_append_left hi] at hc
    exact hc
  exact List.mem_takeWhile_imp (List.mem_of_getElem? hget)

theorem not_isTerminator_blankRun {bytes : Bytes} {c : Byte}
    (hc : bytes[blankRun config bytes]? = some c) : config.isTerminator c = false := by
  have hdrop := blankRun_drop config bytes (blankRun config bytes) le_rfl
  rw [Nat.sub_self] at hdrop
  cases hbytes : bytes.drop (blankRun config bytes) with
  | nil =>
      have hhead := @List.getElem?_drop _ bytes (blankRun config bytes) 0
      rw [Nat.add_zero, hc, hbytes] at hhead
      cases hhead
  | cons b rest =>
      have hhead := @List.getElem?_drop _ bytes (blankRun config bytes) 0
      rw [Nat.add_zero, hc, hbytes, List.getElem?_cons_zero] at hhead
      cases hhead
      rw [hbytes] at hdrop
      by_contra hterm
      rw [blankRun, List.takeWhile_cons, if_pos (by simpa using hterm),
        List.length_cons] at hdrop
      omega

theorem headerEnd_eq_some {bytes : Bytes} {e : ℕ} (he : headerEnd config bytes = some e) :
    (∃ c, bytes[e]? = some c ∧ config.isTerminator c = true) ∧ blankRun config bytes < e ∧
      ∀ j c, blankRun config bytes ≤ j → j < e → bytes[j]? = some c →
        config.isTerminator c = false := by
  rw [headerEnd, Option.map_eq_some_iff] at he
  obtain ⟨i, hi, rfl⟩ := he
  obtain ⟨hlt, hterm, hbefore⟩ := List.findIdx?_eq_some_iff_getElem.mp hi
  have hbyte : bytes[blankRun config bytes + i]? =
      some (bytes.drop (blankRun config bytes))[i] := by
    rw [← List.getElem?_drop, List.getElem?_eq_getElem hlt]
  refine ⟨⟨_, hbyte, hterm⟩, ?_, ?_⟩
  · by_contra hle
    have hzero : i = 0 := by omega
    subst hzero
    have hfalse := not_isTerminator_blankRun hbyte
    rw [hterm] at hfalse
    cases hfalse
  · intro j c hj hje hc
    obtain ⟨k, rfl⟩ := Nat.exists_eq_add_of_le hj
    have hk : k < i := by omega
    rw [← List.getElem?_drop, List.getElem?_eq_getElem (by omega)] at hc
    cases hc
    simpa using hbefore k hk

theorem headerEnd_eq_none {bytes : Bytes} (he : headerEnd config bytes = none) :
    ∀ j c, blankRun config bytes ≤ j → bytes[j]? = some c → config.isTerminator c = false := by
  rw [headerEnd, Option.map_eq_none_iff, List.findIdx?_eq_none_iff] at he
  intro j c hj hc
  obtain ⟨k, rfl⟩ := Nat.exists_eq_add_of_le hj
  rw [← List.getElem?_drop] at hc
  exact he c (List.mem_of_getElem? hc)

/-- The header row of the first bytes ends where the whole one does, if it still does. -/
theorem headerEnd_take (bytes : Bytes) (n : ℕ) :
    headerEnd config (bytes.take n) =
      (headerEnd config bytes).bind (Option.guard fun e => e < n) := by
  have hrun : blankRun config (bytes.take n) = min n (blankRun config bytes) :=
    takeWhile_take config.isTerminator bytes n
  rw [headerEnd, headerEnd, hrun]
  by_cases hn : n ≤ blankRun config bytes
  · rw [min_eq_left hn, List.drop_eq_nil_of_le (List.length_take_le _ _)]
    cases (bytes.drop (blankRun config bytes)).findIdx? config.isTerminator with
    | none => rfl
    | some i =>
        simp only [Option.map_some, Option.bind_some, Option.guard, List.findIdx?_nil,
          Option.map_none]
        rw [if_neg (by simp only [decide_eq_true_eq]; omega)]
  · rw [min_eq_right (by omega), List.drop_take, List.findIdx?_take]
    cases (bytes.drop (blankRun config bytes)).findIdx? config.isTerminator with
    | none => rfl
    | some i =>
        simp only [Option.map_some, Option.bind_some, Option.guard, decide_eq_true_eq]
        by_cases hi : i < n - blankRun config bytes
        · rw [if_pos hi, if_pos (by omega), Option.map_some]
        · rw [if_neg hi, if_neg (by omega), Option.map_none]

section

variable (h : config.Distinct) (hquote : config.quote = none) (endian : Endian)

include h hquote

theorem symbol_unquoted (b : Byte) :
    config.symbol b = .delimiter ∨ config.symbol b = .terminator ∨
      config.symbol b = .content ∨ config.symbol b = .comment := by
  obtain ⟨-, -, hquoteByte, hescapeByte, -⟩ := symbol_tests h b
  have hescape : config.escape = none := by
    have hsome := h.escape_quote
    rw [hquote] at hsome
    cases he : config.escape with
    | none => rfl
    | some e =>
        rw [he] at hsome
        exact absurd (hsome rfl) Bool.false_ne_true
  rw [hquote] at hquoteByte
  rw [hescape] at hescapeByte
  cases hs : config.symbol b with
  | delimiter => exact Or.inl rfl
  | terminator => exact Or.inr (Or.inl rfl)
  | content => exact Or.inr (Or.inr (Or.inl rfl))
  | comment => exact Or.inr (Or.inr (Or.inr rfl))
  | quote => cases hquoteByte.mp hs
  | escape => cases (hescapeByte.mp hs).1

theorem scan_unquoted (mode : QuoteHandling) (strictProbe : Bool) {state : State}
    (hstate : state = .fieldStart ∨ state = .inField) (x : ℕ) (bytes : Bytes) :
    (scanBytes (dialect endian config mode) strictProbe state x bytes).boundary =
      boundaryAt x (bytes.findIdx? config.isTerminator) := by
  induction bytes generalizing state x with
  | nil => rfl
  | cons b rest ih =>
      have hne : state ≠ .inComment := by
        rcases hstate with rfl | rfl <;> simp
      have hterm := (symbol_tests h b).2.1
      have hplain : config.symbol b ≠ .terminator → config.isTerminator b = false := by
        intro hsymbol
        by_contra hb
        exact hsymbol (hterm.mpr (by simpa using hb))
      have hgo : ∀ {next : State}, next = .fieldStart ∨ next = .inField →
          (scanBytes (dialect endian config mode) strictProbe next (x + 1) rest).boundary =
            boundaryAt x ((rest.findIdx? config.isTerminator).map (· + 1)) := by
        intro next hnext
        rw [ih hnext (x + 1)]
        cases rest.findIdx? config.isTerminator with
        | none => rfl
        | some i => simp only [boundaryAt, Option.map_some, Nat.add_assoc, Nat.add_comm 1]
      rw [scanBytes, List.findIdx?_cons]
      simp only [dialect_transition h endian mode hne]
      rcases symbol_unquoted h hquote b with hs | hs | hs
      · have hb := hplain (by rw [hs]; simp)
        have hrow : symbolRow mode config.doubledQuotes state (config.symbol b) =
            ⟨.fieldEnd, false, false⟩ := by
          rw [hs]
          rcases hstate with rfl | rfl <;> rfl
        simp only [hrow, Bool.and_false, Bool.false_eq_true, if_false, hb]
        exact hgo (Or.inl rfl)
      · have hb : config.isTerminator b = true := hterm.mp hs
        have hrow : symbolRow mode config.doubledQuotes state (config.symbol b) =
            ⟨.recordEnd, false, false⟩ := by
          rw [hs]
          rcases hstate with rfl | rfl <;> rfl
        simp only [hrow, Bool.and_false, Bool.false_eq_true, if_false, hb, if_true]
        rfl
      · -- a comment byte is content where no record starts
        have hb := hplain (by rcases hs with hs | hs <;> rw [hs] <;> simp)
        have hrow : symbolRow mode config.doubledQuotes state (config.symbol b) =
            ⟨.inField, true, false⟩ := by
          rcases hs with hs | hs <;> rw [hs] <;> rcases hstate with rfl | rfl <;> rfl
        simp only [hrow, Bool.and_false, Bool.false_eq_true, if_false, hb]
        exact hgo (Or.inr rfl)

/-- Where a record starts, a scan passes over the leading blank lines first. -/
theorem scan_header (hcomment : config.comment = none) (mode : QuoteHandling)
    (strictProbe : Bool) (x : ℕ) (bytes : Bytes) :
    (scanBytes (dialect endian config mode) strictProbe .recordStart x bytes).boundary =
      boundaryAt x (headerEnd config bytes) := by
  induction bytes generalizing x with
  | nil => rfl
  | cons b rest ih =>
      have hterm := (symbol_tests h b).2.1
      by_cases hb : config.isTerminator b = true
      · have hs := hterm.mpr hb
        have hrun : blankRun config (b :: rest) = blankRun config rest + 1 := by
          rw [blankRun, List.takeWhile_cons, if_pos hb, List.length_cons, blankRun]
        rw [scanBytes]
        simp only [dialect_transition h endian mode (show State.recordStart ≠ .inComment by simp),
          hs, symbolRow, Bool.and_false, Bool.false_eq_true, if_false]
        rw [ih (x + 1), headerEnd, headerEnd, hrun, List.drop_succ_cons]
        cases (rest.drop (blankRun config rest)).findIdx? config.isTerminator with
        | none => rfl
        | some i =>
            simp only [boundaryAt, Option.map_some, Boundary.found.injEq]
            omega
      · have hrun : blankRun config (b :: rest) = 0 := by
          rw [blankRun, List.takeWhile_cons, if_neg hb, List.length_nil]
        have hfield := scan_unquoted h hquote endian mode strictProbe
          (Or.inl rfl : State.fieldStart = .fieldStart ∨ _) x (b :: rest)
        have hsame : scanBytes (dialect endian config mode) strictProbe .recordStart x
            (b :: rest) = scanBytes (dialect endian config mode) strictProbe .fieldStart x
              (b :: rest) := by
          rw [scanBytes, scanBytes]
          simp only [dialect_transition h endian mode (show State.recordStart ≠ .inComment by simp),
            dialect_transition h endian mode (show State.fieldStart ≠ .inComment by simp)]
          rcases symbol_unquoted h hquote b with hs | hs | hs | hs
          · rw [hs]
            rfl
          · exact absurd (hterm.mp hs) hb
          · rw [hs]
            rfl
          · have hsome := (symbol_tests h b).2.2.2.2.mp hs
            rw [hcomment] at hsome
            cases hsome
        rw [hsame, hfield, headerEnd, hrun, List.drop_zero]
        cases (b :: rest).findIdx? config.isTerminator with
        | none => rfl
        | some i => simp only [Option.map_some, Nat.zero_add]

end

end Csveee.Dfa
