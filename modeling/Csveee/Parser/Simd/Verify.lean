import Csveee.Parser.Simd.FieldCount
import Csveee.Parser.Simd.Windows

/-!
# What the verifier accepts

A vector's boundaries as the list of their kinds.  Both verifiers accept exactly the
lists in which every record completes on a terminator and nothing else does.
-/

namespace Csveee.Simd

open Bits

theorem countOnes_eq (m : Mask) : countOnes m = (ones m).length := (length_ones m).symm

theorem countOnes_le (m : Mask) : countOnes m ≤ 64 := by
  rw [countOnes_eq, ones]
  exact le_trans (List.length_filter_le _ _) (by rw [List.length_range])

/-- For each boundary in turn, whether it is a terminator. -/
def kinds (dStruct term : Mask) : List Bool := (ones dStruct).map term.getLsbD

theorem length_kinds (dStruct term : Mask) : (kinds dStruct term).length = countOnes dStruct := by
  rw [kinds, List.length_map, countOnes_eq]

/-- The phase after the boundaries, if each one completes a record exactly when it is a
terminator. -/
def phaseAfter (n : ℕ) : ℕ → List Bool → Option ℕ
  | phase, [] => some phase
  | phase, isTerm :: rest =>
      if isTerm = decide (phase + 1 = n) then
        phaseAfter n (if isTerm then 0 else phase + 1) rest
      else none

/-- Every boundary completes a record exactly when it is a terminator. -/
def Rectangular (n phase : ℕ) (boundaries : List Bool) : Prop :=
  ∀ j isTerm, boundaries[j]? = some isTerm → (isTerm = true ↔ (j + phase) % n = n - 1)

theorem phaseAfter_append (n phase : ℕ) (left right : List Bool) :
    phaseAfter n phase (left ++ right) = (phaseAfter n phase left).bind (phaseAfter n · right) := by
  induction left generalizing phase with
  | nil => rfl
  | cons isTerm rest ih =>
      rw [List.cons_append, phaseAfter, phaseAfter]
      split_ifs
      · exact ih _
      · exact ih _
      · rfl

theorem phaseAfter_lt {n phase phase' : ℕ} {boundaries : List Bool} (hphase : phase < n)
    (h : phaseAfter n phase boundaries = some phase') : phase' < n := by
  induction boundaries generalizing phase with
  | nil =>
      cases h
      exact hphase
  | cons isTerm rest ih =>
      rw [phaseAfter] at h
      split_ifs at h with hkind hterm
      · exact ih (by omega) h
      · refine ih ?_ h
        rw [Bool.eq_false_of_not_eq_true hterm] at hkind
        have hne := of_decide_eq_false hkind.symm
        omega

/-- The phase is the count of boundaries modulo the arity. -/
theorem phaseAfter_eq_some {n phase : ℕ} (hphase : phase < n) (boundaries : List Bool)
    (phase' : ℕ) : phaseAfter n phase boundaries = some phase' ↔
      Rectangular n phase boundaries ∧ phase' = (phase + boundaries.length) % n := by
  induction boundaries generalizing phase with
  | nil =>
      rw [phaseAfter, Option.some.injEq, List.length_nil, Nat.add_zero, Nat.mod_eq_of_lt hphase]
      constructor
      · rintro rfl
        exact ⟨fun _ _ hget => absurd hget (by simp), rfl⟩
      · rintro ⟨-, rfl⟩
        rfl
  | cons isTerm rest ih =>
      have hpos : 0 < n := Nat.lt_of_le_of_lt (Nat.zero_le _) hphase
      have hmod := Nat.mod_lt (phase + 1) hpos
      have hlast : (0 + phase) % n = n - 1 ↔ phase + 1 = n := by
        rw [Nat.zero_add, Nat.mod_eq_of_lt hphase]
        omega
      rw [phaseAfter, List.length_cons]
      by_cases hkind : isTerm = decide (phase + 1 = n)
      · have hnext : (if isTerm then 0 else phase + 1) = (phase + 1) % n := by
          by_cases hn : phase + 1 = n
          · rw [hkind, decide_eq_true hn, if_pos rfl, hn, Nat.mod_self]
          · rw [hkind, decide_eq_false hn, if_neg Bool.false_ne_true, Nat.mod_eq_of_lt (by omega)]
        have hrest : Rectangular n phase (isTerm :: rest) ↔
            Rectangular n ((phase + 1) % n) rest := by
          constructor
          · intro hall j other hget
            rw [Nat.add_mod_mod, show j + (phase + 1) = j + 1 + phase by omega]
            exact hall (j + 1) other hget
          · intro hall j other hget
            cases j with
            | zero =>
                cases hget
                rw [hlast, hkind, decide_eq_true_eq]
            | succ j =>
                have hkept := hall j other hget
                rwa [Nat.add_mod_mod, show j + (phase + 1) = j + 1 + phase by omega] at hkept
        rw [if_pos hkind, hnext, ih hmod, hrest, Nat.mod_add_mod,
          show phase + 1 + rest.length = phase + (rest.length + 1) by omega]
      · rw [if_neg hkind]
        constructor
        · intro hfalse
          cases hfalse
        · rintro ⟨hall, -⟩
          have hfirst := hall 0 isTerm rfl
          rw [hlast] at hfirst
          refine absurd ?_ hkind
          by_cases hn : phase + 1 = n
          · rw [decide_eq_true hn, hfirst.mpr hn]
          · rw [decide_eq_false hn]
            exact Bool.eq_false_of_not_eq_true fun htrue => hn (hfirst.mp htrue)

theorem and_and_neg_ne_zero {src mask : Mask} (hmask : mask ≠ 0) :
    src &&& (mask &&& -mask) ≠ 0 ↔ src.getLsbD mask.ctz.toNat = true := by
  constructor
  · intro hne
    have hbit := BitVec.getLsbD_true_ctz_of_ne_zero hne
    rw [BitVec.getLsbD_and, Bool.and_eq_true, getLsbD_and_neg hmask, decide_eq_true_eq] at hbit
    rw [← hbit.2]
    exact hbit.1
  · intro hbit hzero
    have hand := BitVec.getLsbD_and (x := src) (y := mask &&& -mask) (i := mask.ctz.toNat)
    rw [hzero, getLsbD_and_neg hmask, hbit, decide_eq_true rfl] at hand
    exact absurd hand.symm (by simp)

theorem getLsbD_pextLoop (src : Mask) (fuel : ℕ) (mask : Mask) (outPos : ℕ) (result : Mask)
    (hfuel : (ones mask).length ≤ fuel) (hfits : outPos + (ones mask).length ≤ 64)
    (hresult : ∀ i, outPos ≤ i → result.getLsbD i = false) (i : ℕ) :
    (pextLoop src fuel mask outPos result).getLsbD i =
      if i < outPos then result.getLsbD i
      else ((ones mask).map src.getLsbD)[i - outPos]?.getD false := by
  induction fuel generalizing mask outPos result with
  | zero =>
      have hnil : ones mask = [] := List.length_eq_zero_iff.mp (by omega)
      rw [pextLoop, hnil, List.map_nil, List.getElem?_nil, Option.getD_none]
      split_ifs with hi
      · rfl
      · exact hresult i (by omega)
  | succ fuel ih =>
      rw [pextLoop]
      by_cases hmask : mask = 0
      · rw [if_pos hmask, hmask, ones_zero, List.map_nil, List.getElem?_nil, Option.getD_none]
        split_ifs with hi
        · rfl
        · exact hresult i (by omega)
      · rw [if_neg hmask]
        simp only
        have hones := ones_cons hmask
        have hlength := congrArg List.length hones
        rw [List.length_cons] at hlength
        set result' := if src &&& (mask &&& -mask) ≠ 0 then result ||| ((1 : Mask) <<< outPos)
          else result with hresult'
        have hbits : ∀ j, result'.getLsbD j =
            if j = outPos then src.getLsbD mask.ctz.toNat else result.getLsbD j := by
          intro j
          have hset := @and_and_neg_ne_zero src _ hmask
          by_cases hne : src &&& (mask &&& -mask) ≠ 0
          · rw [hresult', if_pos hne, BitVec.getLsbD_or, getLsbD_one_shiftLeft (by omega),
              hset.mp hne]
            by_cases hj : j = outPos
            · simp [hj]
            · simp [hj]
          · have hfalse : src.getLsbD mask.ctz.toNat = false :=
              Bool.eq_false_of_not_eq_true fun htrue => hne (hset.mpr htrue)
            rw [hresult', if_neg hne, hfalse]
            by_cases hj : j = outPos
            · rw [if_pos hj, hj, hresult outPos le_rfl]
            · rw [if_neg hj]
        rw [ih (mask &&& (mask - 1)) (outPos + 1) result' (by omega) (by omega) fun j hj => by
          rw [hbits, if_neg (by omega)]
          exact hresult j (by omega), hones, List.map_cons]
        rcases Nat.lt_trichotomy i outPos with hlt | rfl | hgt
        · rw [if_pos (by omega), if_pos hlt, hbits, if_neg (by omega)]
        · rw [if_pos (Nat.lt_succ_self i), if_neg (lt_irrefl i), Nat.sub_self, hbits, if_pos rfl,
            List.getElem?_cons_zero, Option.getD_some]
        · rw [if_neg (by omega), if_neg (by omega),
            show i - outPos = i - (outPos + 1) + 1 by omega, List.getElem?_cons_succ]

/-- The extracted bits are the kinds of the boundaries. -/
theorem getLsbD_pext (term dStruct : Mask) (i : ℕ) :
    (pext term dStruct).getLsbD i = (kinds dStruct term)[i]?.getD false := by
  have hle := countOnes_le dStruct
  rw [countOnes_eq] at hle
  rw [pext, getLsbD_pextLoop term 64 dStruct 0 0 hle (by omega) (fun j _ => BitVec.getLsbD_zero),
    if_neg (Nat.not_lt_zero i), Nat.sub_zero, kinds]

theorem getLsbD_rotations {counter : FieldCounter} (hphase : counter.phase < counter.n)
    {i : ℕ} (hi : i < 64) :
    (counter.rotations counter.phase).getLsbD i =
      decide ((i + counter.phase) % counter.n = counter.n - 1) := by
  rw [FieldCounter.rotations, if_pos hphase, expectedPattern, getLsbD_maskOf, decide_eq_true hi,
    Bool.true_and]
  rfl

theorem getLsbD_countMask {count : ℕ} (hcount : count ≤ 64) {i : ℕ} (hi : i < 64) :
    (if count = 64 then ~~~0 else ((1 : Mask) <<< count) - 1).getLsbD i = decide (i < count) := by
  by_cases hfull : count = 64
  · rw [if_pos hfull, BitVec.getLsbD_not, show (0 : Mask).getLsbD i = false from
      BitVec.getLsbD_zero, decide_eq_true hi, hfull, decide_eq_true hi]
    rfl
  · rw [if_neg hfull, getLsbD_low (by omega)]

/-- The pattern matches where every boundary completes a record exactly when it is a
terminator. -/
theorem rectangular_iff_pattern {counter : FieldCounter} (hphase : counter.phase < counter.n)
    (dStruct term : Mask) :
    Rectangular counter.n counter.phase (kinds dStruct term) ↔
      (pext term dStruct ^^^ counter.rotations counter.phase) &&&
        (if countOnes dStruct = 64 then ~~~0 else ((1 : Mask) <<< countOnes dStruct) - 1) = 0 := by
  have hcount := countOnes_le dStruct
  have hlength := length_kinds dStruct term
  constructor
  · intro hall
    apply BitVec.eq_of_getLsbD_eq
    intro i hi
    rw [BitVec.getLsbD_and, BitVec.getLsbD_xor, getLsbD_countMask hcount hi, getLsbD_pext,
      getLsbD_rotations hphase hi, show (0 : Mask).getLsbD i = false from BitVec.getLsbD_zero]
    by_cases hlt : i < countOnes dStruct
    · have hget := List.getElem?_eq_getElem (hlength ▸ hlt)
      have hkind := hall i _ hget
      rw [hget, Option.getD_some, decide_eq_true hlt, Bool.and_true]
      cases hb : (kinds dStruct term)[i] with
      | true =>
          rw [decide_eq_true (hkind.mp hb)]
          rfl
      | false =>
          rw [decide_eq_false fun hmod => Bool.false_ne_true (hb.symm.trans (hkind.mpr hmod))]
          rfl
    · rw [decide_eq_false hlt, Bool.and_false]
  · intro hzero j isTerm hget
    have hlt := (List.getElem?_eq_some_iff.mp hget).1
    rw [hlength] at hlt
    have hbit := congrArg (fun m : Mask => m.getLsbD j) hzero
    rw [BitVec.getLsbD_and, BitVec.getLsbD_xor, getLsbD_countMask hcount (by omega),
      getLsbD_pext, getLsbD_rotations hphase (by omega), hget, Option.getD_some,
      decide_eq_true hlt, Bool.and_true,
      show (0 : Mask).getLsbD j = false from BitVec.getLsbD_zero] at hbit
    have hsame := bne_eq_false_iff_eq.mp hbit
    rw [hsame, decide_eq_true_eq]

/-- Past the last terminator, the boundaries of the record in flight are left. -/
theorem phase_of_last_terminator {n phase h : ℕ} {boundaries : List Bool} (hphase : phase < n)
    (hall : Rectangular n phase boundaries) (hlast : boundaries[h]? = some true)
    (hlater : ∀ j : ℕ, h < j → boundaries[j]? ≠ some true) :
    (phase + boundaries.length) % n = boundaries.length - h - 1 := by
  have hlt := (List.getElem?_eq_some_iff.mp hlast).1
  have hmod := (hall h true hlast).mp rfl
  have hdiv := Nat.div_add_mod (h + phase) n
  rw [hmod] at hdiv
  have hshort : boundaries.length - h - 1 < n := by
    by_contra hlong
    have hget : boundaries[h + n]? = some boundaries[h + n] :=
      List.getElem?_eq_getElem (by omega)
    have hterm : boundaries[h + n] = true := by
      refine (hall (h + n) _ hget).mpr ?_
      rw [show h + n + phase = h + phase + n by omega, Nat.add_mod_right, hmod]
    exact hlater (h + n) (by omega) (hterm ▸ hget)
  have hsum : phase + boundaries.length =
      n * ((h + phase) / n + 1) + (boundaries.length - h - 1) := by
    rw [Nat.mul_add, Nat.mul_one]
    omega
  rw [hsum, Nat.mul_add_mod, Nat.mod_eq_of_lt hshort]

/-- Without a terminator, a record in flight goes on. -/
theorem phase_of_no_terminator {n phase : ℕ} {boundaries : List Bool} (hphase : phase < n)
    (hall : Rectangular n phase boundaries) (hnone : ∀ j : ℕ, boundaries[j]? ≠ some true) :
    (phase + boundaries.length) % n = phase + boundaries.length := by
  apply Nat.mod_eq_of_lt
  by_contra hlong
  have hget : boundaries[n - 1 - phase]? = some boundaries[n - 1 - phase] :=
    List.getElem?_eq_getElem (by omega)
  have hterm : boundaries[n - 1 - phase] = true := by
    refine (hall (n - 1 - phase) _ hget).mpr ?_
    rw [show n - 1 - phase + phase = n - 1 by omega, Nat.mod_eq_of_lt (by omega)]
  exact hnone _ (hterm ▸ hget)

/-- A verifier that takes the boundaries one at a time; a rejected vector leaves the counter
as it was. -/
def FieldCounter.accept (counter : FieldCounter) (boundaries : List Bool) : FieldCounter × Bool :=
  match phaseAfter counter.n counter.phase boundaries with
  | some phase => ({ counter with phase := phase }, true)
  | none => (counter, false)

/-- The highest extracted bit is a boundary that is a terminator. -/
theorem kinds_of_pext_ne_zero {term dStruct : Mask} (hp : pext term dStruct ≠ 0) :
    (kinds dStruct term)[64 - 1 - leadingZeros (pext term dStruct)]? = some true := by
  have htop := BitVec.getLsbD_true_clz_of_ne_zero (by decide) hp
  rw [getLsbD_pext] at htop
  rw [leadingZeros]
  cases hget : (kinds dStruct term)[64 - 1 - (pext term dStruct).clz.toNat]? with
  | none =>
      rw [hget] at htop
      cases htop
  | some isTerm =>
      rw [hget, Option.getD_some] at htop
      rw [htop]

/-- Extracted bits lie below the number of boundaries. -/
theorem le_countOnes_add_leadingZeros (term dStruct : Mask) :
    64 ≤ countOnes dStruct + leadingZeros (pext term dStruct) := by
  by_cases hp : pext term dStruct = 0
  · have hlead : leadingZeros (pext term dStruct) = 64 := by
      rw [hp]
      rfl
    omega
  · have hlt := (List.getElem?_eq_some_iff.mp (kinds_of_pext_ne_zero hp)).1
    rw [length_kinds] at hlt
    omega

/-- What the extracting verifier comes to. -/
theorem verifyPext_spec {counter : FieldCounter} (hn : counter.n ≤ 63)
    (hphase : counter.phase < counter.n) (dStruct term : Mask) :
    counter.verifyPext dStruct term = counter.accept (kinds dStruct term) := by
  have hlength := length_kinds dStruct term
  have hpattern := rectangular_iff_pattern hphase dStruct term
  have hafter := phaseAfter_eq_some hphase (kinds dStruct term)
  have hindex : counter.phase % 64 = counter.phase := Nat.mod_eq_of_lt (by omega)
  rw [FieldCounter.verifyPext, FieldCounter.accept]
  simp only [hindex]
  by_cases hzero : countOnes dStruct = 0
  · rw [if_pos hzero, List.length_eq_zero_iff.mp (hlength.trans hzero)]
    rfl
  · rw [if_neg hzero]
    by_cases hall : Rectangular counter.n counter.phase (kinds dStruct term)
    · rw [if_neg (not_not.mpr (hpattern.mp hall)), (hafter _).mpr ⟨hall, rfl⟩, hlength]
      simp only [Prod.mk.injEq, FieldCounter.mk.injEq, and_true, true_and]
      rw [← hlength]
      by_cases hp : pext term dStruct = 0
      · have hnone : ∀ j : ℕ, (kinds dStruct term)[j]? ≠ some true := by
          intro j hj
          have hbit := getLsbD_pext term dStruct j
          rw [hp, hj, show (0 : Mask).getLsbD j = false from BitVec.getLsbD_zero] at hbit
          cases hbit
        have hlead : leadingZeros (pext term dStruct) = 64 := by
          rw [hp]
          rfl
        rw [phase_of_no_terminator hphase hall hnone, if_pos hp, hlead]
        omega
      · have hclz := BitVec.clz_lt_iff_ne_zero.mpr hp
        have hlast := kinds_of_pext_ne_zero hp
        have hlater : ∀ j : ℕ, 64 - 1 - leadingZeros (pext term dStruct) < j →
            (kinds dStruct term)[j]? ≠ some true := by
          intro j hj hget
          have hbit := getLsbD_pext term dStruct j
          rw [hget, Option.getD_some, BitVec.getLsbD] at hbit
          have hsmall : (pext term dStruct).toNat < 2 ^ j := by
            refine lt_of_lt_of_le BitVec.toNat_lt_two_pow_sub_clz
              (Nat.pow_le_pow_right (by omega) ?_)
            rw [leadingZeros] at hj
            omega
          rw [Nat.testBit_lt_two_pow hsmall] at hbit
          cases hbit
        have hlt := (List.getElem?_eq_some_iff.mp hlast).1
        have hsmall : leadingZeros (pext term dStruct) < 64 := hclz
        rw [phase_of_last_terminator hphase hall hlast hlater, if_neg hp]
        omega
    · rw [if_pos fun hmatch => hall (hpattern.mpr hmatch)]
      cases hnext : phaseAfter counter.n counter.phase (kinds dStruct term) with
      | none => rfl
      | some phase => exact absurd ((hafter phase).mp hnext).1 hall

/-- Below its lowest bit, a word selects the boundaries before it. -/
theorem countOnes_below {dStruct t : Mask} (ht : t ≠ 0) {before after : List ℕ}
    (hones : ones dStruct = before ++ t.ctz.toNat :: after) :
    countOnes (dStruct &&& ((t &&& -t) - 1)) = before.length := by
  have hsorted := pairwise_ones dStruct
  rw [hones, List.pairwise_append, List.pairwise_cons] at hsorted
  obtain ⟨hbefore, ⟨hafter, -⟩, hacross⟩ := hsorted
  rw [countOnes_eq]
  refine congrArg List.length (ones_eq hbefore fun i => ?_)
  rw [BitVec.getLsbD_and, getLsbD_and_neg_sub_one ht, Bool.and_eq_true, decide_eq_true_eq,
    ← mem_ones, hones, List.mem_append, List.mem_cons]
  constructor
  · intro hi
    exact ⟨.inl hi, hacross i hi _ List.mem_cons_self⟩
  · rintro ⟨hi | rfl | hi, hlt⟩
    · exact hi
    · exact absurd hlt (lt_irrefl _)
    · exact absurd hlt (Nat.not_lt.mpr (hafter i hi).le)

/-- Delimiters alone keep the record in flight as long as it has fields left. -/
theorem phaseAfter_delimiters {n phase : ℕ} (hphase : phase < n) (m : ℕ) (rest : List Bool) :
    phaseAfter n phase (List.replicate m false ++ rest) =
      if phase + m < n then phaseAfter n (phase + m) rest else none := by
  induction m generalizing phase with
  | zero => rw [List.replicate_zero, List.nil_append, Nat.add_zero, if_pos hphase]
  | succ m ih =>
      rw [List.replicate_succ, List.cons_append, phaseAfter]
      by_cases hlast : phase + 1 = n
      · rw [decide_eq_true hlast, if_neg Bool.false_ne_true, if_neg (by omega)]
      · rw [decide_eq_false hlast, if_pos rfl, if_neg Bool.false_ne_true, ih (by omega),
          show phase + 1 + m = phase + (m + 1) by omega]

theorem map_of_no_terminator {term : Mask} {positions : List ℕ}
    (h : ∀ i ∈ positions, ¬ term.getLsbD i = true) :
    positions.map term.getLsbD = List.replicate positions.length false := by
  rw [List.eq_replicate_iff, List.length_map]
  refine ⟨rfl, fun isTerm hmem => ?_⟩
  obtain ⟨i, hi, rfl⟩ := List.mem_map.mp hmem
  exact Bool.eq_false_of_not_eq_true (h i hi)

/-- Without a terminator left, only the number of delimiters counts. -/
theorem phaseAfter_of_no_terminator {dStruct term : Mask} {n c phase : ℕ} (hphase : phase < n)
    (ht : ((ones dStruct).drop c).filter term.getLsbD = []) :
    (if n ≤ phase + (countOnes dStruct - c) then none
      else some (phase + (countOnes dStruct - c))) =
        phaseAfter n phase ((kinds dStruct term).drop c) := by
  rw [List.filter_eq_nil_iff] at ht
  rw [kinds, ← List.map_drop, map_of_no_terminator ht, List.length_drop, ← countOnes_eq,
    ← List.append_nil (List.replicate _ _), phaseAfter_delimiters hphase]
  by_cases hlt : phase + (countOnes dStruct - c) < n
  · rw [if_neg (Nat.not_le.mpr hlt), if_pos hlt, phaseAfter]
  · rw [if_pos (Nat.not_lt.mp hlt), if_neg hlt]

/-- The walk, from past `c` boundaries on: `expect` is where the record in flight should end,
`phase` what it would have without a further terminator. -/
theorem terminatorLoop_spec (dStruct term : Mask) {n : ℕ} (fuel : ℕ) {t : Mask} {c phase : ℕ}
    (hphase : phase < n) (ht : ones t = ((ones dStruct).drop c).filter term.getLsbD)
    (hfuel : (ones t).length ≤ fuel) :
    ((FieldCounter.terminatorLoop dStruct n (countOnes dStruct) fuel t (c + (n - 1 - phase))
      (phase + (countOnes dStruct - c))).bind fun phase => if n ≤ phase then none else some phase) =
      phaseAfter n phase ((kinds dStruct term).drop c) := by
  induction fuel generalizing t c phase with
  | zero =>
      have hzero : t = 0 := ones_eq_nil.mp (List.length_eq_zero_iff.mp (Nat.le_zero.mp hfuel))
      rw [FieldCounter.terminatorLoop, Option.bind_some]
      exact phaseAfter_of_no_terminator hphase (by rw [← ht, hzero, ones_zero])
  | succ fuel ih =>
      rw [FieldCounter.terminatorLoop]
      by_cases hzero : t = 0
      · rw [if_pos hzero, Option.bind_some]
        exact phaseAfter_of_no_terminator hphase (by rw [← ht, hzero, ones_zero])
      · rw [if_neg hzero]
        simp only
        have hcons := ones_cons hzero
        rw [hcons, eq_comm, List.filter_eq_cons_iff] at ht
        obtain ⟨delims, after, hdrop, hdelims, hterm, hafter⟩ := ht
        have hones : ones dStruct = ((ones dStruct).take c ++ delims) ++ t.ctz.toNat :: after := by
          rw [List.append_assoc, ← hdrop, List.take_append_drop]
        have hlength := congrArg List.length hones
        rw [← countOnes_eq, List.length_append, List.length_cons] at hlength
        have hc : c ≤ countOnes dStruct := by
          by_contra hlong
          rw [List.drop_eq_nil_of_le (by rw [← countOnes_eq]; omega)] at hdrop
          cases delims <;> cases hdrop
        have hrank : ((ones dStruct).take c ++ delims).length = c + delims.length := by
          rw [List.length_append, List.length_take, ← countOnes_eq, Nat.min_eq_left hc]
        have hkinds : (kinds dStruct term).drop c =
            List.replicate delims.length false ++ true :: after.map term.getLsbD := by
          rw [kinds, ← List.map_drop, hdrop, List.map_append, List.map_cons,
            map_of_no_terminator hdelims, hterm]
        rw [countOnes_below hzero hones, hrank, hkinds, phaseAfter_delimiters hphase, phaseAfter]
        have hskip : (ones dStruct).drop (c + delims.length + 1) = after := by
          rw [hones, List.drop_append, List.drop_eq_nil_of_le (by omega), hrank,
            show c + delims.length + 1 - (c + delims.length) = 1 by omega]
          rfl
        by_cases hexpect : c + delims.length = c + (n - 1 - phase)
        · rw [if_neg (not_not.mpr hexpect), if_pos (by omega),
            decide_eq_true (show phase + delims.length + 1 = n by omega), if_pos rfl, if_pos rfl]
          have hnext := @ih (t &&& (t - 1)) (c + delims.length + 1) 0
            (by omega) (by rw [hskip, hafter]) (by rw [hcons, List.length_cons] at hfuel; omega)
          have hskip' : (kinds dStruct term).drop (c + delims.length + 1) =
              after.map term.getLsbD := by rw [kinds, ← List.map_drop, hskip]
          rw [hskip'] at hnext
          rw [← hnext]
          congr 2 <;> omega
        · rw [if_pos hexpect, Option.bind_none]
          by_cases hlt : phase + delims.length < n
          · rw [if_pos hlt, if_neg fun hkind => hexpect (by
              have hsum := of_decide_eq_true hkind.symm
              omega)]
          · rw [if_neg hlt]

/-- What the walk over the terminators comes to. -/
theorem verifyByTerminators_spec {counter : FieldCounter} (hphase : counter.phase < counter.n)
    (dStruct term : Mask) :
    counter.verifyByTerminators dStruct term = counter.accept (kinds dStruct term) := by
  have hterms : ones (term &&& dStruct) = ((ones dStruct).drop 0).filter term.getLsbD := by
    refine ones_eq ((pairwise_ones dStruct).filter _) fun i => ?_
    rw [List.drop_zero, List.mem_filter, mem_ones, BitVec.getLsbD_and, Bool.and_eq_true, and_comm]
  have hfuel := countOnes_le (term &&& dStruct)
  rw [countOnes_eq] at hfuel
  have hloop := terminatorLoop_spec dStruct term 64 hphase hterms hfuel
  rw [Nat.zero_add, Nat.sub_zero, List.drop_zero] at hloop
  rw [FieldCounter.verifyByTerminators, FieldCounter.accept, ← hloop]
  cases FieldCounter.terminatorLoop dStruct counter.n (countOnes dStruct) 64 (term &&& dStruct)
      (counter.n - 1 - counter.phase) (counter.phase + countOnes dStruct) with
  | none => rfl
  | some phase =>
      rw [Option.bind_some]
      by_cases hlong : counter.n ≤ phase
      · rw [if_pos hlong]
        exact if_pos hlong
      · rw [if_neg hlong]
        exact if_neg hlong

theorem verify_spec {counter : FieldCounter} (hn : counter.n ≤ 63)
    (hphase : counter.phase < counter.n) (dStruct term : Mask) :
    counter.verify dStruct term = counter.accept (kinds dStruct term) := by
  rw [FieldCounter.verify]
  split_ifs
  · exact verifyPext_spec hn hphase dStruct term
  · exact verifyByTerminators_spec hphase dStruct term

namespace FieldCounter

/-- A method of the counter: its next state and the verdict on a vector. -/
abbrev Method : Type := FieldCounter → Mask → Mask → FieldCounter × Bool

def after (method : Method) (counter : FieldCounter) (vectors : List (Mask × Mask)) :
    FieldCounter :=
  vectors.foldl (fun counter vector => (method counter vector.1 vector.2).1) counter

/-- Counter and verdict after each call over a stream of vectors. -/
def outcomes (method : Method) : FieldCounter → List (Mask × Mask) → List (FieldCounter × Bool)
  | _, [] => []
  | counter, (dStruct, term) :: rest =>
      let outcome := method counter dStruct term
      outcome :: outcomes method outcome.1 rest

/-- The subtractions of both verifiers stay at or above zero: the first expected terminator,
the boundaries past a terminator, and the phase an extraction leaves. -/
def NoUnderflow (counter : FieldCounter) (dStruct term : Mask) : Prop :=
  1 + counter.phase ≤ counter.n ∧
    (∀ t : Mask, t ≠ 0 → t &&& dStruct = t →
      countOnes (dStruct &&& ((t &&& -t) - 1)) + 1 ≤ countOnes dStruct) ∧
    64 ≤ countOnes dStruct + leadingZeros (pext term dStruct)

theorem noUnderflow {counter : FieldCounter} (hphase : counter.phase < counter.n)
    (dStruct term : Mask) : counter.NoUnderflow dStruct term := by
  refine ⟨by omega, fun t ht hsub => ?_, le_countOnes_add_leadingZeros term dStruct⟩
  have hlow := BitVec.getLsbD_true_ctz_of_ne_zero ht
  rw [← hsub, BitVec.getLsbD_and, Bool.and_eq_true, hsub] at hlow
  obtain ⟨before, after, hones⟩ := List.append_of_mem (mem_ones.mpr hlow.2)
  have hlength := congrArg List.length hones
  rw [List.length_append, List.length_cons, ← countOnes_eq] at hlength
  rw [countOnes_below ht hones]
  omega

theorem accept_n (counter : FieldCounter) (boundaries : List Bool) :
    (counter.accept boundaries).1.n = counter.n := by
  rw [accept]
  split <;> rfl

theorem accept_lt {counter : FieldCounter} (hphase : counter.phase < counter.n)
    (boundaries : List Bool) :
    (counter.accept boundaries).1.phase < (counter.accept boundaries).1.n := by
  rw [accept]
  split
  · next phase hnext => exact phaseAfter_lt hphase hnext
  · exact hphase

/-- Counting the boundaries one at a time, as a method. -/
def acceptMethod : Method := fun counter dStruct term => counter.accept (kinds dStruct term)

def boundaries (vectors : List (Mask × Mask)) : List Bool :=
  vectors.flatMap fun vector => kinds vector.1 vector.2

/-- A method that counts like `accept` wherever the phase is below the arity. -/
def Counts (n : ℕ) (method : Method) : Prop :=
  ∀ counter : FieldCounter, counter.n = n → counter.phase < n → ∀ dStruct term,
    method counter dStruct term = acceptMethod counter dStruct term

section Streams

variable {n : ℕ} {method : Method} {counter : FieldCounter}

theorem Counts.outcomes_eq (h : Counts n method) (hn : counter.n = n) (hphase : counter.phase < n)
    (vectors : List (Mask × Mask)) :
    outcomes method counter vectors = outcomes acceptMethod counter vectors := by
  induction vectors generalizing counter with
  | nil => rfl
  | cons vector rest ih =>
      obtain ⟨dStruct, term⟩ := vector
      have hn' : (acceptMethod counter dStruct term).1.n = n := (accept_n counter _).trans hn
      have hphase' : (acceptMethod counter dStruct term).1.phase < n :=
        hn' ▸ accept_lt (hn.symm ▸ hphase) _
      rw [outcomes, outcomes, h counter hn hphase, ih hn' hphase']

theorem Counts.after_eq (h : Counts n method) (hn : counter.n = n) (hphase : counter.phase < n)
    (vectors : List (Mask × Mask)) :
    after method counter vectors = after acceptMethod counter vectors ∧
      (after method counter vectors).n = n ∧ (after method counter vectors).phase < n := by
  induction vectors generalizing counter with
  | nil => exact ⟨rfl, hn, hphase⟩
  | cons vector rest ih =>
      obtain ⟨dStruct, term⟩ := vector
      have hn' : (acceptMethod counter dStruct term).1.n = n := (accept_n counter _).trans hn
      have hphase' : (acceptMethod counter dStruct term).1.phase < n :=
        hn' ▸ accept_lt (hn.symm ▸ hphase) _
      have hstep : after method counter ((dStruct, term) :: rest) =
          after method (acceptMethod counter dStruct term).1 rest :=
        congrArg (after method · rest) (congrArg Prod.fst (h counter hn hphase dStruct term))
      rw [hstep]
      exact ih hn' hphase'

/-- The verdicts on a stream are the verdict on its boundaries taken together. -/
theorem phaseAfter_boundaries (counter : FieldCounter) (vectors : List (Mask × Mask))
    (phase : ℕ) : phaseAfter counter.n counter.phase (boundaries vectors) = some phase ↔
      (∀ outcome ∈ outcomes acceptMethod counter vectors, outcome.2 = true) ∧
        (after acceptMethod counter vectors).phase = phase := by
  induction vectors generalizing counter with
  | nil => simp [outcomes, boundaries, phaseAfter, after]
  | cons vector rest ih =>
      obtain ⟨dStruct, term⟩ := vector
      rw [boundaries, List.flatMap_cons, phaseAfter_append, outcomes]
      simp only [List.mem_cons, forall_eq_or_imp]
      have hstep : after acceptMethod counter ((dStruct, term) :: rest) =
          after acceptMethod (acceptMethod counter dStruct term).1 rest := rfl
      rw [hstep]
      cases hnext : phaseAfter counter.n counter.phase (kinds dStruct term) with
      | none =>
          have hreject : (acceptMethod counter dStruct term).2 = false := by
            rw [acceptMethod, accept, hnext]
          simp [hreject]
      | some next =>
          have haccept : acceptMethod counter dStruct term =
              ({ counter with phase := next }, true) := by
            rw [acceptMethod, accept, hnext]
          rw [haccept, Option.bind_some]
          simp only [true_and]
          exact ih { counter with phase := next }

end Streams

/-- Streams of vectors from a fresh counter: all calls accept exactly the streams in which the
boundaries that complete a record are the terminators; the phase is then the count of
boundaries modulo the arity; both verifiers give the same verdicts and phases throughout, and
neither subtracts below zero. -/
theorem verify_stream (isa : Isa) {n : ℕ} (hpos : 1 ≤ n) (hle : n ≤ 63)
    (vectors : List (Mask × Mask)) :
    ((∀ outcome ∈ outcomes verify (new isa n) vectors, outcome.2 = true) ↔
        ∀ j isTerm, (boundaries vectors)[j]? = some isTerm →
          (isTerm = true ↔ j % n = n - 1)) ∧
      ((∀ outcome ∈ outcomes verify (new isa n) vectors, outcome.2 = true) →
        (after verify (new isa n) vectors).phase = (boundaries vectors).length % n) ∧
      (after verify (new isa n) vectors).phase < n ∧
      (∀ dStruct term, (after verify (new isa n) vectors).NoUnderflow dStruct term) ∧
      outcomes verifyPext (new isa n) vectors = outcomes verify (new isa n) vectors ∧
      outcomes verifyByTerminators (new isa n) vectors =
        outcomes verify (new isa n) vectors := by
  have hcounts : Counts n verify := fun counter hn hphase =>
    verify_spec (hn.symm ▸ hle) (hn.symm ▸ hphase)
  have hpext : Counts n verifyPext := fun counter hn hphase =>
    verifyPext_spec (hn.symm ▸ hle) (hn.symm ▸ hphase)
  have hwalk : Counts n verifyByTerminators := fun counter hn hphase =>
    verifyByTerminators_spec (hn.symm ▸ hphase)
  have hn : (new isa n).n = n := rfl
  have hphase : (new isa n).phase < n := hpos
  obtain ⟨hafter, hafterN, hlt⟩ := hcounts.after_eq hn hphase vectors
  rw [hcounts.outcomes_eq hn hphase, hpext.outcomes_eq hn hphase, hwalk.outcomes_eq hn hphase]
  have hverdicts : (∀ outcome ∈ outcomes acceptMethod (new isa n) vectors, outcome.2 = true) →
      Rectangular n 0 (boundaries vectors) ∧
        (after acceptMethod (new isa n) vectors).phase = (0 + (boundaries vectors).length) % n :=
    fun hall => (phaseAfter_eq_some hpos _ _).mp
      ((phaseAfter_boundaries (new isa n) vectors _).mpr ⟨hall, rfl⟩)
  refine ⟨⟨fun hall => (hverdicts hall).1, fun hrect => ?_⟩, fun hall => ?_, hlt, ?_, rfl, rfl⟩
  · have hsome := (phaseAfter_eq_some hpos _ _).mpr ⟨hrect, rfl⟩
    exact ((phaseAfter_boundaries (new isa n) vectors _).mp hsome).1
  · rw [hafter, (hverdicts hall).2, Nat.zero_add]
  · intro dStruct term
    exact noUnderflow (by omega) dStruct term

/-- A record of two fields over two vectors, and the first field of the next. -/
theorem verify_stream_seam :
    (after verify (new ⟨false⟩ 2) [(1, 0), (3, 1)]).phase = 1 := by
  obtain ⟨-, hphase, -⟩ :=
    verify_stream ⟨false⟩ (n := 2) (by decide) (by decide) [(1, 0), (3, 1)]
  exact (hphase (by decide +kernel)).trans (by decide +kernel)

end FieldCounter

end Csveee.Simd
