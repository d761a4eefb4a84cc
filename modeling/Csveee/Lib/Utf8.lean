import Mathlib.Data.List.Basic
import Mathlib.Data.Nat.Basic
import Mathlib.Tactic.Common

/-!
# UTF-8

The encoding form as a grammar over octets, and the validator that reads it off
octet by octet: it accepts exactly the strings the grammar derives, and reports
how far the input is valid and whether more input could still repair it.
-/

namespace Utf8

abbrev Octet := UInt8

/-- A continuation octet. -/
def isTail (b : Octet) : Bool := decide (0x80 ≤ b) && decide (b ≤ 0xBF)

/-- A lead octet of a multi-octet character determines the character's width
and the range of its second octet. -/
def leadRange (lead : Octet) : Option (ℕ × Octet × Octet) :=
  if lead < 0xC2 then none
  else if lead ≤ 0xDF then some (2, 0x80, 0xBF)
  else if lead = 0xE0 then some (3, 0xA0, 0xBF)
  else if lead ≤ 0xEC then some (3, 0x80, 0xBF)
  else if lead = 0xED then some (3, 0x80, 0x9F)
  else if lead ≤ 0xEF then some (3, 0x80, 0xBF)
  else if lead = 0xF0 then some (4, 0x90, 0xBF)
  else if lead ≤ 0xF3 then some (4, 0x80, 0xBF)
  else if lead = 0xF4 then some (4, 0x80, 0x8F)
  else none

/-- The encodings of single characters. -/
inductive IsChar : List Octet → Prop
  | ascii {a : Octet} : a < 0x80 → IsChar [a]
  | two {a b lo hi : Octet} : leadRange a = some (2, lo, hi) →
      lo ≤ b → b ≤ hi → IsChar [a, b]
  | three {a b c lo hi : Octet} : leadRange a = some (3, lo, hi) →
      lo ≤ b → b ≤ hi → isTail c = true → IsChar [a, b, c]
  | four {a b c d lo hi : Octet} : leadRange a = some (4, lo, hi) →
      lo ≤ b → b ≤ hi → isTail c = true → isTail d = true → IsChar [a, b, c, d]

/-- A string is a sequence of encoded characters. -/
inductive Valid : List Octet → Prop
  | nil : Valid []
  | cons {char rest : List Octet} : IsChar char → Valid rest → Valid (char ++ rest)

/-- The width of the character the octets start with.  `none` reports input
that ends inside a character, `some n` an invalid sequence of `n` octets. -/
def charWidth : List Octet → Except (Option ℕ) ℕ
  | [] => .error none
  | a :: rest =>
      if a < 0x80 then .ok 1
      else match leadRange a with
        | none => .error (some 1)
        | some (width, lo, hi) =>
            match rest with
            | [] => .error none
            | b :: rest =>
                if !(decide (lo ≤ b) && decide (b ≤ hi)) then .error (some 1)
                else if width = 2 then .ok 2
                else match rest with
                  | [] => .error none
                  | c :: rest =>
                      if !isTail c then .error (some 2)
                      else if width = 3 then .ok 3
                      else match rest with
                        | [] => .error none
                        | d :: _ => if isTail d then .ok 4 else .error (some 3)

theorem four_of_leadRange {a lo hi : Octet} {width : ℕ}
    (h : leadRange a = some (width, lo, hi)) (h2 : width ≠ 2) (h3 : width ≠ 3) :
    width = 4 := by
  simp only [leadRange] at h
  split_ifs at h <;> cases h <;> first | rfl | exact absurd rfl h2 | exact absurd rfl h3

/-- Validate character by character; the error carries the offset reached. -/
def validateFrom : ℕ → ℕ → List Octet → Except (ℕ × Option ℕ) Unit
  | 0, _, _ => .ok ()
  | _ + 1, _, [] => .ok ()
  | fuel + 1, offset, octets =>
      match charWidth octets with
      | .ok width => validateFrom fuel (offset + width) (octets.drop width)
      | .error errorLen => .error (offset, errorLen)

/-- `from_utf8`: success, or `(valid_up_to, error_len)`. -/
def fromUtf8 (octets : List Octet) : Except (ℕ × Option ℕ) Unit :=
  validateFrom octets.length 0 octets

theorem charWidth_spec {octets : List Octet} {width : ℕ}
    (h : charWidth octets = .ok width) :
    0 < width ∧ width ≤ octets.length ∧ IsChar (octets.take width) := by
  cases octets with
  | nil => cases h
  | cons a rest =>
      rw [charWidth] at h
      split at h
      · rename_i hascii
        cases h
        exact ⟨Nat.one_pos, by simp, .ascii hascii⟩
      · split at h
        · cases h
        · rename_i w lo hi hlead
          cases rest with
          | nil => cases h
          | cons b rest =>
              simp only at h
              split at h
              · cases h
              · rename_i hrange
                simp only [Bool.not_eq_eq_eq_not, Bool.not_true, Bool.not_eq_false,
                  Bool.and_eq_true, decide_eq_true_eq] at hrange
                split at h
                · rename_i hw
                  cases h
                  exact ⟨by omega, by simp, .two (hw ▸ hlead) hrange.1 hrange.2⟩
                · cases rest with
                  | nil => cases h
                  | cons c rest =>
                      simp only at h
                      split at h
                      · cases h
                      · rename_i hc
                        simp only [Bool.not_eq_false, Bool.not_eq_eq_eq_not,
                          Bool.not_true] at hc
                        split at h
                        · rename_i hw
                          cases h
                          exact ⟨by omega, by simp, .three (hw ▸ hlead) hrange.1 hrange.2 hc⟩
                        · cases rest with
                          | nil => cases h
                          | cons d rest =>
                              simp only at h
                              split at h
                              · rename_i hw2 hw3 hd
                                cases h
                                exact ⟨by omega, by simp,
                                  .four (four_of_leadRange hlead hw2 hw3 ▸ hlead)
                                    hrange.1 hrange.2 hc hd⟩
                              · cases h

/-- The prefix before the reported offset is valid, all of it if the whole input
is. -/
theorem validateFrom_spec (fuel offset : ℕ) (octets : List Octet)
    (hfuel : octets.length ≤ fuel) :
    match validateFrom fuel offset octets with
    | .ok () => Valid octets
    | .error (validUpTo, _) => offset ≤ validUpTo ∧ validUpTo ≤ offset + octets.length ∧
        Valid (octets.take (validUpTo - offset)) := by
  induction fuel generalizing offset octets with
  | zero =>
      have hnil : octets = [] := List.eq_nil_of_length_eq_zero (by omega)
      subst hnil
      exact .nil
  | succ fuel ih =>
      cases octets with
      | nil => exact .nil
      | cons a rest =>
          simp only [validateFrom]
          cases hwidth : charWidth (a :: rest) with
          | error errorLen => exact ⟨le_rfl, by omega, by simpa using Valid.nil⟩
          | ok width =>
              obtain ⟨hpos, hle, hchar⟩ := charWidth_spec hwidth
              have hrest := ih (offset + width) ((a :: rest).drop width)
                (by rw [List.length_drop]; omega)
              simp only
              split
              · rename_i hok
                rw [hok] at hrest
                rw [← List.take_append_drop width (a :: rest)]
                exact .cons hchar hrest
              · rename_i validUpTo _ herr
                rw [herr] at hrest
                obtain ⟨hge, hupto, hvalid⟩ := hrest
                rw [List.length_drop] at hupto
                refine ⟨by omega, by omega, ?_⟩
                rw [show validUpTo - offset = width + (validUpTo - (offset + width)) by omega,
                  List.take_add]
                exact .cons hchar hvalid

theorem valid_of_fromUtf8 {octets : List Octet} (h : fromUtf8 octets = .ok ()) :
    Valid octets := by
  have hspec := validateFrom_spec octets.length 0 octets le_rfl
  rw [fromUtf8] at h
  rwa [h] at hspec

theorem validUpTo_spec {octets : List Octet} {validUpTo : ℕ} {errorLen : Option ℕ}
    (h : fromUtf8 octets = .error (validUpTo, errorLen)) :
    validUpTo ≤ octets.length ∧ Valid (octets.take validUpTo) := by
  have hspec := validateFrom_spec octets.length 0 octets le_rfl
  rw [fromUtf8] at h
  rw [h] at hspec
  obtain ⟨-, hle, hvalid⟩ := hspec
  exact ⟨by omega, hvalid⟩

/-! ## The longest valid prefix

Nothing of what follows a character changes how it is read, so a valid prefix behind which
no character follows is the longest one.
-/

/-- Unless the input ends inside a character, more of it changes nothing. -/
theorem charWidth_append {octets : List Octet} (h : charWidth octets ≠ .error none)
    (rest : List Octet) : charWidth (octets ++ rest) = charWidth octets := by
  rcases octets with _ | ⟨a, _ | ⟨b, _ | ⟨c, _ | ⟨d, more⟩⟩⟩⟩
  · exact absurd rfl h
  · simp only [List.cons_append, List.nil_append, charWidth] at h ⊢
    cases hlead : leadRange a <;> simp_all
  · simp only [List.cons_append, List.nil_append, charWidth] at h ⊢
    cases hlead : leadRange a with
    | none => rfl
    | some range => grind
  · simp only [List.cons_append, List.nil_append, charWidth] at h ⊢
    cases hlead : leadRange a with
    | none => rfl
    | some range => grind
  · simp only [List.cons_append, charWidth]

/-- Only input shorter than the longest character ends inside one. -/
theorem length_lt_of_charWidth {octets : List Octet} (h : charWidth octets = .error none) :
    octets.length < 4 := by
  by_contra hlong
  obtain ⟨a, b, c, d, more, rfl⟩ : ∃ a b c d more, octets = a :: b :: c :: d :: more := by
    rcases octets with _ | ⟨a, _ | ⟨b, _ | ⟨c, _ | ⟨d, more⟩⟩⟩⟩ <;>
      first | exact ⟨a, b, c, d, more, rfl⟩ | exact absurd (by simp) hlong
  simp only [charWidth] at h
  grind

theorem charWidth_isChar {char : List Octet} (h : IsChar char) :
    charWidth char = .ok char.length := by
  have hbig : ∀ {a lo hi : Octet} {w : ℕ}, leadRange a = some (w, lo, hi) → ¬a < 0x80 := by
    intro a lo hi w hlead hlt
    have hless : a < 0xC2 := UInt8.lt_trans hlt (by decide)
    rw [leadRange, if_pos hless] at hlead
    cases hlead
  cases h with
  | ascii ha => rw [charWidth, if_pos ha]; rfl
  | two hlead hlo hhi =>
      rw [charWidth, if_neg (hbig hlead), hlead]
      simp [hlo, hhi]
  | three hlead hlo hhi hc =>
      rw [charWidth, if_neg (hbig hlead), hlead]
      simp [hlo, hhi, hc]
  | four hlead hlo hhi hc hd =>
      rw [charWidth, if_neg (hbig hlead), hlead]
      simp [hlo, hhi, hc, hd]

theorem charWidth_isChar_append {char : List Octet} (h : IsChar char) (rest : List Octet) :
    charWidth (char ++ rest) = .ok char.length := by
  have hwidth := charWidth_isChar h
  rw [charWidth_append (by rw [hwidth]; exact nofun), hwidth]

theorem isChar_ne_nil {char : List Octet} (h : IsChar char) : char ≠ [] := by
  cases h <;> exact List.cons_ne_nil _ _

theorem Valid.append {left right : List Octet} (hleft : Valid left) (hright : Valid right) :
    Valid (left ++ right) := by
  induction hleft with
  | nil => exact hright
  | cons hchar _ ih =>
      rw [List.append_assoc]
      exact .cons hchar ih

/-- A valid string that starts with a character goes on validly behind it. -/
theorem Valid.tail {char rest : List Octet} (hchar : IsChar char) (h : Valid (char ++ rest)) :
    Valid rest := by
  have hwidth := charWidth_isChar_append hchar rest
  generalize hall : char ++ rest = all at h hwidth
  cases h with
  | nil => exact absurd (List.append_eq_nil_iff.mp hall).1 (isChar_ne_nil hchar)
  | @cons other more hother hrest =>
      rw [charWidth_isChar_append hother more, Except.ok.injEq] at hwidth
      rw [(List.append_inj hall hwidth.symm).2]
      exact hrest

/-- An ASCII octet in a character is all of it. -/
theorem IsChar.eq_of_ascii_mem {char : List Octet} (h : IsChar char) {b : Octet} (hb : b < 0x80)
    (hmem : b ∈ char) : char = [b] := by
  have hlead : ∀ {a lo hi : Octet} {w : ℕ}, leadRange a = some (w, lo, hi) →
      ¬a < 0x80 ∧ 0x80 ≤ lo := by
    intro a lo hi w hrange
    rw [leadRange] at hrange
    split_ifs at hrange <;> grind
  have htail : ∀ {c : Octet}, isTail c = true → 0x80 ≤ c := by
    intro c hc
    rw [isTail, Bool.and_eq_true, decide_eq_true_eq] at hc
    exact hc.1
  cases h with
  | ascii ha =>
      rw [List.mem_singleton.mp hmem]
  | two hrange hlo hhi =>
      have hbound := hlead hrange
      simp only [List.mem_cons, List.not_mem_nil, or_false] at hmem
      grind
  | three hrange hlo hhi hc =>
      have hbound := hlead hrange
      have hc' := htail hc
      simp only [List.mem_cons, List.not_mem_nil, or_false] at hmem
      grind
  | four hrange hlo hhi hc hd =>
      have hbound := hlead hrange
      have hc' := htail hc
      have hd' := htail hd
      simp only [List.mem_cons, List.not_mem_nil, or_false] at hmem
      grind

/-- An ASCII octet cuts a string into two. -/
theorem valid_append_cons {left right : List Octet} {b : Octet} (hb : b < 0x80) :
    Valid (left ++ b :: right) ↔ Valid left ∧ Valid right := by
  constructor
  · intro h
    generalize hall : left ++ b :: right = all at h
    induction h generalizing left with
    | nil => exact absurd hall (List.append_ne_nil_of_right_ne_nil left (List.cons_ne_nil b right))
    | @cons char rest hchar hrest ih =>
        rcases List.append_eq_append_iff.mp hall with
          ⟨more, hsplit, hbehind⟩ | ⟨more, hsplit, hbehind⟩
        · cases more with
          | nil =>
              rw [List.append_nil] at hsplit
              obtain ⟨-, hright⟩ := @ih [] hbehind
              have hwhole := Valid.cons hchar .nil
              rw [List.append_nil, hsplit] at hwhole
              exact ⟨hwhole, hright⟩
          | cons c more =>
              rw [List.cons_append, List.cons.injEq] at hbehind
              have hchar' := hchar.eq_of_ascii_mem hb (by
                rw [hsplit, hbehind.1]
                exact List.mem_append_right left List.mem_cons_self)
              rw [hsplit, hbehind.1] at hchar'
              have hlength := congrArg List.length hchar'
              simp only [List.length_append, List.length_cons, List.length_nil] at hlength
              have hleft : left = [] := List.eq_nil_of_length_eq_zero (by omega)
              have hmore : more = [] := List.eq_nil_of_length_eq_zero (by omega)
              rw [hleft, hbehind.2, hmore]
              exact ⟨.nil, hrest⟩
        · obtain ⟨hmore, hright⟩ := ih hbehind.symm
          rw [hsplit]
          exact ⟨.cons hchar hmore, hright⟩
  · rintro ⟨hleft, hright⟩
    exact hleft.append (.cons (.ascii hb) hright)

/-- The longest valid prefix of a text, by its length. -/
structure IsLongestValid (text : List Octet) (k : ℕ) : Prop where
  le : k ≤ text.length
  valid : Valid (text.take k)
  longest : ∀ j ≤ text.length, Valid (text.take j) → j ≤ k

theorem isLongestValid_of_stop {front rest : List Octet} {errorLen : Option ℕ}
    (hfront : Valid front) (hstop : charWidth rest = .error errorLen) :
    IsLongestValid (front ++ rest) front.length := by
  refine ⟨by rw [List.length_append]; omega, by rwa [List.take_left], ?_⟩
  induction hfront with
  | nil =>
      intro j hj hvalid
      rw [List.nil_append] at hj hvalid
      rw [List.length_nil]
      generalize htake : rest.take j = taken at hvalid
      cases hvalid with
      | nil =>
          rcases List.take_eq_nil_iff.mp htake with hzero | hnil
          · omega
          · rw [hnil] at hj
            exact hj
      | @cons char more hchar hmore =>
          have hwidth := charWidth_isChar_append hchar (more ++ rest.drop j)
          rw [← List.append_assoc, ← htake, List.take_append_drop, hstop] at hwidth
          cases hwidth
  | @cons char more hchar hrest ih =>
      intro j hj hvalid
      have hpos := List.length_pos_of_ne_nil (isChar_ne_nil hchar)
      rw [List.append_assoc] at hj hvalid
      rw [List.length_append] at hj ⊢
      rcases Nat.lt_or_ge j char.length with hlt | hge
      · omega
      · have hsplit : (char ++ (more ++ rest)).take j =
            char ++ (more ++ rest).take (j - char.length) := by
          rw [List.take_append, List.take_of_length_le hge]
        rw [hsplit] at hvalid
        have hbehind := ih (j - char.length) (by omega) (hvalid.tail hchar)
        omega

/-- Where the validator stops. -/
theorem validateFrom_error (fuel offset : ℕ) (octets : List Octet) (hfuel : octets.length ≤ fuel)
    {validUpTo : ℕ} {errorLen : Option ℕ}
    (h : validateFrom fuel offset octets = .error (validUpTo, errorLen)) :
    octets.drop (validUpTo - offset) ≠ [] ∧
      charWidth (octets.drop (validUpTo - offset)) = .error errorLen := by
  induction fuel generalizing offset octets with
  | zero => cases h
  | succ fuel ih =>
      cases octets with
      | nil => cases h
      | cons a rest =>
          simp only [validateFrom] at h
          cases hwidth : charWidth (a :: rest) with
          | error errorLen' =>
              rw [hwidth] at h
              obtain ⟨rfl, rfl⟩ := Prod.mk.inj (Except.error.inj h)
              rw [Nat.sub_self, List.drop_zero]
              exact ⟨List.cons_ne_nil _ _, hwidth⟩
          | ok width =>
              simp only [hwidth] at h
              obtain ⟨hpos, hle, -⟩ := charWidth_spec hwidth
              have hlength : ((a :: rest).drop width).length ≤ fuel := by
                rw [List.length_drop]
                omega
              have hspec := validateFrom_spec fuel (offset + width) _ hlength
              rw [h] at hspec
              have hrest := ih (offset + width) ((a :: rest).drop width) hlength h
              rw [List.drop_drop, show width + (validUpTo - (offset + width)) =
                validUpTo - offset by omega] at hrest
              exact hrest

theorem fromUtf8_error {octets : List Octet} {validUpTo : ℕ} {errorLen : Option ℕ}
    (h : fromUtf8 octets = .error (validUpTo, errorLen)) :
    octets.drop validUpTo ≠ [] ∧ charWidth (octets.drop validUpTo) = .error errorLen := by
  have hstop := validateFrom_error octets.length 0 octets le_rfl h
  rwa [Nat.sub_zero] at hstop

/-! ## Pieces of a valid string

An ASCII octet is a character of its own.  So a piece between two of them is valid, and
stays so when some of the ASCII octets in it are left out.
-/

/-- The first string with some of its ASCII octets left out. -/
inductive Thins : List Octet → List Octet → Prop
  | nil : Thins [] []
  | keep {b : Octet} {octets thinned : List Octet} : Thins octets thinned →
      Thins (b :: octets) (b :: thinned)
  | drop {b : Octet} {octets thinned : List Octet} : b < 0x80 → Thins octets thinned →
      Thins (b :: octets) thinned

theorem Thins.refl (octets : List Octet) : Thins octets octets := by
  induction octets with
  | nil => exact .nil
  | cons b octets ih => exact .keep ih

theorem Thins.append {left right left' right' : List Octet} (hleft : Thins left left')
    (hright : Thins right right') : Thins (left ++ right) (left' ++ right') := by
  induction hleft with
  | nil => exact hright
  | keep _ ih => exact .keep ih
  | drop hb _ ih => exact .drop hb ih

/-- What is left of two strings in a row is left of each. -/
theorem Thins.of_append {left right thinned : List Octet} (h : Thins (left ++ right) thinned) :
    ∃ left' right', thinned = left' ++ right' ∧ Thins left left' ∧ Thins right right' := by
  induction left generalizing thinned with
  | nil => exact ⟨[], thinned, rfl, .nil, h⟩
  | cons b left ih =>
      rw [List.cons_append] at h
      cases h with
      | keep hrest =>
          obtain ⟨left', right', rfl, hleft, hright⟩ := ih hrest
          exact ⟨b :: left', right', rfl, .keep hleft, hright⟩
      | drop hb hrest =>
          obtain ⟨left', right', rfl, hleft, hright⟩ := ih hrest
          exact ⟨left', right', rfl, .drop hb hleft, hright⟩

theorem Thins.reverse {octets thinned : List Octet} (h : Thins octets thinned) :
    Thins octets.reverse thinned.reverse := by
  induction h with
  | nil => exact .nil
  | @keep b _ _ _ ih =>
      rw [List.reverse_cons, List.reverse_cons]
      exact ih.append (.refl [b])
  | @drop b _ thinned hb _ ih =>
      rw [List.reverse_cons, ← List.append_nil thinned.reverse]
      exact ih.append (.drop hb .nil)

theorem Thins.dropWhile {p : Octet → Bool} (hp : ∀ b, p b = true → b < 0x80)
    (octets : List Octet) : Thins octets (octets.dropWhile p) := by
  induction octets with
  | nil => exact .nil
  | cons b octets ih =>
      rw [List.dropWhile_cons]
      split_ifs with hb
      · exact .drop (hp b hb) ih
      · exact .refl _

theorem Thins.trans {octets thinned thinner : List Octet} (h : Thins octets thinned)
    (hmore : Thins thinned thinner) : Thins octets thinner := by
  induction h generalizing thinner with
  | nil => exact hmore
  | keep _ ih =>
      cases hmore with
      | keep hrest => exact .keep (ih hrest)
      | drop hb hrest => exact .drop hb (ih hrest)
  | drop hb _ ih => exact .drop hb (ih hmore)

/-- Nothing is left out of a string without ASCII octets. -/
theorem Thins.eq_of_not_ascii {octets thinned : List Octet} (h : Thins octets thinned)
    (hnone : ∀ b ∈ octets, ¬b < 0x80) : thinned = octets := by
  induction h with
  | nil => rfl
  | keep _ ih =>
      rw [List.forall_mem_cons] at hnone
      rw [ih hnone.2]
  | drop hb _ _ =>
      rw [List.forall_mem_cons] at hnone
      exact absurd hb hnone.1

theorem Valid.thins {octets thinned : List Octet} (h : Valid octets)
    (hthins : Thins octets thinned) : Valid thinned := by
  induction h generalizing thinned with
  | nil =>
      cases hthins
      exact .nil
  | @cons char rest hchar hrest ih =>
      obtain ⟨left, right, rfl, hleft, hright⟩ := hthins.of_append
      by_cases hascii : ∃ b ∈ char, b < 0x80
      · obtain ⟨b, hmem, hb⟩ := hascii
        rw [hchar.eq_of_ascii_mem hb hmem] at hleft
        cases hleft with
        | keep hnil =>
            cases hnil
            exact .cons (.ascii hb) (ih hright)
        | drop _ hnil =>
            cases hnil
            exact ih hright
      · rw [hleft.eq_of_not_ascii fun b hmem hb => hascii ⟨b, hmem, hb⟩]
        exact .cons hchar (ih hright)

/-- Nothing, or a string that ends on an ASCII octet. -/
def Anchored (front : List Octet) : Prop :=
  front = [] ∨ ∃ left b, front = left ++ [b] ∧ b < 0x80

theorem anchored_snoc {b : Octet} (hb : b < 0x80) (left : List Octet) : Anchored (left ++ [b]) :=
  Or.inr ⟨left, b, rfl, hb⟩

/-- Behind an ASCII octet, a valid string goes on validly. -/
theorem Valid.behind {front raw : List Octet} (h : Valid (front ++ raw)) (hfront : Anchored front) :
    Valid raw := by
  rcases hfront with rfl | ⟨left, b, rfl, hb⟩
  · exact h
  · rw [List.append_assoc, List.singleton_append] at h
    exact ((valid_append_cons hb).mp h).2

/-- A piece cut from a string behind an ASCII octet, with some ASCII octets left out. -/
def Cut (octets piece : List Octet) : Prop :=
  ∃ front raw, octets = front ++ raw ∧ Anchored front ∧ Thins raw piece

theorem cut_nil : Cut [] [] := ⟨[], [], rfl, Or.inl rfl, .nil⟩

theorem Cut.snoc {octets piece : List Octet} (h : Cut octets piece) (b : Octet) :
    Cut (octets ++ [b]) (piece ++ [b]) := by
  obtain ⟨front, raw, rfl, hfront, hraw⟩ := h
  exact ⟨front, raw ++ [b], List.append_assoc .., hfront, hraw.append (.refl [b])⟩

theorem Cut.skip {octets piece : List Octet} (h : Cut octets piece) {b : Octet} (hb : b < 0x80) :
    Cut (octets ++ [b]) piece := by
  obtain ⟨front, raw, rfl, hfront, hraw⟩ := h
  refine ⟨front, raw ++ [b], List.append_assoc .., hfront, ?_⟩
  rw [← List.append_nil piece]
  exact hraw.append (.drop hb .nil)

/-- Behind an ASCII octet begins the next piece. -/
theorem cut_behind (octets : List Octet) {b : Octet} (hb : b < 0x80) : Cut (octets ++ [b]) [] :=
  ⟨octets ++ [b], [], (List.append_nil _).symm, anchored_snoc hb octets, .nil⟩

theorem Cut.valid {octets piece : List Octet} (h : Cut octets piece) (hvalid : Valid octets) :
    Valid piece := by
  obtain ⟨front, raw, rfl, hfront, hraw⟩ := h
  exact (hvalid.behind hfront).thins hraw

end Utf8
