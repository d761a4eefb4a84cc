import Csveee.Parser.Dfa.Modes

/-!
# Quoting

What the toggling table comes to without its fields: a run is outside of quotes, inside
of them, or inside and past an escape byte.  The boundary scan finds the first
terminator that lies outside.
-/

namespace Csveee

/-- Where a run is with regard to quotes. -/
inductive Quoting
  | outside
  | inside
  | escaped
  deriving DecidableEq, Repr

namespace Quoting

def next : Quoting → Symbol → Quoting
  | .outside, .quote => .inside
  | .outside, _ => .outside
  | .inside, .quote => .outside
  | .inside, .escape => .escaped
  | .inside, _ => .inside
  | .escaped, _ => .inside

def after (config : Config) (quoting : Quoting) (bytes : Bytes) : Quoting :=
  bytes.foldl (fun quoting b => quoting.next (config.symbol b)) quoting

/-- The first terminator outside of quotes. -/
def firstOutside (config : Config) : Quoting → Bytes → Option ℕ
  | _, [] => none
  | quoting, b :: rest =>
      if quoting = .outside ∧ config.isTerminator b = true then some 0
      else (firstOutside config (quoting.next (config.symbol b)) rest).map (· + 1)

variable {config : Config}

@[simp] theorem after_cons (quoting : Quoting) (b : Byte) (rest : Bytes) :
    quoting.after config (b :: rest) = (quoting.next (config.symbol b)).after config rest := rfl

theorem after_append (quoting : Quoting) (left right : Bytes) :
    quoting.after config (left ++ right) = (quoting.after config left).after config right :=
  List.foldl_append

/-- What is found is a terminator outside of quotes, and the first such. -/
theorem firstOutside_eq_some {quoting : Quoting} {bytes : Bytes} {off : ℕ} :
    firstOutside config quoting bytes = some off ↔
      ((∃ b, bytes[off]? = some b ∧ config.isTerminator b = true) ∧
        quoting.after config (bytes.take off) = .outside) ∧
      ∀ i, i < off → ∀ b, bytes[i]? = some b → config.isTerminator b = true →
        quoting.after config (bytes.take i) ≠ .outside := by
  induction bytes generalizing quoting off with
  | nil => simp [firstOutside]
  | cons c rest ih =>
      rw [firstOutside]
      by_cases hhere : quoting = .outside ∧ config.isTerminator c = true
      · rw [if_pos hhere]
        constructor
        · intro hzero
          cases hzero
          exact ⟨⟨⟨c, rfl, hhere.2⟩, hhere.1⟩, fun i hi => absurd hi (Nat.not_lt_zero i)⟩
        · rintro ⟨-, hfirst⟩
          cases off with
          | zero => rfl
          | succ off => exact absurd hhere.1 (hfirst 0 (Nat.succ_pos _) c rfl hhere.2)
      · rw [if_neg hhere, Option.map_eq_some_iff]
        constructor
        · rintro ⟨i, hi, rfl⟩
          obtain ⟨⟨hterm, hquoting⟩, hfirst⟩ := ih.mp hi
          refine ⟨⟨hterm, hquoting⟩, fun j hj b hb hterm' hout => ?_⟩
          cases j with
          | zero =>
              cases hb
              exact hhere ⟨hout, hterm'⟩
          | succ j => exact hfirst j (by omega) b hb hterm' hout
        · rintro ⟨⟨hterm, hquoting⟩, hfirst⟩
          cases off with
          | zero =>
              obtain ⟨b, hb, hterm⟩ := hterm
              cases hb
              exact absurd ⟨hquoting, hterm⟩ hhere
          | succ off =>
              refine ⟨off, ih.mpr ⟨⟨hterm, hquoting⟩, fun j hj b hb hterm' => ?_⟩, rfl⟩
              exact hfirst (j + 1) (by omega) b hb hterm'

theorem firstOutside_eq_none {quoting : Quoting} {bytes : Bytes} :
    firstOutside config quoting bytes = none ↔
      ∀ i b, bytes[i]? = some b → config.isTerminator b = true →
        quoting.after config (bytes.take i) ≠ .outside := by
  induction bytes generalizing quoting with
  | nil => simp [firstOutside]
  | cons c rest ih =>
      rw [firstOutside]
      by_cases hhere : quoting = .outside ∧ config.isTerminator c = true
      · rw [if_pos hhere]
        constructor
        · intro hfalse
          cases hfalse
        · intro hall
          exact absurd hhere.1 (hall 0 c rfl hhere.2)
      · rw [if_neg hhere, Option.map_eq_none_iff, ih]
        constructor
        · intro hall i b hb hterm hout
          cases i with
          | zero =>
              cases hb
              exact hhere ⟨hout, hterm⟩
          | succ i => exact hall i b hb hterm hout
        · intro hall i b hb hterm
          exact hall (i + 1) b hb hterm

end Quoting

/-- Where a state of the automaton is with regard to quotes. -/
def State.quoting : State → Quoting
  | .inQuotedField => .inside
  | .inEscapedQuote => .escaped
  | _ => .outside

theorem State.quoting_settle (state : State) : state.settle.quoting = state.quoting := by
  cases state <;> rfl

namespace Dfa

/-- Outside of comments, the toggling table keeps track of quotes, and ends records on
terminators outside of them. -/
theorem toggle_quoting {doubled : Bool} {state : State} {symbol : Symbol}
    (hlive : state.isAction = false) (hcomment : state ≠ .inComment)
    (hsymbol : state = .recordStart → symbol ≠ .comment)
    (hescape : symbol = .escape → doubled = false) :
    (symbolRow .toggle doubled state symbol).next.quoting = state.quoting.next symbol ∧
      (symbolRow .toggle doubled state symbol).next.settle.isAction = false ∧
      (symbolRow .toggle doubled state symbol).next.settle ≠ .inComment ∧
      (state ≠ .recordStart → ((symbolRow .toggle doubled state symbol).next = .recordEnd ↔
        state.quoting = .outside ∧ symbol = .terminator)) ∧
      ((symbolRow .toggle doubled state symbol).next ≠ .recordEnd → state ≠ .recordStart →
        (symbolRow .toggle doubled state symbol).next.settle ≠ .recordStart) := by
  cases state <;>
    first
    | exact absurd hlive Bool.noConfusion
    | exact absurd rfl hcomment
    | skip
  all_goals
    cases symbol <;>
    first
    | exact absurd rfl (hsymbol rfl)
    | skip
  all_goals
    cases doubled <;>
    first
    | exact absurd (hescape rfl) Bool.noConfusion
    | decide

section

variable {config : Config} (h : config.Distinct) (endian : Endian)

include h

theorem symbol_escape {b : Byte} (hs : config.symbol b = .escape) :
    config.doubledQuotes = false :=
  ((symbol_tests h b).2.2.2.1.mp hs).2

theorem symbol_ne_comment (hcomment : config.comment = none) (b : Byte) :
    config.symbol b ≠ .comment := by
  intro hs
  have hbyte := (symbol_tests h b).2.2.2.2.mp hs
  rw [hcomment] at hbyte
  cases hbyte

/-- The lenient scan finds the first terminator outside of quotes. -/
theorem scan_quoting {state : State} (hlive : state.isAction = false)
    (hstart : state ≠ .recordStart) (hstate : state ≠ .inComment) (x : ℕ) (bytes : Bytes) :
    (scanBytes (dialect endian config .toggle) false state x bytes).boundary =
      boundaryAt x (state.quoting.firstOutside config bytes) := by
  induction bytes generalizing state x with
  | nil => rfl
  | cons b rest ih =>
      obtain ⟨hnext, hlive', hcomment', hend, hstart'⟩ := toggle_quoting hlive hstate
        (fun hfalse => absurd hfalse hstart) (symbol_escape h)
      have hterm := (symbol_tests h b).2.1
      rw [scanBytes, Quoting.firstOutside]
      simp only [dialect_transition h endian .toggle hstate, Bool.false_and, Bool.false_eq_true,
        if_false]
      by_cases hhere : state.quoting = .outside ∧ config.isTerminator b = true
      · rw [(hend hstart).mpr ⟨hhere.1, hterm.mpr hhere.2⟩, if_pos hhere]
        rfl
      · have hgo : (symbolRow .toggle config.doubledQuotes state (config.symbol b)).next ≠
            .recordEnd := fun hrecord => by
          obtain ⟨hout, hsymbol⟩ := (hend hstart).mp hrecord
          exact hhere ⟨hout, hterm.mp hsymbol⟩
        have hrest := ih hlive' (hstart' hgo hstart) hcomment' (x + 1)
        rw [State.quoting_settle, hnext] at hrest
        rw [if_neg hhere]
        have hshift : boundaryAt (x + 1) ((state.quoting.next (config.symbol b)).firstOutside
            config rest) = boundaryAt x (((state.quoting.next (config.symbol b)).firstOutside
              config rest).map (· + 1)) := by
          cases (state.quoting.next (config.symbol b)).firstOutside config rest with
          | none => rfl
          | some i =>
              simp only [boundaryAt, Option.map_some, Boundary.found.injEq]
              omega
        rw [← hshift, ← hrest]
        cases hcase : (symbolRow .toggle config.doubledQuotes state (config.symbol b)).next with
        | error =>
            rw [hcase] at hlive'
            exact absurd hlive' Bool.noConfusion
        | recordEnd => exact absurd hcase hgo
        | _ => rfl

end

end Dfa

end Csveee
