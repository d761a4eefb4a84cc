import Mathlib.Data.List.Basic
import Mathlib.Data.Nat.Basic

/-!
# Parsing in pieces

A sequential parser stopped at chunk ends: parsing from a boundary up to an end
yields records and the boundary to go on from.  Stopping and going on is parsing
in one piece.
-/

namespace Csveee

/-- A parser of records of type `ρ` that can stop at any chunk end. -/
structure Sequential (ρ ε : Type) where
  /-- The length of the input. -/
  len : ℕ
  /-- Parse from a boundary up to a chunk end: the records, and the next boundary. -/
  body : ℕ → ℕ → Except ε (List ρ × Option ℕ)
  /-- Only the end of the input leaves no boundary. -/
  none_only_at_len : ∀ {p c records}, p ≤ c → c ≤ len → body p c = .ok (records, none) →
    c = len
  le_next : ∀ {p c records q}, p ≤ c → c ≤ len → body p c = .ok (records, some q) →
    c ≤ q ∧ q ≤ len
  /-- Up to a later end that covers the boundary, the parse goes on from it. -/
  handover : ∀ {p c c' records q}, p ≤ c → c ≤ c' → c' ≤ len →
    body p c = .ok (records, some q) → q ≤ c' →
    body p c' = (body q c').map fun rest => (records ++ rest.1, rest.2)
  /-- Up to an end short of the boundary, there is nothing to go on with. -/
  stay : ∀ {p c c' records q}, p ≤ c → c ≤ c' → c' ≤ len →
    body p c = .ok (records, some q) → c' < q → body p c' = body p c
  error : ∀ {p c c' err}, p ≤ c → c ≤ c' → c' ≤ len → body p c = .error err →
    body p c' = .error err

namespace Sequential

variable {ρ ε : Type} (seq : Sequential ρ ε)

/-- What a parse up to some end yields, any longer parse yields first. -/
theorem records_prefix {p c c' : ℕ} {records records' : List ρ} {next next' : Option ℕ}
    (hp : p ≤ c) (hc : c ≤ c') (hc' : c' ≤ seq.len)
    (h : seq.body p c = .ok (records, next)) (h' : seq.body p c' = .ok (records', next')) :
    records <+: records' := by
  cases next with
  | none =>
      have hlen := seq.none_only_at_len hp (by omega) h
      have heq : c = c' := by omega
      subst heq
      rw [h] at h'
      cases h'
      exact List.prefix_rfl
  | some q =>
      by_cases hq : q ≤ c'
      · rw [seq.handover hp hc hc' h hq] at h'
        cases hrest : seq.body q c' with
        | error err =>
            rw [hrest] at h'
            cases h'
        | ok rest =>
            rw [hrest] at h'
            cases h'
            exact List.prefix_append records rest.1
      · rw [seq.stay hp hc hc' h (by omega), h] at h'
        cases h'
        exact List.prefix_rfl

/-- A parse that fails from a boundary the parse before hands over fails before. -/
theorem error_of_handover {p c q : ℕ} {records : List ρ} {err : ε} (hp : p ≤ c)
    (hc : c ≤ seq.len) (h : seq.body p c = .ok (records, some q))
    (herr : seq.body q seq.len = .error err) : seq.body p seq.len = .error err := by
  rw [seq.handover hp hc (Nat.le_refl _) h (seq.le_next hp hc h).2, herr]
  rfl

end Sequential

end Csveee
