import Mathlib.Data.List.Basic
import Mathlib.Data.Set.Basic

/-!
# Components and what is seen of them

A component is used through operations, some of which fail, and watched through what it
shows.  It refines another one, of which a choice is still open, if whatever is seen of it
can be seen of the other: the choice is settled backwards, from what is left to do.
A resource opens components one at a time and takes back what they leave.
-/

/-- Operations on a state: which of them it allows, what they lead to, and what it shows. -/
structure Component (Op Err View σ : Type*) where
  allows : σ → Op → Bool
  /-- The next state, also where the operation fails. -/
  step : σ → Op → σ × Except Err Unit
  view : σ → View

namespace Component

/-- What is seen of one operation. -/
inductive Seen (Err View : Type*)
  | shows (view : View)
  | fails (err : Err)
  /-- The operation was not allowed. -/
  | breaks
  deriving DecidableEq

variable {Op Err View σ τ : Type*}

/-- What is seen of the operations, up to the first that does not succeed. -/
def trace (component : Component Op Err View σ) : σ → List Op → List (Seen Err View)
  | _, [] => []
  | state, op :: ops =>
      if component.allows state op then
        match component.step state op with
        | (next, .ok ()) => .shows (component.view next) :: component.trace next ops
        | (_, .error err) => [.fails err]
      else [.breaks]

/-- The state the operations leave, up to the first that does not succeed. -/
def after (component : Component Op Err View σ) : σ → List Op → σ
  | state, [] => state
  | state, op :: ops =>
      if component.allows state op then
        match component.step state op with
        | (next, .ok ()) => component.after next ops
        | (next, .error _) => next
      else state

variable {concrete : Component Op Err View σ} {component : Component Op Err View σ}

theorem trace_ok {state next : σ} {op : Op} (ops : List Op)
    (hallows : component.allows state op = true)
    (hstep : component.step state op = (next, .ok ())) :
    component.trace state (op :: ops) =
      .shows (component.view next) :: component.trace next ops := by
  rw [trace, if_pos hallows, hstep]

theorem trace_error {state next : σ} {op : Op} {err : Err} (ops : List Op)
    (hallows : component.allows state op = true)
    (hstep : component.step state op = (next, .error err)) :
    component.trace state (op :: ops) = [.fails err] := by
  rw [trace, if_pos hallows, hstep]

theorem trace_breaks {state : σ} {op : Op} (ops : List Op)
    (hallows : component.allows state op = false) :
    component.trace state (op :: ops) = [.breaks] := by
  rw [trace, hallows, if_neg Bool.false_ne_true]

/-- What every operation that is allowed keeps, a use of the component keeps. -/
theorem after_keeps {property : σ → Prop} {state : σ}
    (hkeeps : ∀ state op, property state → component.allows state op = true →
      property (component.step state op).1) (ops : List Op) (h : property state) :
    property (component.after state ops) := by
  induction ops generalizing state with
  | nil => exact h
  | cons op ops ih =>
      rw [after]
      split_ifs with hallows
      · have hnext := hkeeps state op h hallows
        rcases hstep : component.step state op with ⟨next, _ | _⟩
        · rw [hstep] at hnext
          exact hnext
        · rw [hstep] at hnext
          exact ih hnext
      · exact h

/-- A state stands for any of a set of states of the other component.  Whatever it does, one
of them does: the set it is to stand for next is reached from this one, member by
member. -/
structure Foretells (concrete : Component Op Err View σ) (spec : Component Op Err View τ)
    (stands : σ → Set τ → Prop) : Prop where
  inhabited : ∀ {state options}, stands state options → options.Nonempty
  breaks : ∀ {state options op}, stands state options → concrete.allows state op = false →
    ∃ option ∈ options, spec.allows option op = false
  fails : ∀ {state options op next err}, stands state options →
    concrete.allows state op = true → concrete.step state op = (next, .error err) →
    ∃ option ∈ options, spec.allows option op = true ∧
      ∃ left, spec.step option op = (left, .error err)
  succeeds : ∀ {state options op next}, stands state options →
    concrete.allows state op = true → concrete.step state op = (next, .ok ()) →
    ∃ later, stands next later ∧ ∀ left ∈ later, spec.view left = concrete.view next ∧
      ∃ option ∈ options, spec.allows option op = true ∧ spec.step option op = (left, .ok ())

/-- Whatever is seen of the component is seen of one of the states it stands for. -/
theorem Foretells.trace_eq {spec : Component Op Err View τ} {stands : σ → Set τ → Prop}
    (h : Foretells concrete spec stands) {state : σ} {options : Set τ}
    (hstands : stands state options) (ops : List Op) :
    ∃ option ∈ options, concrete.trace state ops = spec.trace option ops := by
  induction ops generalizing state options with
  | nil =>
      obtain ⟨option, hmem⟩ := h.inhabited hstands
      exact ⟨option, hmem, rfl⟩
  | cons op ops ih =>
      cases hallows : concrete.allows state op with
      | false =>
          obtain ⟨option, hmem, hspec⟩ := h.breaks hstands hallows
          exact ⟨option, hmem, by rw [trace_breaks ops hallows, trace_breaks ops hspec]⟩
      | true =>
          rcases hstep : concrete.step state op with ⟨next, err | _⟩
          · obtain ⟨option, hmem, hspec, left, hleft⟩ := h.fails hstands hallows hstep
            exact ⟨option, hmem, by
              rw [trace_error ops hallows hstep, trace_error ops hspec hleft]⟩
          · obtain ⟨later, hlater, hreached⟩ := h.succeeds hstands hallows hstep
            -- what is left to do settles the choice, and this the choice before
            obtain ⟨left, hleft, htrace⟩ := ih hlater
            obtain ⟨hview, option, hmem, hspec, hoption⟩ := hreached left hleft
            exact ⟨option, hmem, by
              rw [trace_ok ops hallows hstep, trace_ok ops hspec hoption, hview, htrace]⟩

end Component

/-- What components are opened on, one at a time. -/
structure Resource (Arg Op Err View κ σ : Type*) where
  component : Component Op Err View σ
  /-- The resource while the component is open, and the component. -/
  acquire : κ → Arg → κ × Except Err σ
  /-- The resource that gets back what the component left. -/
  release : κ → σ → κ

namespace Resource

variable {Arg Op Err View κ σ : Type*}

/-- One use of the resource after the other: what is seen of each, or why it did not
begin. -/
def uses (resource : Resource Arg Op Err View κ σ) :
    κ → List (Arg × List Op) → List (Except Err (List (Component.Seen Err View)))
  | _, [] => []
  | state, (arg, ops) :: rest =>
      match resource.acquire state arg with
      | (lent, .ok opened) =>
          .ok (resource.component.trace opened ops) ::
            resource.uses (resource.release lent (resource.component.after opened ops)) rest
      | (left, .error err) => .error err :: resource.uses left rest

/-- What the resource keeps to itself between the uses, and while a component is open. -/
structure Restores (resource : Resource Arg Op Err View κ σ) (idle : κ → Prop)
    (lent : κ → σ → Prop) (fresh : Arg → σ → Prop) : Prop where
  acquired : ∀ {state arg left opened}, idle state →
    resource.acquire state arg = (left, .ok opened) → lent left opened ∧ fresh arg opened
  refused : ∀ {state arg left err}, idle state →
    resource.acquire state arg = (left, .error err) → idle left
  step : ∀ {state opened op}, lent state opened → resource.component.allows opened op = true →
    lent state (resource.component.step opened op).1
  released : ∀ {state opened}, lent state opened → idle (resource.release state opened)

/-- Whatever was done before, every use is one of a fresh component. -/
theorem Restores.uses_fresh {resource : Resource Arg Op Err View κ σ} {idle : κ → Prop}
    {lent : κ → σ → Prop} {fresh : Arg → σ → Prop} (h : resource.Restores idle lent fresh)
    {state : κ} (hidle : idle state) (uses : List (Arg × List Op)) :
    List.Forall₂ (fun use seen => ∀ trace, seen = .ok trace →
        ∃ opened, fresh use.1 opened ∧ trace = resource.component.trace opened use.2)
      uses (resource.uses state uses) := by
  induction uses generalizing state with
  | nil => exact .nil
  | cons use rest ih =>
      obtain ⟨arg, ops⟩ := use
      rw [Resource.uses]
      rcases hacquire : resource.acquire state arg with ⟨left, err | opened⟩
      · refine .cons (fun _ heq => ?_) (ih (h.refused hidle hacquire))
        cases heq
      · obtain ⟨hlent, hfresh⟩ := h.acquired hidle hacquire
        have hafter := Component.after_keeps (fun _ _ => h.step) ops hlent
        refine .cons (fun trace heq => ?_) (ih (h.released hafter))
        cases heq
        exact ⟨opened, hfresh, rfl⟩

end Resource
