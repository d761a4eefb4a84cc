import Csveee.Parser.Repair
import Csveee.Scheduler.Agreement

/-!
# Runs over readers that fail

A `fill` that fails ends the attempt it is made for, and the chunk's loop goes on with the next
assumption.  Unless it interrupts a scan, after which the chunk is taken to hold no boundary, the
run reports a failure, or it comes to what it would have come to without one.
-/

namespace Csveee

namespace Scheduler

/-- The environment with the failures of its readers replaced. -/
def Environment.RepairedBy (env repaired : Environment) : Prop :=
  ∀ id, (env id).RepairedBy (repaired id)

namespace Job

variable {σ : Type}

variable {job : Job σ} {env' : Environment}

/-- The passes of a chunk, of which the last one may be a failure that stands for another result;
those before it failed. -/
inductive LastFails : List (ResolvedPass σ) → List (ResolvedPass σ) → Prop
  | mk (passes : List (ResolvedPass σ))
      (hpasses : ∀ pass ∈ passes, ∃ err, pass.result = .error err)
      (start : ℕ) (err : Error) (result : Except Error σ) :
      LastFails (passes ++ [⟨start, .error err⟩]) (passes ++ [⟨start, result⟩])

/-- The output of a chunk, or one that failed last in its place. -/
def OutputUpToFailure (output output' : ChunkOutput σ) : Prop :=
  output = output' ∨ LastFails output.passes output'.passes

theorem RelatedOutcomes.refl (outcome : TryOutcome σ) :
    RelatedOutcomes OutputUpToFailure outcome outcome := by
  cases outcome with
  | resolved passes recordEnd => exact .resolved (Or.inl rfl)
  | cleanNoBoundary => exact .cleanNoBoundary
  | allFailed => exact .allFailed

end Job

end Scheduler

end Csveee
