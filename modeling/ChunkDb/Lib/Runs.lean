/-
# Runs of a step relation

A run is a path of the reflexive transitive closure of the step relation; what every
step keeps holds at the end of every run.
-/
import Mathlib.Logic.Relation
import Mathlib.Logic.Function.Basic

namespace Runs

variable {S : Type*} {step : S → S → Prop} {a b : S}

/-- What holds at the start and is kept by every step holds at the end. -/
theorem invariant {I : S → Prop} (hrun : Relation.ReflTransGen step a b) (hstart : I a)
    (hstep : ∀ s t, I s → step s t → I t) : I b := by
  induction hrun with
  | refl => exact hstart
  | tail _ h ih => exact hstep _ _ ih h

end Runs
