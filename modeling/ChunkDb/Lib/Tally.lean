/-
# Tallies over finitely many holders

A counter shared by arbitrarily many holders, of which finitely many hold something, is the
total of what each of them holds.  A change of one holder changes the total by the same
amount, and a holder never holds more than the total.
-/
import Mathlib.Algebra.Order.BigOperators.Group.Finset

variable {ι : Type*} {f : ι → ℕ} {n : ℕ}

/-- All but finitely many holders hold nothing and the others hold `n` together. -/
def Tally (f : ι → ℕ) (n : ℕ) : Prop :=
  ∃ s : Finset ι, (∀ i, i ∉ s → f i = 0) ∧ ∑ i ∈ s, f i = n

open Function

namespace Tally

theorem zero : Tally (fun _ : ι => 0) 0 :=
  ⟨∅, fun _ _ => rfl, rfl⟩

variable [DecidableEq ι]

/-- The holders can be listed with any given one among them. -/
theorem exists_mem (h : Tally f n) (i : ι) :
    ∃ s : Finset ι, i ∈ s ∧ (∀ j, j ∉ s → f j = 0) ∧ ∑ j ∈ s, f j = n := by
  obtain ⟨s, hs, hsum⟩ := h
  refine ⟨insert i s, Finset.mem_insert_self i s, ?_, ?_⟩
  · intro j hj
    exact hs j (fun hmem => hj (Finset.mem_insert_of_mem hmem))
  · rw [← hsum]
    refine (Finset.sum_subset (Finset.subset_insert i s) ?_).symm
    intro j _ hj
    exact hs j hj

/-- No holder holds more than the total. -/
theorem le (h : Tally f n) (i : ι) : f i ≤ n := by
  obtain ⟨s, hi, -, hsum⟩ := h.exists_mem i
  rw [← hsum]
  exact Finset.single_le_sum (fun _ _ => Nat.zero_le _) hi

/-- A change of one holder changes the total by as much. -/
theorem update (h : Tally f n) (i : ι) (v : ℕ) : Tally (update f i v) (n - f i + v) := by
  obtain ⟨s, hi, hs, hsum⟩ := h.exists_mem i
  refine ⟨s, ?_, ?_⟩
  · intro j hj
    have hne : j ≠ i := fun heq => hj (heq ▸ hi)
    rw [update_of_ne hne]
    exact hs j hj
  · have hold : f i + ∑ j ∈ s.erase i, f j = n := by
      rw [Finset.add_sum_erase s f hi, hsum]
    have hrest : ∑ j ∈ s.erase i, Function.update f i v j = ∑ j ∈ s.erase i, f j := by
      refine Finset.sum_congr rfl ?_
      intro j hj
      rw [update_of_ne (Finset.ne_of_mem_erase hj)]
    rw [← Finset.add_sum_erase s _ hi, hrest, update_self]
    omega

/-- A holder becomes another one, and the total changes by the difference of what they hold. -/
theorem replace {β : Type*} {g : ι → β} (weight : β → ℕ)
    (h : Tally (fun j => weight (g j)) n) (i : ι) (c : β) {m : ℕ} (hm : n + weight c = m + weight (g i)) :
    Tally (fun j => weight (Function.update g i c j)) m := by
  have hle := h.le i
  have hsum : m = n - weight (g i) + weight c := by omega
  have hsame : (fun j => weight (Function.update g i c j)) =
      Function.update (fun j => weight (g j)) i (weight c) := by
    funext j
    by_cases hj : j = i
    · subst hj
      simp
    · simp [update_of_ne hj]
  rw [hsum, hsame]
  exact h.update i (weight c)

end Tally
