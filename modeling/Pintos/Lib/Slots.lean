/-
How often a table holds a value.

A table of `n` slots is a function on the indices; only those below `n` count. What
a proof about a counter per value needs is one equation: storing into a slot takes
one away from the value that was there and gives one to the value that is stored.
-/
import Mathlib.Data.Finset.Card
import Mathlib.Algebra.BigOperators.Group.Finset.Piecewise
import Mathlib.Tactic.Common

set_option autoImplicit false

namespace Pintos

universe u

variable {α : Type u} [DecidableEq α] {n i : ℕ} {t : ℕ → α} {v w : α}

/-- The number of slots below `n` that hold `v`. -/
def occurrences (n : ℕ) (t : ℕ → α) (v : α) : ℕ := ((Finset.range n).filter fun i => t i = v).card

theorem occurrences_pos : 0 < occurrences n t v ↔ ∃ i < n, t i = v := by
  unfold occurrences
  rw [Finset.card_pos, Finset.filter_nonempty_iff]
  simp

theorem occurrences_eq_zero : occurrences n t v = 0 ↔ ∀ i < n, t i ≠ v := by
  unfold occurrences
  rw [Finset.card_eq_zero, Finset.filter_eq_empty_iff]
  simp

theorem occurrences_congr {t' : ℕ → α} (h : ∀ i < n, t i = v ↔ t' i = v) :
    occurrences n t v = occurrences n t' v := by
  have hfilter := Finset.filter_congr fun i hi => h i (Finset.mem_range.mp hi)
  exact congrArg Finset.card hfilter

theorem occurrences_eq_one (hi : i < n) (hv : t i = v) (huniq : ∀ j < n, t j = v → j = i) :
    occurrences n t v = 1 := by
  unfold occurrences
  rw [Finset.card_eq_one]
  refine ⟨i, Finset.ext fun j => ?_⟩
  rw [Finset.mem_filter, Finset.mem_range, Finset.mem_singleton]
  refine ⟨fun hj => huniq j hj.1 hj.2, ?_⟩
  rintro rfl
  exact ⟨hi, hv⟩

/-- **Storing `w` in slot `i`.** -/
theorem occurrences_update (hi : i < n) (t : ℕ → α) (v w : α) :
    occurrences n (Function.update t i w) v + (if t i = v then 1 else 0)
      = occurrences n t v + if w = v then 1 else 0 := by
  have hmem : i ∈ Finset.range n := Finset.mem_range.mpr hi
  have hrest : ∀ f : ℕ → α, (∀ j, j ≠ i → f j = t j) →
      occurrences n f v = (∑ j ∈ (Finset.range n).erase i, if t j = v then 1 else 0)
        + if f i = v then 1 else 0 := by
    intro f hf
    unfold occurrences
    rw [Finset.card_filter, ← Finset.sum_erase_add _ _ hmem]
    congr 1
    apply Finset.sum_congr rfl
    intro j hj
    rw [hf j (Finset.ne_of_mem_erase hj)]
  rw [hrest t fun _ _ => rfl, hrest (Function.update t i w) fun j hj =>
    Function.update_of_ne hj _ _, Function.update_self]
  omega

end Pintos
