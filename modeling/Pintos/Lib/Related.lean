/-
Two computations that run alongside each other.

`Outcome.Rel R x y`: `x` and `y` end the same way, and when they return, the results are
related by `R`. A computation over a state is compared through it with a function that
has no state, one bind at a time.
-/
import Pintos.Lib.Outcome

set_option autoImplicit false

namespace Pintos

universe u v

/-- The same ending, and related results. -/
inductive Outcome.Rel {α : Type u} {β : Type v} (R : α → β → Prop) : Outcome α → Outcome β → Prop
  | ok {a : α} {b : β} (h : R a b) : Outcome.Rel R (.ok a) (.ok b)
  | panic : Outcome.Rel R .panic .panic
  | undefined : Outcome.Rel R .undefined .undefined
  | diverge : Outcome.Rel R .diverge .diverge

namespace Outcome.Rel

variable {α β : Type u} {γ δ : Type u} {R : α → β → Prop} {S : γ → δ → Prop} {x : Outcome α}
  {y : Outcome β}

/-- **Sequencing.** -/
theorem bind (h : Rel R x y) {f : α → Outcome γ} {g : β → Outcome δ}
    (hf : ∀ a b, R a b → Rel S (f a) (g b)) : Rel S (x >>= f) (y >>= g) := by
  cases h with
  | ok hab => exact hf _ _ hab
  | panic => exact .panic
  | undefined => exact .undefined
  | diverge => exact .diverge

/-- Something done to one of the results. -/
theorem map (h : Rel R x y) {f : α → γ} {T : γ → β → Prop} (hf : ∀ a b, R a b → T (f a) b) :
    Rel T (x >>= fun a => .ok (f a)) y := by
  cases h with
  | ok hab => exact .ok (hf _ _ hab)
  | panic => exact .panic
  | undefined => exact .undefined
  | diverge => exact .diverge

/-- A step that both take alike. -/
theorem same {z : Outcome α} {f : α → Outcome γ} {g : α → Outcome δ}
    (hf : ∀ a, z = .ok a → Rel S (f a) (g a)) : Rel S (z >>= f) (z >>= g) := by
  cases z with
  | ok a => exact hf a rfl
  | panic => exact .panic
  | undefined => exact .undefined
  | diverge => exact .diverge

theorem of_ok {a : α} (h : Rel R (.ok a) y) : ∃ b, y = .ok b ∧ R a b := by
  cases h with
  | ok hab => exact ⟨_, rfl, hab⟩

/-- Results that must be equal. -/
theorem eq {z : Outcome α} (h : Rel (fun a b => a = b) x z) : x = z := by
  cases h with
  | ok hab => rw [hab]
  | panic => rfl
  | undefined => rfl
  | diverge => rfl

end Outcome.Rel

end Pintos
