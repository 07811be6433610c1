/-
How a piece of kernel code can end.

A C function of the kernel returns, or it trips an `ASSERT`, or it touches
memory it does not own, or it loops for ever. `Outcome` keeps the four apart,
because the properties of this development do: a call that panics has not
"completed", a call that reads past the end of a table has no defined result,
and a loop that never ends is not the same as a loop that ends late.

The monad instance sequences outcomes, so the model of a function is a `do`
block in the order of its C statements. Loops carry fuel; each loop's own file
says why its fuel is enough and that running out of it is divergence.
-/
import Mathlib.Tactic.Common
import Mathlib.Logic.Function.Basic

set_option autoImplicit false

namespace Pintos

universe u v

/-- The result of running kernel code. -/
inductive Outcome (α : Type u) : Type u
  /-- The call returns. -/
  | ok (a : α)
  /-- An `ASSERT` fails, `PANIC` is called, or the kernel faults on a bad pointer. -/
  | panic
  /-- The code reads or writes outside the object it works on. -/
  | undefined
  /-- A loop never ends. -/
  | diverge
  deriving DecidableEq, Repr

namespace Outcome

variable {α : Type u} {β : Type v}

/-- Run `f` on the value of `x`, if `x` returns one. -/
protected def bind (x : Outcome α) (f : α → Outcome β) : Outcome β :=
  match x with
  | ok a => f a
  | panic => panic
  | undefined => undefined
  | diverge => diverge

instance : Monad Outcome where
  pure := ok
  bind := Outcome.bind

@[simp] theorem pure_eq (a : α) : (pure a : Outcome α) = ok a := rfl

theorem ok_pair {a a' : α} {b b' : β} (h : ok (a, b) = ok (a', b')) : a = a' ∧ b = b' :=
  Prod.mk.inj (ok.inj h)

section Bind

variable {γ : Type u} (f : α → Outcome γ)

@[simp] theorem ok_bind (a : α) : (ok a >>= f) = f a := rfl

@[simp] theorem panic_bind : ((panic : Outcome α) >>= f) = panic := rfl

@[simp] theorem undefined_bind : ((undefined : Outcome α) >>= f) = undefined := rfl

@[simp] theorem diverge_bind : ((diverge : Outcome α) >>= f) = diverge := rfl

end Bind

/-- A sequence returns exactly when both halves do. Every inversion of a model
function peels its `do` block with this. -/
theorem bind_eq_ok {γ : Type u} {x : Outcome α} {f : α → Outcome γ} {c : γ} :
    (x >>= f) = ok c ↔ ∃ a, x = ok a ∧ f a = ok c := by
  cases x with
  | ok a => simp
  | panic => simp
  | undefined => simp
  | diverge => simp

theorem bind_assoc {γ δ : Type u} (x : Outcome α) (f : α → Outcome γ) (g : γ → Outcome δ) :
    (x >>= f >>= g) = x >>= fun a => f a >>= g := by
  cases x with
  | ok a => rfl
  | panic => rfl
  | undefined => rfl
  | diverge => rfl

/-- The value of a run that returns. -/
def toOption (x : Outcome α) : Option α :=
  match x with
  | ok a => some a
  | _ => none

theorem toOption_eq_some {x : Outcome α} {a : α} : x.toOption = some a ↔ x = ok a := by
  cases x with
  | ok b => simp [toOption]
  | _ => simp [toOption]

/-- `ASSERT (c)`. -/
def assert (c : Prop) [Decidable c] : Outcome PUnit.{u + 1} :=
  if c then ok ⟨⟩ else panic

/-- Two continuations that agree on what `x` returns. -/
theorem bind_congr {γ : Type u} {x : Outcome α} {f g : α → Outcome γ}
    (h : ∀ a, x = ok a → f a = g a) : (x >>= f) = x >>= g := by
  cases x with
  | ok a => exact h a rfl
  | panic => rfl
  | undefined => rfl
  | diverge => rfl

theorem assert_pos {c : Prop} [Decidable c] (h : c) : assert.{u} c = ok ⟨⟩ := if_pos h

theorem assert_neg {c : Prop} [Decidable c] (h : ¬ c) : assert.{u} c = panic := if_neg h

theorem assert_eq_ok {c : Prop} [Decidable c] {x : PUnit} : assert.{u} c = ok x ↔ c := by
  by_cases h : c
  · simp [assert, h]
  · simp [assert, h]

/-- The run returns; what it returns does not matter. -/
def Returns (x : Outcome α) : Prop := ∃ a, x = ok a

@[simp] theorem returns_ok (a : α) : Returns (ok a) := ⟨a, rfl⟩

@[simp] theorem not_returns_panic : ¬ Returns (panic : Outcome α) := by
  rintro ⟨a, h⟩
  cases h

@[simp] theorem not_returns_undefined : ¬ Returns (undefined : Outcome α) := by
  rintro ⟨a, h⟩
  cases h

/-- The run returns a value with `p`. -/
def satisfies (x : Outcome α) (p : α → Bool) : Bool :=
  match x with
  | ok a => p a
  | _ => false

theorem satisfies_iff {x : Outcome α} {p : α → Bool} :
    x.satisfies p = true ↔ ∃ a, x = ok a ∧ p a = true := by
  cases x with
  | ok a => simp [satisfies]
  | panic => simp [satisfies]
  | undefined => simp [satisfies]
  | diverge => simp [satisfies]

end Outcome

end Pintos
