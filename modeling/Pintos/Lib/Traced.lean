/-
Code that leaves a log.

`Traced τ α` is an `Outcome α` together with the events that happened on the way, also on the
way to a panic. A safety property of the code is a property of every event; `Safe` goes
through a `do` block from the first statement to the last.
-/
import Pintos.Lib.Outcome

set_option autoImplicit false

namespace Pintos

universe u

/-- The result of running code that logs events of type `τ`. -/
structure Traced (τ : Type) (α : Type u) where
  log : List τ
  result : Outcome α

namespace Traced

variable {τ : Type} {α β : Type u} {P : τ → Prop}

/-- Run `f` on the value of `x`, if `x` returns one. -/
protected def bind (x : Traced τ α) (f : α → Traced τ β) : Traced τ β :=
  match x.result with
  | .ok a => ⟨x.log ++ (f a).log, (f a).result⟩
  | .panic => ⟨x.log, .panic⟩
  | .undefined => ⟨x.log, .undefined⟩
  | .diverge => ⟨x.log, .diverge⟩

instance : Monad (Traced τ) where
  pure a := ⟨[], .ok a⟩
  bind := Traced.bind

/-- Code that logs nothing. -/
def lift (x : Outcome α) : Traced τ α := ⟨[], x⟩

/-- One event. -/
def note (t : τ) : Traced τ PUnit.{u + 1} := ⟨[t], .ok ⟨⟩⟩

@[simp] theorem pure_log (a : α) : (pure a : Traced τ α).log = [] := rfl

@[simp] theorem pure_result (a : α) : (pure a : Traced τ α).result = .ok a := rfl

@[simp] theorem lift_log (x : Outcome α) : (lift x : Traced τ α).log = [] := rfl

@[simp] theorem lift_result (x : Outcome α) : (lift x : Traced τ α).result = x := rfl

@[simp] theorem lift_ok_bind (a : α) (f : α → Traced τ β) : lift (.ok a) >>= f = f a := rfl

@[simp] theorem note_result (t : τ) : (note t : Traced τ PUnit.{u + 1}).result = .ok ⟨⟩ := rfl

theorem mk_ok_bind (log : List τ) (a : α) (f : α → Traced τ β) :
    (⟨log, .ok a⟩ : Traced τ α) >>= f = ⟨log ++ (f a).log, (f a).result⟩ := rfl

/-- Without the log it is the sequence of the outcomes. -/
@[simp] theorem bind_result (x : Traced τ α) (f : α → Traced τ β) :
    (x >>= f).result = x.result >>= fun a => (f a).result := by
  change (x.bind f).result = _
  unfold Traced.bind
  cases hx : x.result with
  | ok a => rfl
  | panic => rfl
  | undefined => rfl
  | diverge => rfl

/-- Every event has `P`. -/
def Safe (P : τ → Prop) (x : Traced τ α) : Prop := ∀ t ∈ x.log, P t

@[simp] theorem safe_pure (a : α) : Safe P (pure a : Traced τ α) := fun _ h => by cases h

@[simp] theorem safe_lift (x : Outcome α) : Safe P (lift x : Traced τ α) := fun _ h => by cases h

@[simp] theorem safe_note (t : τ) : Safe P (note t : Traced τ PUnit.{u + 1}) ↔ P t := by
  simp [Safe, note]

/-- **A sequence is safe** when its first part is, and the second after it. -/
theorem safe_bind {x : Traced τ α} {f : α → Traced τ β} :
    Safe P (x >>= f) ↔ Safe P x ∧ ∀ a, x.result = .ok a → Safe P (f a) := by
  change Safe P (x.bind f) ↔ _
  unfold Safe Traced.bind
  cases hx : x.result with
  | ok a => simp [or_imp, forall_and]
  | panic => simp
  | undefined => simp
  | diverge => simp

theorem safe_ite {c : Prop} [Decidable c] {x y : Traced τ α} :
    Safe P (if c then x else y) ↔ (c → Safe P x) ∧ (¬ c → Safe P y) := by
  by_cases hc : c
  · simp [hc]
  · simp [hc]

/-- It returns `a`, and every event on the way has `P`. -/
structure Gives (P : τ → Prop) (x : Traced τ α) (a : α) : Prop where
  result : x.result = .ok a
  safe : Safe P x

theorem Gives.pure (a : α) : Gives P (Pure.pure a : Traced τ α) a := ⟨rfl, safe_pure a⟩

theorem Gives.lift {x : Outcome α} {a : α} (h : x = .ok a) :
    Gives P (Traced.lift x : Traced τ α) a :=
  ⟨h, safe_lift x⟩

theorem Gives.note {t : τ} (h : P t) : Gives P (Traced.note t : Traced τ PUnit.{u + 1}) ⟨⟩ :=
  ⟨rfl, safe_note t |>.mpr h⟩

/-- **A sequence** gives what its second part gives after the first. -/
theorem Gives.bind {x : Traced τ α} {f : α → Traced τ β} {a : α} {b : β} (hx : Gives P x a)
    (hf : Gives P (f a) b) : Gives P (x >>= f) b := by
  refine ⟨?_, safe_bind.mpr ⟨hx.safe, fun c hc => ?_⟩⟩
  · rw [bind_result, hx.result, Outcome.ok_bind, hf.result]
  · rw [hx.result] at hc
    obtain rfl := Outcome.ok.inj hc
    exact hf.safe

end Traced

end Pintos
