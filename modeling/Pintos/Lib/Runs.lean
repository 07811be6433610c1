/-
Runs of a machine: a state, and a step for each event that may be impossible.

A run is the list of its events; `none` is a run that gets stuck. The rules are those
of safety proofs: what every step keeps holds after every run, and what a step shows
of the state it comes from can be read off any cut of the run.
-/
import Mathlib.Data.List.Induction
import Mathlib.Tactic.Common

set_option autoImplicit false

namespace Pintos

namespace Runs

variable {σ ε : Type} (step : σ → ε → Option σ)

/-- One event after the other. -/
def run : List ε → σ → Option σ
  | [], s => some s
  | e :: es, s => (step s e).bind (run es)

variable {step} {s s' : σ} {e : ε} {es es' : List ε}

@[simp] theorem run_nil : run step [] s = some s := rfl

theorem run_cons : run step (e :: es) s = some s' ↔ ∃ t, step s e = some t
    ∧ run step es t = some s' := by
  simp [run, Option.bind_eq_some_iff]

theorem run_append : run step (es ++ es') s = some s'
    ↔ ∃ t, run step es s = some t ∧ run step es' t = some s' := by
  induction es generalizing s with
  | nil => simp
  | cons e es ih =>
      rw [List.cons_append, run_cons]
      constructor
      · rintro ⟨t, hstep, hrest⟩
        obtain ⟨u, hes, hes'⟩ := ih.mp hrest
        exact ⟨u, run_cons.mpr ⟨t, hstep, hes⟩, hes'⟩
      · rintro ⟨u, hes, hes'⟩
        obtain ⟨t, hstep, hrest⟩ := run_cons.mp hes
        exact ⟨t, hstep, ih.mpr ⟨u, hrest, hes'⟩⟩

/-- The last event of a run. -/
theorem run_concat : run step (es ++ [e]) s = some s'
    ↔ ∃ t, run step es s = some t ∧ step t e = some s' := by
  rw [run_append]
  simp [run_cons]

/-- **Invariants**: what every step keeps holds after every run. -/
theorem invariant {I : σ → Prop} (hstep : ∀ s e s', I s → step s e = some s' → I s') (h : I s)
    (hrun : run step es s = some s') : I s' := by
  induction es generalizing s with
  | nil =>
      obtain rfl := Option.some.inj hrun
      exact h
  | cons e es ih =>
      obtain ⟨t, hst, hrest⟩ := run_cons.mp hrun
      exact ih (hstep s e t h hst) hrest

/-- **Conditional invariants**: a step that meets its condition keeps `I`; when all steps of a
run do, `I` holds at every cut of it. -/
theorem invariant_along {I : σ → Prop} {C : σ → ε → Prop}
    (hstep : ∀ s e s', I s → C s e → step s e = some s' → I s') (h : I s)
    (hall : ∀ pre e post t t', es = pre ++ e :: post → run step pre s = some t →
      step t e = some t' → C t e) {pre post : List ε} (hes : es = pre ++ post)
    (hrun : run step pre s = some s') : I s' := by
  induction pre using List.reverseRecOn generalizing s' post with
  | nil =>
      obtain rfl := Option.some.inj hrun
      exact h
  | append_singleton pre e ih =>
      obtain ⟨t, hpre, hst⟩ := run_concat.mp hrun
      rw [List.append_assoc] at hes
      exact hstep t e s' (ih hes hpre) (hall pre e post t s' hes hpre hst) hst

/-! ## Steps with a choice -/

/-- A run of a machine whose events leave a choice. -/
inductive Path (step : σ → ε → σ → Prop) : σ → List ε → σ → Prop
  | nil (s : σ) : Path step s [] s
  | cons {s t s' : σ} {e : ε} {es : List ε} (h : step s e t) (hrest : Path step t es s') :
      Path step s (e :: es) s'

/-- **Invariants.** -/
theorem Path.invariant {step : σ → ε → σ → Prop} {I : σ → Prop} {s s' : σ} {es : List ε}
    (hpath : Path step s es s') (hstep : ∀ s e s', e ∈ es → I s → step s e s' → I s') (h : I s) :
    I s' := by
  induction hpath with
  | nil s => exact h
  | cons hst hrest ih =>
      refine ih (fun s e s' he => hstep s e s' (List.mem_cons_of_mem _ he)) ?_
      exact hstep _ _ _ List.mem_cons_self h hst

end Runs

end Pintos
