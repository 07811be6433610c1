/-
A row of lists.

`all b n` is what the lists number 0 to `n - 1` hold, one behind the other. Putting an
element in one of them adds it, and taking it out of the one that holds it takes it away.
-/
import Mathlib.Data.List.Nodup
import Mathlib.Data.List.Range
import Mathlib.Logic.Function.Basic
import Mathlib.Tactic.Common

set_option autoImplicit false

namespace Pintos.Buckets

universe u

variable {α : Type u} {b b' : ℕ → List α} {i n : ℕ} {a x : α}

/-- The elements of the first `n` lists. -/
def all (b : ℕ → List α) (n : ℕ) : List α := (List.range n).flatMap b

theorem mem_all : x ∈ all b n ↔ ∃ i < n, x ∈ b i := by
  unfold all
  simp

theorem all_succ (b : ℕ → List α) (n : ℕ) : all b (n + 1) = all b n ++ b n := by
  unfold all
  rw [List.range_succ, List.flatMap_append, List.flatMap_singleton]

theorem all_congr (h : ∀ i < n, b' i = b i) : all b' n = all b n := by
  unfold all
  exact List.flatMap_congr fun i hi => h i (List.mem_range.mp hi)

theorem all_nil (n : ℕ) : all (fun _ => ([] : List α)) n = [] := by
  unfold all
  simp

/-- **One list changes**: what is gained or lost there is gained or lost. -/
theorem all_update_perm {l : List α} (extra : List α) (hi : i < n) (h : l.Perm (extra ++ b i)) :
    (all (Function.update b i l) n).Perm (extra ++ all b n) := by
  induction n with
  | zero => omega
  | succ n ih =>
      rw [all_succ, all_succ]
      by_cases heq : i = n
      · subst heq
        have hsame : all (Function.update b i l) i = all b i :=
          all_congr fun j hj => Function.update_of_ne (Nat.ne_of_lt hj) l b
        rw [hsame, Function.update_self, ← List.append_assoc]
        refine (h.append_left _).trans ?_
        rw [← List.append_assoc]
        exact List.perm_append_comm.append_right _
      · rw [Function.update_of_ne (Ne.symm heq), ← List.append_assoc]
        exact (ih (by omega)).append_right _

/-- Putting an element in front of a list. -/
theorem all_push (hi : i < n) : (all (Function.update b i (a :: b i)) n).Perm (a :: all b n) :=
  all_update_perm [a] hi (.refl _)

variable [DecidableEq α]

/-- Taking an element out of all lists, when only list `i` holds it. -/
theorem all_erase (hi : i < n) (ha : a ∈ b i) (honly : ∀ j < n, a ∈ b j → j = i) :
    (a :: all (fun j => (b j).erase a) n).Perm (all b n) := by
  have hupdate : all (fun j => (b j).erase a) n = all (Function.update b i ((b i).erase a)) n := by
    refine all_congr fun j hj => ?_
    by_cases heq : j = i
    · rw [heq, Function.update_self]
    · rw [Function.update_of_ne heq, List.erase_of_not_mem fun hmem => heq (honly j hj hmem)]
  rw [hupdate]
  -- putting it back gives the old row
  have hback : Function.update (Function.update b i ((b i).erase a)) i (b i) = b := by
    rw [Function.update_idem, Function.update_eq_self]
  have hback' : (b i).Perm ([a] ++ Function.update b i ((b i).erase a) i) := by
    rw [Function.update_self]
    exact List.perm_cons_erase ha
  have hperm := all_update_perm [a] hi hback'
  rw [hback] at hperm
  exact hperm.symm

end Pintos.Buckets
