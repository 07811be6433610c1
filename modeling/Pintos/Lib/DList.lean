/-
Doubly linked lists between a head and a tail.

The links are partial: an element that is gone has none. `Follows` says that from a
place on, the links visit given elements in order and end at the tail, forwards and
backwards. What it visits is determined by the links; an element appended at the
tail is visited last; and a list that visits an element whose links are gone is no
list any more.
-/
import Mathlib.Data.List.Basic
import Mathlib.Data.List.Nodup
import Mathlib.Tactic.Common

set_option autoImplicit false

namespace Pintos.DList

universe u

/-- A place in a list. -/
inductive Ref (α : Type u) : Type u
  | head
  | tail
  | elem (a : α)
  deriving DecidableEq, Repr

/-- The links of a list. -/
structure Links (α : Type u) where
  next : Ref α → Option (Ref α)
  prev : Ref α → Option (Ref α)

variable {α : Type u} {k k' : Links α} {p : Ref α} {l l' : List α} {a : α}

/-- Behind `p` come the elements of `l`, and then the tail. -/
def Follows (k : Links α) : Ref α → List α → Prop
  | p, [] => k.next p = some .tail ∧ k.prev .tail = some p
  | p, a :: l => k.next p = some (.elem a) ∧ k.prev (.elem a) = some p ∧ Follows k (.elem a) l

/-- The place in front of the tail. -/
def last : Ref α → List α → Ref α
  | p, [] => p
  | _, a :: l => last (.elem a) l

theorem Follows.prev_tail (h : Follows k p l) : k.prev .tail = some (last p l) := by
  induction l generalizing p with
  | nil => exact h.2
  | cons a l ih => exact ih h.2.2

theorem last_mem (p : Ref α) (l : List α) : last p l = p ∨ ∃ a ∈ l, last p l = .elem a := by
  induction l generalizing p with
  | nil => exact .inl rfl
  | cons a l ih =>
      right
      rcases ih (.elem a) with h | ⟨b, hb, h⟩
      · exact ⟨a, List.mem_cons_self .., h⟩
      · exact ⟨b, List.mem_cons_of_mem _ hb, h⟩

/-- Only the links of what is visited matter. -/
theorem Follows.congr (h : Follows k p l) (hp : k'.next p = k.next p)
    (hl : ∀ a ∈ l, k'.next (.elem a) = k.next (.elem a) ∧ k'.prev (.elem a) = k.prev (.elem a))
    (htail : k'.prev .tail = k.prev .tail) : Follows k' p l := by
  induction l generalizing p with
  | nil => exact ⟨hp.trans h.1, htail.trans h.2⟩
  | cons a l ih =>
      obtain ⟨hnext, hprev⟩ := hl a (List.mem_cons_self ..)
      refine ⟨hp.trans h.1, hprev.trans h.2.1, ih h.2.2 hnext ?_⟩
      intro b hb
      exact hl b (List.mem_cons_of_mem _ hb)

/-- `a` is put between the last place and the tail. -/
structure Appended (k : Links α) (a : α) (k' : Links α) : Prop where
  last : ∃ q, k.prev .tail = some q ∧ k'.next q = some (.elem a) ∧ k'.prev (.elem a) = some q
    ∧ ∀ r, r ≠ q → r ≠ .elem a → k'.next r = k.next r
  next : k'.next (.elem a) = some .tail
  tail : k'.prev .tail = some (.elem a)
  prev : ∀ r, r ≠ .elem a → r ≠ .tail → k'.prev r = k.prev r

theorem Follows.append (h : Follows k p l) (hk : Appended k a k') (hnd : l.Nodup)
    (hp : p ≠ .elem a ∧ ∀ b ∈ l, p ≠ .elem b) (ha : a ∉ l) : Follows k' p (l ++ [a]) := by
  obtain ⟨q, hq, hnew, hback, hrest⟩ := hk.last
  induction l generalizing p with
  | nil =>
      obtain rfl : q = p := Option.some.inj (hq.symm.trans h.2)
      exact ⟨hnew, hback, hk.next, hk.tail⟩
  | cons b l ih =>
      obtain ⟨hnext, hprev, hfollows⟩ := h
      rw [List.nodup_cons] at hnd
      rw [List.mem_cons, not_or] at ha
      have hba : (Ref.elem b : Ref α) ≠ .elem a := fun heq => ha.1 (Ref.elem.inj heq).symm
      -- `p` is not the last place, because the list does not come back to it
      have hpq : p ≠ q := by
        have hlast : q = last (.elem b) l := Option.some.inj (hq.symm.trans hfollows.prev_tail)
        rw [hlast]
        rcases last_mem (.elem b) l with heq | ⟨c, hc, heq⟩
        · rw [heq]
          exact hp.2 b (List.mem_cons_self ..)
        · rw [heq]
          exact hp.2 c (List.mem_cons_of_mem _ hc)
      refine ⟨?_, ?_, ih hfollows hnd.2 ⟨hba, fun c hc heq => ?_⟩ ha.2⟩
      · rw [hrest p hpq hp.1]
        exact hnext
      · rw [hk.prev _ hba (by simp)]
        exact hprev
      · exact hnd.1 ((Ref.elem.inj heq) ▸ hc)

end Pintos.DList
