/-
Priority queues that are lists in order.

An element goes in front of the first one with a smaller key, so the list stays in
descending order, and elements with one key stay in the order of their arrival.
`order` records that order; it counts for the elements whose key is `fixed`, that is,
has not changed since they arrived.
-/
import Mathlib.Data.List.Sort
import Mathlib.Order.Defs.LinearOrder
import Mathlib.Tactic.Common

set_option autoImplicit false

namespace Pintos.Queue

universe u v

variable {α : Type u} {κ : Type v} [LinearOrder κ] {key key' : α → κ} {l l' order : List α}
  {fixed fixed' : α → Prop} {a b : α}

/-- Insertion in front of the first element with a smaller key. -/
def insert (key : α → κ) (l : List α) (a : α) : List α :=
    l.orderedInsert (fun a b => key a > key b) a

/-- Descending keys, and among equal fixed ones the order of arrival. -/
structure Fair (key : α → κ) (fixed : α → Prop) (order l : List α) : Prop where
  sorted : l.Pairwise fun a b => key b ≤ key a
  fifo : l.Pairwise fun a b => key a = key b → fixed a → fixed b → [a, b].Sublist order
  arrived : ∀ a ∈ l, a ∈ order

theorem fair_nil : Fair key fixed order [] := ⟨.nil, .nil, by simp⟩

/-- Where an element goes. -/
theorem insert_split (hs : l.Pairwise fun a b => key b ≤ key a) (a : α) :
    ∃ l₁ l₂, l = l₁ ++ l₂ ∧ insert key l a = l₁ ++ a :: l₂ ∧ (∀ x ∈ l₁, key a ≤ key x)
      ∧ ∀ x ∈ l₂, key x < key a := by
  induction l with
  | nil => exact ⟨[], [], rfl, rfl, by simp, by simp⟩
  | cons b l ih =>
      obtain ⟨hb, hl⟩ := List.pairwise_cons.mp hs
      unfold insert
      rw [List.orderedInsert_cons]
      by_cases hlt : key a > key b
      · rw [if_pos hlt]
        refine ⟨[], b :: l, rfl, rfl, by simp, fun x hx => ?_⟩
        rcases List.mem_cons.mp hx with rfl | hx
        · exact hlt
        · exact lt_of_le_of_lt (hb x hx) hlt
      · rw [if_neg hlt]
        obtain ⟨l₁, l₂, hsplit, hins, h₁, h₂⟩ := ih hl
        refine ⟨b :: l₁, l₂, by rw [hsplit, List.cons_append], ?_, fun x hx => ?_, h₂⟩
        · rw [List.cons_append]
          exact congrArg (b :: ·) hins
        · rcases List.mem_cons.mp hx with rfl | hx
          · exact not_lt.mp hlt
          · exact h₁ x hx

theorem mem_insert : b ∈ insert key l a ↔ b = a ∨ b ∈ l := List.mem_orderedInsert _

theorem sorted_insert (h : l.Pairwise fun a b => key b ≤ key a) (a : α) :
    (insert key l a).Pairwise fun a b => key b ≤ key a := by
  obtain ⟨l₁, l₂, rfl, hins, h₁, h₂⟩ := insert_split h a
  rw [hins]
  obtain ⟨hs₁, hs₂, hs⟩ := List.pairwise_append.mp h
  refine List.pairwise_append.mpr ⟨hs₁, List.pairwise_cons.mpr ⟨fun x hx => (h₂ x hx).le, hs₂⟩, ?_⟩
  intro x hx y hy
  rcases List.mem_cons.mp hy with rfl | hy
  · exact h₁ x hx
  · exact hs x hx y hy

/-- **Arrival.** -/
theorem Fair.insert (h : Fair key fixed order l) (a : α) :
    Fair key fixed (order ++ [a]) (insert key l a) := by
  refine ⟨sorted_insert h.sorted a, ?_, fun x hx => ?_⟩
  · obtain ⟨l₁, l₂, rfl, hins, h₁, h₂⟩ := insert_split h.sorted a
    rw [hins]
    have hfifo : (l₁ ++ l₂).Pairwise fun x y =>
        key x = key y → fixed x → fixed y → [x, y].Sublist (order ++ [a]) :=
      h.fifo.imp fun hxy heq hx hy => (hxy heq hx hy).trans (List.sublist_append_left _ _)
    obtain ⟨hf₁, hf₂, hf⟩ := List.pairwise_append.mp hfifo
    refine List.pairwise_append.mpr ⟨hf₁, List.pairwise_cons.mpr ⟨?_, hf₂⟩, ?_⟩
    · -- what comes behind `a` has a smaller key
      intro x hx heq
      exact absurd heq (h₂ x hx).ne'
    · intro x hx y hy
      rcases List.mem_cons.mp hy with rfl | hy
      · intro _ _ _
        have hmem := h.arrived x (List.mem_append_left _ hx)
        exact (List.singleton_sublist.mpr hmem).append (List.Sublist.refl [y])
      · exact hf x hx y hy
  · rw [List.mem_append, List.mem_singleton]
    rcases mem_insert.mp hx with rfl | hx
    · exact .inr rfl
    · exact .inl (h.arrived x hx)

/-- **Arrivals**, one after the other. -/
theorem Fair.foldl_insert (h : Fair key fixed order l) (as : List α) :
    Fair key fixed (order ++ as) (as.foldl (Queue.insert key) l) := by
  induction as generalizing order l with
  | nil => simpa using h
  | cons a as ih =>
      have hrest := ih (h.insert a)
      rwa [List.append_assoc, List.singleton_append] at hrest

theorem foldl_insert_perm (as : List α) : (as.foldl (insert key) l).Perm (as ++ l) := by
  induction as generalizing l with
  | nil => exact .refl _
  | cons a as ih =>
      refine (ih (l := insert key l a)).trans ?_
      exact ((List.perm_orderedInsert _ a l).append_left as).trans List.perm_middle

/-- **Departure**, from the front or otherwise. -/
theorem Fair.sublist (h : Fair key fixed order l) (hl : l'.Sublist l) {p : α → Bool}
    (hp : ∀ a ∈ l', p a = true) : Fair key fixed (order.filter p) l' := by
  refine ⟨h.sorted.sublist hl, ?_, fun a ha => ?_⟩
  · refine (h.fifo.sublist hl).imp_of_mem fun {x y} hx hy hxy heq hfx hfy => ?_
    have hsub := (hxy heq hfx hfy).filter p
    rwa [List.filter_cons_of_pos (hp x hx), List.filter_cons_of_pos (hp y hy)] at hsub
  · exact List.mem_filter.mpr ⟨h.arrived a (hl.subset ha), hp a ha⟩

/-- **Keys change**, in a way that keeps the order; what changes is not fixed. -/
theorem Fair.rekey (h : Fair key fixed order l) (hsorted : l.Pairwise fun a b => key' b ≤ key' a)
    (hfixed : ∀ a ∈ l, fixed' a → fixed a ∧ key' a = key a) : Fair key' fixed' order l := by
  refine ⟨hsorted, ?_, h.arrived⟩
  refine h.fifo.imp_of_mem fun {x y} hx hy hxy heq hfx hfy => ?_
  obtain ⟨hfx', hkx⟩ := hfixed x hx hfx
  obtain ⟨hfy', hky⟩ := hfixed y hy hfy
  exact hxy (by rw [← hkx, ← hky, heq]) hfx' hfy'

/-! ## Sorting -/

/-- A stable sort, the largest key first. -/
def sort (key : α → κ) (l : List α) : List α := l.insertionSort fun a b => ¬ key a < key b

theorem sort_perm (key : α → κ) (l : List α) : (sort key l).Perm l := List.perm_insertionSort _ l

/-- **The front** has the largest key. -/
theorem sort_front (h : sort key l = a :: l') : ∀ b ∈ l, key b ≤ key a := by
  have : IsTrans α fun a b => ¬ key a < key b :=
    ⟨fun a b c hab hbc => not_lt.mpr ((not_lt.mp hbc).trans (not_lt.mp hab))⟩
  have : Std.Total fun a b : α => ¬ key a < key b :=
    ⟨fun a b => (le_total (key b) (key a)).imp not_lt.mpr not_lt.mpr⟩
  have hsorted : (sort key l).Pairwise fun a b => ¬ key a < key b := List.pairwise_insertionSort _ l
  have hperm := sort_perm key l
  rw [h] at hsorted hperm
  intro b hb
  rcases List.mem_cons.mp (hperm.mem_iff.mpr hb) with rfl | hb
  · exact le_rfl
  · exact not_lt.mp ((List.pairwise_cons.mp hsorted).1 b hb)

/-- With one key for all, nothing moves. -/
theorem sort_of_const (h : ∀ a ∈ l, ∀ b ∈ l, key a = key b) : sort key l = l := by
  apply List.Pairwise.insertionSort_eq
  exact List.pairwise_of_forall_mem_list fun a ha b hb => (h a ha b hb).not_lt

end Pintos.Queue
