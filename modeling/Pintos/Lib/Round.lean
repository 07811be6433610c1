/-
Positions in a list, and going round it.

A pointer into a doubly linked list is null, at an element, or at the marker behind the
last element. Going round, the element after the last one is the first. `round` is the
order in which the elements are met from a pointer on, each of them once.
-/
import Pintos.Lib.Outcome
import Mathlib.Data.List.Cycle
import Mathlib.Data.List.TakeDrop

set_option autoImplicit false

namespace Pintos

universe u

/-- A pointer into a list. -/
inductive list_elem (α : Type u)
  | null
  | elem (a : α)
  | tail
  deriving DecidableEq, Repr

namespace Round

variable {α : Type u}

/-- `list_begin`. -/
def list_begin : List α → list_elem α
  | [] => .tail
  | a :: _ => .elem a

/-- `list_entry`: behind the marker there is no element. -/
def list_entry : list_elem α → Outcome α
  | .elem a => .ok a
  | _ => .undefined

variable [DecidableEq α]

/-- `list_next`, which asserts that it is not at the end. -/
def list_next (l : List α) : list_elem α → Outcome (list_elem α)
  | .null => .panic
  | .tail => .panic
  | .elem a => if a ∈ l then .ok (list_begin (l.dropWhile (· ≠ a)).tail) else .undefined

/-- The elements in the order in which they are met from `p` on. -/
def round (l : List α) : list_elem α → List α
  | .elem a => l.dropWhile (· ≠ a) ++ l.takeWhile (· ≠ a)
  | _ => l

variable {l : List α} {a b : α}

theorem list_next_eq (h : a ∈ l) :
    list_next l (.elem a) = .ok (list_begin (l.dropWhile (· ≠ a)).tail) := if_pos h

theorem round_isRotated (l : List α) (p : list_elem α) : (round l p).IsRotated l := by
  cases p with
  | null => exact .refl l
  | tail => exact .refl l
  | elem a =>
      refine List.isRotated_append.trans ?_
      rw [List.takeWhile_append_dropWhile]

/-- An element splits the list. -/
theorem exists_split (h : a ∈ l) :
    ∃ xs ys, l = xs ++ a :: ys ∧ a ∉ xs ∧ l.dropWhile (· ≠ a) = a :: ys
      ∧ l.takeWhile (· ≠ a) = xs := by
  induction l with
  | nil => cases h
  | cons b l ih =>
      by_cases hb : b = a
      · subst hb
        exact ⟨[], l, rfl, List.not_mem_nil, by simp, by simp⟩
      · have ha : a ∈ l := (List.mem_cons.mp h).resolve_left (Ne.symm hb)
        obtain ⟨xs, ys, hl, hxs, hdrop, htake⟩ := ih ha
        refine ⟨b :: xs, ys, by rw [hl, List.cons_append], ?_, ?_, ?_⟩
        · rw [List.mem_cons, not_or]
          exact ⟨Ne.symm hb, hxs⟩
        · rw [List.dropWhile_cons_of_pos (by simpa using hb), hdrop]
        · rw [List.takeWhile_cons_of_pos (by simpa using hb), htake]

theorem round_elem (h : a ∈ l) : ∃ zs, round l (.elem a) = a :: zs := by
  obtain ⟨xs, ys, -, -, hdrop, -⟩ := exists_split h
  refine ⟨ys ++ l.takeWhile (· ≠ a), ?_⟩
  show l.dropWhile (· ≠ a) ++ _ = _
  rw [hdrop, List.cons_append]

theorem exists_round_cons (hne : l ≠ []) (p : list_elem α) :
    ∃ a zs, round l p = a :: zs ∧ zs.length < l.length := by
  have hrot := round_isRotated l p
  have hlen := hrot.perm.length_eq
  cases hround : round l p with
  | nil =>
      rw [hround] at hrot
      exact absurd (List.isRotated_nil_iff'.mp hrot).symm hne
  | cons a zs =>
      rw [hround, List.length_cons] at hlen
      exact ⟨a, zs, rfl, by omega⟩

/-- The element met after `a`: the next one, or the first one. -/
def list_next_round (l : List α) (p : list_elem α) : Outcome (list_elem α) := do
  let p ← list_next l p
  return if p = .tail then list_begin l else p

/-- The cyclic successor, where the list is split. -/
theorem begin_eq_next {xs ys : List α} (hl : l.Nodup) (hsplit : l = xs ++ a :: ys) (h : a ∈ l) :
    list_begin (ys ++ l) = .elem (l.next a h) := by
  have hlt : xs.length < l.length := by
    rw [hsplit, List.length_append, List.length_cons]
    omega
  have ha : l[xs.length] = a := by simp [hsplit]
  have hmod : (xs.length + 1) % l.length < l.length := Nat.mod_lt _ (by omega)
  have hnext : l.next a h = l[(xs.length + 1) % l.length] := by
    rw [← List.next_getElem l hl xs.length hlt]
    congr 1
    exact ha.symm
  rw [hnext]
  cases ys with
  | nil =>
      have hlen : l.length = xs.length + 1 := by
        rw [hsplit]
        simp
      have hzero : (xs.length + 1) % l.length = 0 := by rw [hlen, Nat.mod_self]
      simp only [hzero]
      rw [List.nil_append]
      cases l with
      | nil => cases h
      | cons b l => rfl
  | cons b ys =>
      have hlen : xs.length + 1 < l.length := by
        rw [hsplit]
        simp
      simp only [Nat.mod_eq_of_lt hlen]
      have hb : l[xs.length + 1] = b := by simp [hsplit]
      rw [hb]
      rfl

/-- **The order from the pointer on is the order of the steps.** -/
theorem list_next_round_eq {p : list_elem α} {before rest : List α} (hl : l.Nodup)
    (hround : round l p = before ++ a :: rest) :
    list_next_round l (.elem a) = .ok (list_begin (rest ++ round l p)) := by
  have hrot := round_isRotated l p
  have hperm := hrot.perm
  have ha : a ∈ round l p := by rw [hround]; simp
  have hal : a ∈ l := hperm.mem_iff.mp ha
  rw [begin_eq_next (hperm.nodup_iff.mpr hl) hround ha]
  obtain ⟨xs, ys, hsplit, -, hdrop, -⟩ := exists_split hal
  rw [List.isRotated_next_eq hrot (hperm.nodup_iff.mpr hl) ha, ← begin_eq_next hl hsplit hal]
  unfold list_next_round
  rw [list_next_eq hal, hdrop]
  cases ys with
  | nil => rfl
  | cons b ys => rfl

/-- Going round starts at the first element from null and from the end. -/
theorem start_eq {p : list_elem α} (hp : ∀ a, p = .elem a → a ∈ l) :
    (if p = .null ∨ p = .tail then list_begin l else p) = list_begin (round l p) := by
  cases p with
  | null => rfl
  | tail => rfl
  | elem a =>
      obtain ⟨zs, hround⟩ := round_elem (hp a rfl)
      rw [hround]
      rfl

end Round

end Pintos
