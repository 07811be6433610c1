/-
Ring buffers: `n` cells in a circle, and the elements between two positions.

The elements lie from `tail` up to, but not including, `head`, so `head = tail` is the
empty buffer, and one cell always stays free. A push writes at `head`, a pop reads at
`tail`; both move their position one cell on.
-/
import Mathlib.Data.List.Iterate
import Mathlib.Logic.Function.Basic
import Mathlib.Tactic.Common

set_option autoImplicit false

namespace Pintos.RingBuffer

universe u

variable {α : Type u} {n : ℕ}

/-- The position behind `i`. -/
def next (i : Fin n) : Fin n := ⟨(i + 1) % n, Nat.mod_lt _ i.pos⟩

/-- How many positions there are from `tail` up to `head`. -/
def count (head tail : Fin n) : ℕ := if tail ≤ head then head - tail else head + n - tail

/-- The elements, the oldest first. -/
def contents (buf : Fin n → α) (head tail : Fin n) : List α :=
  (List.iterate next tail (count head tail)).map buf

variable {buf : Fin n → α} {head tail i : Fin n}

/-! ## Positions -/

theorem val_next (i : Fin n) : (next i : ℕ) = if (i : ℕ) + 1 = n then 0 else (i : ℕ) + 1 := by
  have hi := i.isLt
  unfold next
  by_cases hlast : (i : ℕ) + 1 = n
  · rw [if_pos hlast, Fin.val_mk, hlast, Nat.mod_self]
  · rw [if_neg hlast, Fin.val_mk, Nat.mod_eq_of_lt (by omega)]

theorem val_iterate_next (i : Fin n) (k : ℕ) : ((next^[k] i : Fin n) : ℕ) = (i + k) % n := by
  induction k with
  | zero => simp [Nat.mod_eq_of_lt i.isLt]
  | succ k ih =>
      rw [Function.iterate_succ_apply']
      show ((next^[k] i : Fin n) + 1 : ℕ) % n = _
      rw [ih, Nat.mod_add_mod, Nat.add_assoc]

theorem count_lt (head tail : Fin n) : count head tail < n := by
  have hh := head.isLt
  have ht := tail.isLt
  unfold count
  split
  · omega
  · rename_i hlt
    rw [Fin.not_le, Fin.lt_def] at hlt
    omega

theorem count_eq_zero : count head tail = 0 ↔ head = tail := by
  have ht := tail.isLt
  unfold count
  rw [Fin.ext_iff]
  split
  · rename_i hle
    rw [Fin.le_def] at hle
    omega
  · rename_i hlt
    rw [Fin.not_le, Fin.lt_def] at hlt
    omega

/-- One more element behind the others. -/
theorem count_next_head (h : next head ≠ tail) : count (next head) tail = count head tail + 1 := by
  have hh := head.isLt
  have ht := tail.isLt
  rw [Ne, Fin.ext_iff] at h
  unfold count
  simp only [Fin.le_def, val_next] at h ⊢
  split_ifs at h ⊢ <;> omega

/-- One element less in front. -/
theorem count_next_tail (h : head ≠ tail) : count head tail = count head (next tail) + 1 := by
  have hh := head.isLt
  have ht := tail.isLt
  rw [Ne, Fin.ext_iff] at h
  unfold count
  simp only [Fin.le_def, val_next]
  split_ifs <;> omega

/-- The walk from `tail` arrives at `head`. -/
theorem iterate_count (head tail : Fin n) : next^[count head tail] tail = head := by
  have hh := head.isLt
  have ht := tail.isLt
  apply Fin.ext
  rw [val_iterate_next]
  unfold count
  split
  · rename_i hle
    rw [Fin.le_def] at hle
    rw [Nat.add_sub_cancel' hle, Nat.mod_eq_of_lt hh]
  · rename_i hlt
    rw [Fin.not_le, Fin.lt_def] at hlt
    rw [show (tail : ℕ) + (head + n - tail) = head + n by omega, Nat.add_mod_right,
      Nat.mod_eq_of_lt hh]

/-- It does not pass `head` before. -/
theorem iterate_ne_head {k : ℕ} (hk : k < count head tail) : next^[k] tail ≠ head := by
  have hlt := count_lt head tail
  have hh := head.isLt
  have ht := tail.isLt
  intro heq
  have hval := congrArg Fin.val heq
  rw [val_iterate_next] at hval
  unfold count at hk hlt
  by_cases hwrap : (tail : ℕ) + k < n
  · rw [Nat.mod_eq_of_lt hwrap] at hval
    split at hk <;> omega
  · rw [Nat.mod_eq_sub_mod (by omega), Nat.mod_eq_of_lt (by omega)] at hval
    split at hk <;> omega

/-! ## Contents -/

@[simp] theorem length_contents : (contents buf head tail).length = count head tail := by
  simp [contents]

/-- **Capacity**: one cell stays free. -/
theorem length_contents_lt : (contents buf head tail).length < n := by
  rw [length_contents]
  exact count_lt head tail

theorem contents_eq_nil : contents buf head tail = [] ↔ head = tail := by
  rw [← List.length_eq_zero_iff, length_contents, count_eq_zero]

@[simp] theorem contents_self : contents buf head head = [] := contents_eq_nil.mpr rfl

/-- A full buffer has no room for the next element. -/
theorem next_head_eq_tail : next head = tail ↔ (contents buf head tail).length + 1 = n := by
  have hh := head.isLt
  have ht := tail.isLt
  rw [length_contents, Fin.ext_iff, val_next]
  unfold count
  simp only [Fin.le_def]
  split_ifs <;> omega

/-- A write to the free cell at `head`. -/
theorem contents_update (a : α) : contents (Function.update buf head a) head tail
    = contents buf head tail := by
  unfold contents
  apply List.map_congr_left
  intro i hi
  obtain ⟨k, hk, rfl⟩ := List.mem_iterate.mp hi
  exact Function.update_of_ne (iterate_ne_head hk) _ _

/-- **A push** adds behind. -/
theorem contents_push (h : next head ≠ tail) (a : α) :
    contents (Function.update buf head a) (next head) tail = contents buf head tail ++ [a] := by
  have hkeep : contents (Function.update buf head a) head tail = contents buf head tail :=
    contents_update a
  rw [← hkeep]
  unfold contents
  rw [count_next_head h, List.iterate_add, List.map_append, iterate_count]
  simp [List.iterate]

/-- **A pop** takes from the front. -/
theorem contents_pop (h : head ≠ tail) :
    contents buf head tail = buf tail :: contents buf head (next tail) := by
  unfold contents
  rw [count_next_tail h]
  rfl

end Pintos.RingBuffer
