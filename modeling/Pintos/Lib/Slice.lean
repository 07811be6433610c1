/-
Arrays that are read and written a range at a time.

`slice` is what a read of `size` elements at `offset` delivers: as many of them as the
array has. `splice` is what a write leaves: the elements written, where they were
written, and in front of them the old ones, with a filler where there were none. An array
grows by being written past its end, and never shrinks.
-/
import Mathlib.Data.List.GetD
import Mathlib.Data.List.TakeDrop

set_option autoImplicit false

namespace Pintos

universe u

variable {α : Type u} {z : α} {a b c : List α} {offset o n k : ℕ}

/-- The `size` elements from `offset` on, as far as there are any. -/
def slice (a : List α) (offset size : ℕ) : List α := (a.drop offset).take size

/-- The array with `b` at `offset`; the gap in front of it, if any, is filled with `z`. -/
def splice (z : α) (a : List α) (offset : ℕ) (b : List α) : List α :=
  a.takeD offset z ++ b ++ a.drop (offset + b.length)

theorem slice_length : (slice a o n).length = min n (a.length - o) := by
  rw [slice, List.length_take, List.length_drop]

theorem splice_length : (splice z a o b).length = max a.length (o + b.length) := by
  simp only [splice, List.length_append, List.takeD_length, List.length_drop]
  omega

theorem getElem?_slice : (slice a o n)[k]? = if k < n then a[o + k]? else none := by
  rw [slice, List.getElem?_take, List.getElem?_drop]

theorem getElem?_takeD {m : ℕ} (hk : k < m) : (a.takeD m z)[k]? = some (a.getD k z) := by
  induction m generalizing a k with
  | zero => exact absurd hk (Nat.not_lt_zero k)
  | succ m ih =>
      cases k with
      | zero => cases a <;> rfl
      | succ k =>
          rw [List.takeD_succ, List.getElem?_cons_succ, ih (by omega)]
          cases a <;> rfl

theorem slice_add (a : List α) (o n m : ℕ) :
    slice a o (n + m) = slice a o n ++ slice a (o + n) m := by
  simp only [slice, List.take_add, List.drop_drop]

/-! ## What is where after a write -/

/-- In front of what was written: what was there, or the filler. -/
theorem getElem?_splice_low (hk : k < o) : (splice z a o b)[k]? = some (a.getD k z) := by
  rw [splice, List.append_assoc, List.getElem?_append_left (by rwa [List.takeD_length]),
    getElem?_takeD hk]

theorem getElem?_splice_mid (hlo : o ≤ k) (hhi : k < o + b.length) :
    (splice z a o b)[k]? = b[k - o]? := by
  have hlen : (a.takeD o z).length = o := List.takeD_length ..
  rw [splice, List.append_assoc, List.getElem?_append_right (by omega), hlen,
    List.getElem?_append_left (by omega)]

/-- Behind what was written, nothing has changed. -/
theorem getElem?_splice_high (hk : o + b.length ≤ k) : (splice z a o b)[k]? = a[k]? := by
  have hlen : (a.takeD o z ++ b).length = o + b.length := by
    rw [List.length_append, List.takeD_length]
  rw [splice, List.getElem?_append_right (by omega), hlen, List.getElem?_drop,
    Nat.add_sub_cancel' hk]

/-- Neither has anything in front of it, up to the end of the array. -/
theorem getElem?_splice_old (hk : k < o) (hlen : k < a.length) : (splice z a o b)[k]? = a[k]? := by
  rw [getElem?_splice_low hk, List.getD_eq_getElem _ _ hlen, List.getElem?_eq_getElem hlen]

/-- **A read beside the write** delivers what it did. -/
theorem slice_splice_apart (happart : offset + n ≤ o ∨ o + b.length ≤ offset)
    (hin : offset + n ≤ a.length) : slice (splice z a o b) offset n = slice a offset n := by
  apply List.ext_getElem?
  intro k
  rw [getElem?_slice, getElem?_slice]
  by_cases hk : k < n
  · rw [if_pos hk, if_pos hk]
    rcases happart with hbelow | habove
    · exact getElem?_splice_old (by omega) (by omega)
    · exact getElem?_splice_high (by omega)
  · rw [if_neg hk, if_neg hk]

/-- A write in two parts. -/
theorem splice_splice :
    splice z (splice z a o b) (o + b.length) c = splice z a o (b ++ c) := by
  apply List.ext_getElem?
  intro k
  have hlen : (b ++ c).length = b.length + c.length := List.length_append
  by_cases hlow : k < o
  · rw [getElem?_splice_low (by omega), getElem?_splice_low hlow, List.getD_eq_getElem?_getD,
      getElem?_splice_low hlow, Option.getD_some]
  · by_cases hmid : k < o + b.length
    · have hold := getElem?_splice_mid (z := z) (a := a) (b := b) (by omega) hmid
      rw [getElem?_splice_low hmid, List.getD_eq_getElem?_getD, hold,
        getElem?_splice_mid (by omega) (by omega), List.getElem?_append_left (by omega),
        List.getElem?_eq_getElem (by omega), Option.getD_some]
    · by_cases hc : k < o + b.length + c.length
      · rw [getElem?_splice_mid (by omega) hc, getElem?_splice_mid (by omega) (by omega),
          List.getElem?_append_right (by omega)]
        congr 1
        omega
      · rw [getElem?_splice_high (by omega), getElem?_splice_high (by omega),
          getElem?_splice_high (by omega)]

end Pintos
