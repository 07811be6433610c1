/-
Reference counts as bounds.

An object is used by some of the elements of a type, and a counter is meant to
be at least the number of them. The users need not form a finite set that can be
listed, and a counter may be too high after an error path; what copy-on-write
rests on is only that no more elements use the object than the counter says.
`Counted U n` states that without counting: any list of distinct users has at
most `n` elements.
-/
import Mathlib.Data.List.Nodup
import Mathlib.Data.Int.Notation
import Mathlib.Tactic.Common

set_option autoImplicit false

namespace Pintos

universe u

variable {α : Type u}

/-- No more than `n` elements are users. -/
def Counted (U : α → Prop) (n : ℤ) : Prop :=
  ∀ l : List α, l.Nodup → (∀ a ∈ l, U a) → (l.length : ℤ) ≤ n

namespace Counted

variable {U V : α → Prop} {n m : ℤ} {a b : α}

theorem mono (h : Counted U n) (hV : ∀ x, V x → U x) (hnm : n ≤ m) : Counted V m := by
  intro l hl hlV
  have := h l hl fun x hx => hV x (hlV x hx)
  omega

/-- An object nobody uses. -/
theorem of_empty (hU : ∀ x, ¬ U x) (hn : 0 ≤ n) : Counted U n := by
  intro l hl hlU
  cases l with
  | nil => simpa using hn
  | cons x l => exact absurd (hlU x (by simp)) (hU x)

/-- One user more, one reference more. -/
theorem insert (h : Counted U n) (hV : ∀ x, V x → U x ∨ x = a) : Counted V (n + 1) := by
  classical
  intro l hl hlV
  have herase := h (l.erase a) (hl.erase a) fun x hx => by
    have hxl : x ∈ l := List.mem_of_mem_erase hx
    have hxa : x ≠ a := fun heq => (hl.mem_erase_iff.mp hx).1 heq
    exact (hV x (hlV x hxl)).resolve_right hxa
  have hlen : l.length ≤ (l.erase a).length + 1 := by
    by_cases ha : a ∈ l
    · rw [List.length_erase_of_mem ha]
      omega
    · rw [List.erase_of_not_mem ha]
      omega
  omega

/-- One user less, one reference less. -/
theorem remove (h : Counted U n) (ha : U a) (hV : ∀ x, V x → U x ∧ x ≠ a) :
    Counted V (n - 1) := by
  intro l hl hlV
  have hcons := h (a :: l)
    (List.nodup_cons.mpr ⟨fun hal => (hV a (hlV a hal)).2 rfl, hl⟩) fun x hx => by
      rcases List.mem_cons.mp hx with rfl | hx
      · exact ha
      · exact (hV x (hlV x hx)).1
  rw [List.length_cons] at hcons
  push_cast at hcons
  omega

/-- Two users need two references. -/
theorem two_le (h : Counted U n) (ha : U a) (hb : U b) (hab : a ≠ b) : 2 ≤ n := by
  have := h [a, b] (by simpa using hab) (by simp [ha, hb])
  simpa using this

end Counted

end Pintos
