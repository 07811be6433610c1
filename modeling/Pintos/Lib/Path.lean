/-
Paths through a successor function.

A linked structure stored in a table, such as a cluster chain in a file
allocation table, is a function `next` together with a way to stop. `Path next a l b`
says that following `next` from `a` visits exactly the cells of `l`, in order,
and arrives at `b`. Nothing here knows what the cells are.

Two facts carry the files above. A path to a stop value is determined by its
start (`Path.unique`), and it cannot repeat a cell (`Path.nodup`): a repetition
would make the walk periodic, and a periodic walk does not arrive. So "acyclic"
never has to be asked for separately; arriving is enough.
-/
import Mathlib.Data.List.Nodup
import Mathlib.Logic.Function.Iterate

set_option autoImplicit false

namespace Pintos

universe u

variable {α : Type u} {next : α → α} {a b c e x y : α} {l l₁ l₂ : List α}

/-- From `a`, following `next`, the cells of `l` come one after the other and
then `b`. -/
def Path (next : α → α) : α → List α → α → Prop
  | a, [], b => a = b
  | a, x :: l, b => a = x ∧ Path next (next x) l b

namespace Path

/-- A path can be checked by walking it. -/
instance decidable [DecidableEq α] (next : α → α) : ∀ a l b, Decidable (Path next a l b)
  | a, [], b => inferInstanceAs (Decidable (a = b))
  | a, x :: l, b =>
      have := decidable next (next x) l b
      inferInstanceAs (Decidable (a = x ∧ Path next (next x) l b))

@[simp] theorem nil_iff : Path next a [] b ↔ a = b := Iff.rfl

@[simp] theorem cons_iff : Path next a (x :: l) b ↔ a = x ∧ Path next (next x) l b := Iff.rfl

theorem append_iff :
    Path next a (l₁ ++ l₂) c ↔ ∃ b, Path next a l₁ b ∧ Path next b l₂ c := by
  induction l₁ generalizing a with
  | nil => simp
  | cons x l₁ ih =>
      simp only [List.cons_append, cons_iff, ih]
      constructor
      · rintro ⟨rfl, b, h₁, h₂⟩
        exact ⟨b, ⟨rfl, h₁⟩, h₂⟩
      · rintro ⟨b, ⟨rfl, h₁⟩, h₂⟩
        exact ⟨rfl, b, h₁, h₂⟩

/-- The last cell of a path is the one whose successor is the end. -/
theorem snoc_iff : Path next a (l ++ [x]) b ↔ Path next a l x ∧ next x = b := by
  simp [append_iff]

/-- A path reads `next` only at its own cells. -/
theorem congr {next' : α → α} (h : Path next a l b) (hl : ∀ z ∈ l, next' z = next z) :
    Path next' a l b := by
  induction l generalizing a with
  | nil => exact h
  | cons x l ih =>
      refine ⟨h.1, ?_⟩
      rw [hl x List.mem_cons_self]
      exact ih h.2 fun z hz => hl z (List.mem_cons_of_mem _ hz)

/-- Two walks over the same cells to the same end take the same steps. -/
theorem agree {next' : α → α} (h : Path next a l b) (h' : Path next' a l b) :
    ∀ z ∈ l, next' z = next z := by
  induction l generalizing a with
  | nil =>
      intro z hz
      cases hz
  | cons x l ih =>
      obtain ⟨rfl, h⟩ := h
      obtain ⟨-, h'⟩ := h'
      have hx : next' a = next a := by
        cases l with
        | nil => exact h'.trans h.symm
        | cons y l => exact h'.1.trans h.1.symm
      intro z hz
      rcases List.mem_cons.mp hz with rfl | hz
      · exact hx
      · rw [hx] at h'
        exact ih h h' z hz

/-- The start of a non-empty path is its first cell. -/
theorem start_mem (h : Path next a l b) (hl : l ≠ []) : a ∈ l := by
  cases l with
  | nil => exact absurd rfl hl
  | cons x l => exact h.1 ▸ List.mem_cons_self

theorem eq_nil_of_end (h : Path next e l b) (hl : e ∉ l) : l = [] := by
  by_contra hne
  exact hl (h.start_mem hne)

/-- Two paths from one start to stop values, neither of which runs through a
stop value, are the same path. -/
theorem unique (stop : α → Prop) (h₁ : Path next a l₁ b) (h₂ : Path next a l₂ c)
    (hb : stop b) (hc : stop c) (s₁ : ∀ z ∈ l₁, ¬ stop z) (s₂ : ∀ z ∈ l₂, ¬ stop z) :
    l₁ = l₂ := by
  induction l₁ generalizing a l₂ with
  | nil =>
      cases l₂ with
      | nil => rfl
      | cons x l₂ =>
          have hax : a = x := h₂.1
          have hab : a = b := h₁
          exact absurd (hax ▸ hab ▸ hb) (s₂ x List.mem_cons_self)
  | cons x l₁ ih =>
      cases l₂ with
      | nil =>
          have hac : a = c := h₂
          have hax : a = x := h₁.1
          exact absurd (hax ▸ hac ▸ hc) (s₁ x List.mem_cons_self)
      | cons y l₂ =>
          have hxy : x = y := h₁.1.symm.trans h₂.1
          subst hxy
          rw [ih h₁.2 h₂.2 (fun z hz => s₁ z (List.mem_cons_of_mem _ hz))
            (fun z hz => s₂ z (List.mem_cons_of_mem _ hz))]

/-- A path that arrives does not visit a cell twice. -/
theorem nodup (stop : α → Prop) (h : Path next a l b) (hb : stop b)
    (hl : ∀ z ∈ l, ¬ stop z) : l.Nodup := by
  induction l generalizing a with
  | nil => exact List.nodup_nil
  | cons x l ih =>
      refine List.nodup_cons.mpr ⟨fun hx => ?_, ih h.2 fun z hz => hl z (List.mem_cons_of_mem _ hz)⟩
      -- the second visit to `x` starts a path that must equal the first one
      obtain ⟨s, t, rfl⟩ := List.append_of_mem hx
      obtain ⟨m, -, hm⟩ := append_iff.mp h.2
      have ht : Path next (next x) t b := hm.2
      have heq := unique stop h.2 ht hb hb (fun z hz => hl z (List.mem_cons_of_mem _ hz))
        (fun z hz => hl z (by simp [hz]))
      have hlen := congrArg List.length heq
      simp only [List.length_append, List.length_cons] at hlen
      omega

/-! ## Editing the table under a path -/

section Update

variable [DecidableEq α]

/-- Rewriting a cell off the path changes nothing. -/
theorem update_of_notMem (h : Path next a l b) (hx : x ∉ l) :
    Path (Function.update next x y) a l b :=
  h.congr fun z hz => Function.update_of_ne (fun hzx : z = x => hx (hzx ▸ hz)) _ _

/-- Redirecting the last cell moves the end of the path. -/
theorem update_last (h : Path next a (l ++ [x]) b) (hx : x ∉ l) :
    Path (Function.update next x y) a (l ++ [x]) y := by
  obtain ⟨hl, -⟩ := snoc_iff.mp h
  exact snoc_iff.mpr ⟨hl.update_of_notMem hx, Function.update_self _ _ _⟩

/-- Appending the fresh cell `y` after the last cell `x`. -/
theorem append_fresh (h : Path next a (l ++ [x]) b) (hx : x ∉ l) (hy : y ∉ l ++ [x]) :
    Path (Function.update (Function.update next y e) x y) a (l ++ [x] ++ [y]) e := by
  have hxy : y ≠ x := fun hyx => hy (by simp [hyx])
  refine snoc_iff.mpr ⟨(h.update_of_notMem hy).update_last hx, ?_⟩
  rw [Function.update_of_ne hxy, Function.update_self]

end Update

end Path

end Pintos
