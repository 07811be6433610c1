/-
Binary heaps in an array whose first position is 1: the children of `p` are `2 * p` and
`2 * p + 1`, so the parent of `c` is `c / 2`.

`Ordered lo n` is the heap order among the positions from `lo` to `n`. Sinking an element
keeps `Except`, the order everywhere but at one position, and ends in `Ordered`. What the
algorithm does to the array is only to swap two positions; `Shuffled` says so of any number
of swaps among the first `n`.
-/
import Mathlib.Logic.Equiv.Basic
import Mathlib.Data.List.Range
import Mathlib.Data.List.Perm.Basic
import Mathlib.Data.List.Nodup
import Mathlib.Tactic.Common

set_option autoImplicit false

namespace Pintos.Heap

universe u

variable {α : Type u} (le : α → α → Prop)

/-- No position from `lo` on is smaller than one of its children up to `n`. -/
def Ordered (lo n : ℕ) (a : ℕ → α) : Prop :=
  ∀ c, lo ≤ c / 2 → 1 ≤ c / 2 → c ≤ n → le (a c) (a (c / 2))

/-- The same but for the position `hole`, whose children may be larger than it is. -/
structure Except (lo n hole : ℕ) (a : ℕ → α) : Prop where
  order : ∀ c, lo ≤ c / 2 → 1 ≤ c / 2 → c ≤ n → c / 2 ≠ hole → le (a c) (a (c / 2))
  /-- Its children are not larger than its parent. -/
  grand : ∀ c, c / 2 = hole → c ≤ n → lo ≤ hole / 2 → 1 ≤ hole / 2 → le (a c) (a (hole / 2))

/-- `m` is `hole` or one of its children, and has a largest element of these. -/
structure Largest (n hole m : ℕ) (a : ℕ → α) : Prop where
  child : m = hole ∨ m / 2 = hole ∧ m ≤ n
  hole_le : le (a hole) (a m)
  child_le : ∀ c, c / 2 = hole → c ≤ n → le (a c) (a m)

/-- Two positions have changed places. -/
def Swapped (i j : ℕ) (a a' : ℕ → α) : Prop := ∀ k, 1 ≤ k → a' k = a (Equiv.swap i j k)

/-- The first `n` elements have changed places. -/
def Shuffled (n : ℕ) (a a' : ℕ → α) : Prop :=
  ∃ σ : Equiv.Perm ℕ, (∀ k, k = 0 ∨ n < k → σ k = k) ∧ ∀ k, 1 ≤ k → a' k = a (σ k)

variable {le} {lo n hole m i j : ℕ} {a a' a'' : ℕ → α}

/-! ## Places -/

theorem Swapped.left (h : Swapped i j a a') (hi : 1 ≤ i) : a' i = a j := by
  rw [h i hi, Equiv.swap_apply_left]

theorem Swapped.right (h : Swapped i j a a') (hj : 1 ≤ j) : a' j = a i := by
  rw [h j hj, Equiv.swap_apply_right]

theorem Swapped.other (h : Swapped i j a a') {k : ℕ} (hk : 1 ≤ k) (hi : k ≠ i) (hj : k ≠ j) :
    a' k = a k := by
  rw [h k hk, Equiv.swap_apply_of_ne_of_ne hi hj]

theorem Shuffled.refl (n : ℕ) (a : ℕ → α) : Shuffled n a a :=
    ⟨.refl ℕ, fun _ _ => rfl, fun _ _ => rfl⟩

theorem Shuffled.trans (h : Shuffled n a a') (h' : Shuffled n a' a'') : Shuffled n a a'' := by
  obtain ⟨σ, hσ, ha⟩ := h
  obtain ⟨τ, hτ, ha'⟩ := h'
  refine ⟨τ.trans σ, fun k hk => ?_, fun k hk => ?_⟩
  · rw [Equiv.trans_apply, hτ k hk, hσ k hk]
  · have hτk : 1 ≤ τ k := by
      by_contra hzero
      have hfix : τ (τ k) = τ k := hτ _ (.inl (by omega))
      have := τ.injective hfix
      omega
    rw [ha' k hk, ha _ hτk, Equiv.trans_apply]

theorem Shuffled.mono (h : Shuffled m a a') (hmn : m ≤ n) : Shuffled n a a' := by
  obtain ⟨σ, hσ, ha⟩ := h
  exact ⟨σ, fun k hk => hσ k (by omega), ha⟩

theorem Swapped.shuffled (h : Swapped i j a a') (hi : 1 ≤ i) (hin : i ≤ n) (hj : 1 ≤ j)
    (hjn : j ≤ n) : Shuffled n a a' := by
  refine ⟨Equiv.swap i j, fun k hk => ?_, h⟩
  exact Equiv.swap_apply_of_ne_of_ne (by omega) (by omega)

/-- Behind `n` nothing has changed. -/
theorem Shuffled.above (h : Shuffled n a a') {k : ℕ} (hk : n < k) : a' k = a k := by
  obtain ⟨σ, hσ, ha⟩ := h
  rw [ha k (by omega), hσ k (.inr hk)]

/-- An element of the first `n` was one of the first `n`. -/
theorem Shuffled.source (h : Shuffled n a a') {k : ℕ} (hk : 1 ≤ k) (hkn : k ≤ n) :
    ∃ k', 1 ≤ k' ∧ k' ≤ n ∧ a' k = a k' := by
  obtain ⟨σ, hσ, ha⟩ := h
  refine ⟨σ k, ?_, ?_, ha k hk⟩
  · by_contra hzero
    have hfix : σ (σ k) = σ k := hσ _ (.inl (by omega))
    have := σ.injective hfix
    omega
  · by_contra hlt
    have hfix : σ (σ k) = σ k := hσ _ (.inr (by omega))
    have := σ.injective hfix
    omega

/-- **A shuffle is a permutation** of the list of the elements. -/
theorem Shuffled.perm (h : Shuffled n a a') :
    ((List.range' 1 n).map a').Perm ((List.range' 1 n).map a) := by
  obtain ⟨σ, hσ, ha⟩ := h
  have hmap : (List.range' 1 n).map a' = ((List.range' 1 n).map σ).map a := by
    rw [List.map_map]
    apply List.map_congr_left
    intro k hk
    rw [List.mem_range'_1] at hk
    exact ha k hk.1
  rw [hmap]
  apply List.Perm.map
  refine (List.perm_ext_iff_of_nodup ((List.nodup_range').map σ.injective)
    List.nodup_range').mpr fun k => ?_
  -- what `σ` moves lies between 1 and `n`, and so does where it comes from
  have hrange : ∀ k, k ∈ List.range' 1 n ↔ ¬ (k = 0 ∨ n < k) := by
    intro k
    rw [List.mem_range'_1]
    omega
  rw [List.mem_map]
  constructor
  · rintro ⟨k', hk', rfl⟩
    rw [hrange] at hk' ⊢
    intro hfix
    rw [σ.injective (hσ _ hfix)] at hfix
    exact hk' hfix
  · intro hk
    refine ⟨σ.symm k, ?_, σ.apply_symm_apply k⟩
    rw [hrange] at hk ⊢
    intro hfix
    have := hσ _ hfix
    rw [σ.apply_symm_apply] at this
    rw [← this] at hfix
    exact hk hfix

/-! ## Sinking -/

/-- The element is in its place. -/
theorem Except.stop (h : Except le lo n hole a) (hlargest : Largest le n hole hole a) :
    Ordered le lo n a := by
  intro c hlo hpos hcn
  by_cases hc : c / 2 = hole
  · rw [hc]
    exact hlargest.child_le c hc hcn
  · exact h.order c hlo hpos hcn hc

/-- **One step down**: the largest child comes up. -/
theorem Except.step (h : Except le lo n hole a) (hlargest : Largest le n hole m a) (hne : m ≠ hole)
    (hlo : lo ≤ hole) (hpos : 1 ≤ hole) (hswap : Swapped hole m a a') : Except le lo n m a' := by
  obtain ⟨hm, hmn⟩ := hlargest.child.resolve_left hne
  have hhole : a' hole = a m := hswap.left hpos
  have hnew : a' m = a hole := hswap.right (by omega)
  refine ⟨fun c hclo hcpos hcn hcm => ?_, fun c hcm hcn _ _ => ?_⟩
  · by_cases hch : c / 2 = hole
    · rw [hch, hhole]
      by_cases hc : c = m
      · rw [hc, hnew]
        exact hlargest.hole_le
      · rw [hswap.other (by omega) (by omega) hc]
        exact hlargest.child_le c hch hcn
    · have hcm' : c ≠ m := fun hc => hch (hc ▸ hm)
      rw [hswap.other hcpos hch hcm]
      by_cases hc : c = hole
      · -- the parent of the hole
        rw [hc, hhole]
        exact h.grand m hm hmn (hc ▸ hclo) (hc ▸ hcpos)
      · rw [hswap.other (by omega) hc hcm']
        exact h.order c hclo hcpos hcn hch
  · rw [hm, hhole, hswap.other (by omega) (by omega) (by omega)]
    have hord := h.order c (by omega) (by omega) hcn (by omega)
    rwa [hcm] at hord

/-- A heap from `hole + 1` on, and an element in front of it. -/
theorem Ordered.except (h : Ordered le (hole + 1) n a) : Except le hole n hole a := by
  refine ⟨fun c hlo hpos hcn hc => h c (by omega) hpos hcn, fun c _ _ hlo hpos => ?_⟩
  omega

/-- The last element takes the place of the first. -/
theorem Ordered.except_one (h : Ordered le 1 (n + 1) a) (hswap : Swapped 1 (n + 1) a a') :
    Except le 1 n 1 a' := by
  refine ⟨fun c hlo hpos hcn hc => ?_, fun c _ _ hlo _ => ?_⟩
  · rw [hswap.other (by omega) (by omega) (by omega), hswap.other hpos hc (by omega)]
    exact h c hlo hpos (by omega)
  · omega

/-- **The first element** of a heap is a largest one. -/
theorem Ordered.le_one [IsTrans α le] (hrefl : ∀ x, le x x) (h : Ordered le 1 n a)
    {k : ℕ} (hk : 1 ≤ k) (hkn : k ≤ n) : le (a k) (a 1) := by
  induction k using Nat.strong_induction_on with
  | _ k ih =>
      by_cases hone : k = 1
      · rw [hone]
        exact hrefl _
      · have hparent := h k (by omega) (by omega) hkn
        exact IsTrans.trans _ _ _ hparent (ih (k / 2) (by omega) (by omega) (by omega))

/-! ## The sorted end -/

/-- From behind `i` up to `n` the elements are sorted, and none in front is larger. -/
def SortedAbove (le : α → α → Prop) (i n : ℕ) (a : ℕ → α) : Prop :=
  ∀ j k, 1 ≤ j → j < k → i < k → k ≤ n → le (a j) (a k)

theorem sortedAbove_self (n : ℕ) (a : ℕ → α) : SortedAbove le n n a := by
  intro j k _ _ hnk hkn
  omega

/-- A shuffle in front of the sorted end. -/
theorem SortedAbove.shuffled (h : SortedAbove le i n a) (hs : Shuffled i a a') :
    SortedAbove le i n a' := by
  intro j k hj hjk hik hkn
  rw [hs.above hik]
  by_cases hji : j ≤ i
  · obtain ⟨j', hj', hji', heq⟩ := hs.source hj hji
    rw [heq]
    exact h j' k hj' (by omega) hik hkn
  · rw [hs.above (by omega)]
    exact h j k hj hjk hik hkn

/-- **The largest** goes to the end. -/
theorem SortedAbove.swap [IsTrans α le] (hrefl : ∀ x, le x x) (h : SortedAbove le (i + 1) n a)
    (hord : Ordered le 1 (i + 1) a) (hswap : Swapped 1 (i + 1) a a') : SortedAbove le i n a' := by
  have hs : Shuffled (i + 1) a a' := hswap.shuffled le_rfl (by omega) (by omega) le_rfl
  intro j k hj hjk hik hkn
  by_cases hk : k = i + 1
  · subst hk
    rw [hswap.right (by omega)]
    obtain ⟨j', hj', hji', heq⟩ := hs.source hj (by omega)
    rw [heq]
    exact hord.le_one hrefl hj' hji'
  · exact h.shuffled hs j k hj hjk (by omega) hkn

end Pintos.Heap
