/-
`lib/stdlib.c`: `sort`, a heap sort over an array of `cnt` elements of `size` bytes.

The array is memory from its first byte on, and element `idx`, counted from 1, is the block
of `size` bytes at `(idx - 1) * size`. `compare` sees two such blocks; what is behind `aux`
is part of it. `calls` counts the comparisons, which the code does not.

The children of position `i` are computed in `size_t`. They do not wrap for an array that
fits the address space below the sign bit, which every object does.
-/
import Pintos.Lib.Outcome
import Pintos.Lib.Word
import Pintos.Lib.Heap
import Mathlib.Data.Nat.Log
import Mathlib.Tactic.Ring

set_option autoImplicit false

namespace Pintos.libc

/-- An element. -/
abbrev Block (size : ℕ) : Type := Fin size → UInt8

/-- Element `idx` of the array. -/
def element (size : ℕ) (array : Bytes) (idx : ℕ) : Block size :=
    fun i => array ((idx - 1) * size + i)

/-- The array, and how often `compare` has been called. -/
structure sorting where
  array : Bytes
  calls : ℕ

section Code

variable (size : ℕ)

/-- One turn of the loop of `do_swap`, `a` and `b` being the offsets of the two elements. -/
def do_swap_byte (a b : ℕ) (array : Bytes) (i : ℕ) : Bytes :=
  Function.update (Function.update array (a + i) (array (b + i))) (b + i) (array (a + i))

/-- `do_swap`. -/
def do_swap (array : Bytes) (a_idx b_idx : ℕ) : Bytes :=
  (List.range size).foldl (do_swap_byte ((a_idx - 1) * size) ((b_idx - 1) * size)) array

variable (compare : Block size → Block size → ℤ)

/-- `do_compare`. -/
def do_compare (array : Bytes) (a_idx b_idx : ℕ) : ℤ :=
  compare (element size array a_idx) (element size array b_idx)

/-- The first half of the choice of `max` in `heapify`. -/
def max_left (array : Bytes) (i cnt : ℕ) : ℕ :=
  let left := 2 * i % 2 ^ 64
  if left ≤ cnt ∧ do_compare size compare array left i > 0 then left else i

/-- The second half. -/
def max_right (array : Bytes) (i cnt : ℕ) : ℕ :=
  let right := (2 * i + 1) % 2 ^ 64
  let max := max_left size compare array i cnt
  if right ≤ cnt ∧ do_compare size compare array right max > 0 then right else max

/-- How often the choice calls `compare`. -/
def comparisons (i cnt : ℕ) : ℕ :=
  (if 2 * i % 2 ^ 64 ≤ cnt then 1 else 0) + if (2 * i + 1) % 2 ^ 64 ≤ cnt then 1 else 0

/-- The loop of `heapify`; `i` grows with every turn. -/
def heapify (cnt : ℕ) : ℕ → ℕ → sorting → Outcome sorting
  | 0, _, _ => .diverge
  | fuel + 1, i, s =>
      let max := max_right size compare s.array i cnt
      let s := { s with calls := s.calls + comparisons i cnt }
      if max = i then .ok s
      else heapify cnt fuel max { s with array := do_swap size s.array i max }

/-- The first loop of `sort`, from `i` down to 1. -/
def build_heap (cnt : ℕ) : ℕ → sorting → Outcome sorting
  | 0, s => .ok s
  | i + 1, s => do
      let s ← heapify size compare cnt (cnt + 1) (i + 1) s
      build_heap cnt i s

/-- The second loop of `sort`, from `i` down to 2. -/
def sort_heap (cnt : ℕ) : ℕ → sorting → Outcome sorting
  | 0, s => .ok s
  | 1, s => .ok s
  | i + 2, s => do
      let s ← heapify size compare (i + 1)
          (cnt + 1) 1 { s with array := do_swap size s.array 1 (i + 2) }
      sort_heap cnt (i + 1) s

/-- `sort`. -/
def sort (cnt : ℕ) (s : sorting) : Outcome sorting := do
  Outcome.assert (size > 0)
  let s ← build_heap size compare cnt (cnt / 2) s
  sort_heap size compare cnt cnt s

end Code

/-- What `sort` asks of `compare`: the sign of the result is that of a total preorder. -/
structure Comparison {β : Type} (compare : β → β → ℤ) : Prop where
  sign : ∀ x y, 0 < compare x y ↔ compare y x < 0
  trans : ∀ x y z, compare x y ≤ 0 → compare y z ≤ 0 → compare x z ≤ 0

namespace Comparison

variable {β : Type} {compare : β → β → ℤ}

theorem self (h : Comparison compare) (x : β) : compare x x = 0 := by
  have hsign := h.sign x x
  omega

theorem le_of_lt (h : Comparison compare) {x y : β} (hxy : 0 < compare x y) : compare y x ≤ 0 :=
  ((h.sign x y).mp hxy).le

theorem isTrans (h : Comparison compare) : IsTrans β fun x y => compare x y ≤ 0 := ⟨h.trans⟩

end Comparison

/-! ## Swapping blocks -/

section Swap

variable {size a b : ℕ} {array : Bytes}

theorem do_swap_byte_apply (hne : a ≠ b) (i k : ℕ) :
    do_swap_byte a b array i k
      = if k = a + i then array (b + i) else if k = b + i then array (a + i) else array k := by
  unfold do_swap_byte
  by_cases hb : k = b + i
  · rw [hb, Function.update_self, if_neg (by omega), if_pos rfl]
  · rw [Function.update_of_ne hb, if_neg hb]
    by_cases ha : k = a + i
    · rw [ha, Function.update_self, if_pos rfl]
    · rw [Function.update_of_ne ha, if_neg ha]

/-- After `n` turns the first `n` bytes of the two elements have changed places. -/
theorem do_swap_loop (hab : a + size ≤ b ∨ b + size ≤ a) {n : ℕ} (hn : n ≤ size)
    (hpos : 0 < size) (k : ℕ) : (List.range n).foldl (do_swap_byte a b) array k
      = if a ≤ k ∧ k < a + n then array (b + (k - a))
        else if b ≤ k ∧ k < b + n then array (a + (k - b)) else array k := by
  induction n generalizing k with
  | zero => rw [List.range_zero, List.foldl_nil, if_neg (by omega), if_neg (by omega)]
  | succ n ih =>
      have ih := ih (by omega)
      rw [List.range_succ, List.foldl_append, List.foldl_cons, List.foldl_nil,
        do_swap_byte_apply (by omega)]
      by_cases hka : k = a + n
      · rw [if_pos hka, if_pos (by omega), ih, if_neg (by omega), if_neg (by omega)]
        congr 1
        omega
      · rw [if_neg hka]
        by_cases hkb : k = b + n
        · rw [if_pos hkb, if_neg (by omega), if_pos (by omega), ih, if_neg (by omega),
            if_neg (by omega)]
          congr 1
          omega
        · rw [if_neg hkb, ih]
          have hiffa : (a ≤ k ∧ k < a + n) ↔ (a ≤ k ∧ k < a + (n + 1)) := by omega
          have hiffb : (b ≤ k ∧ k < b + n) ↔ (b ≤ k ∧ k < b + (n + 1)) := by omega
          simp only [hiffa, hiffb]

variable {i j : ℕ}

/-- Elements with different indices do not overlap. -/
theorem blocks_apart (h : i < j) : i * size + size ≤ j * size := by
  calc i * size + size = (i + 1) * size := by ring
    _ ≤ j * size := Nat.mul_le_mul_right size h

/-- **`do_swap`** exchanges two elements. -/
theorem do_swap_swapped (hpos : 0 < size) (hi : 1 ≤ i) (hj : 1 ≤ j) (hne : i ≠ j) (array : Bytes) :
    Heap.Swapped i j (element size array) (element size (do_swap size array i j)) := by
  have hapart : ∀ x y, 1 ≤ x → 1 ≤ y → x ≠ y →
      (x - 1) * size + size ≤ (y - 1) * size ∨ (y - 1) * size + size ≤ (x - 1) * size := by
    intro x y hx hy hxy
    rcases Nat.lt_or_gt_of_ne hxy with hlt | hgt
    · exact .inl (blocks_apart (by omega))
    · exact .inr (blocks_apart (by omega))
  intro k hk
  funext t
  have ht := t.isLt
  unfold element do_swap
  rw [do_swap_loop (hapart i j hi hj hne) le_rfl hpos]
  by_cases hki : k = i
  · subst hki
    rw [Equiv.swap_apply_left, if_pos (by omega)]
    congr 1
    omega
  · have hik := hapart k i hk hi hki
    rw [if_neg (by omega)]
    by_cases hkj : k = j
    · subst hkj
      rw [Equiv.swap_apply_right, if_pos (by omega)]
      congr 1
      omega
    · have hjk := hapart k j hk hj hkj
      rw [if_neg (by omega), Equiv.swap_apply_of_ne_of_ne hki hkj]

/-- It does not touch what lies behind the first `n` elements. -/
theorem do_swap_outside {n k : ℕ} (hpos : 0 < size) (hi : 1 ≤ i) (hin : i ≤ n)
    (hj : 1 ≤ j) (hjn : j ≤ n)
    (hne : i ≠ j) (hk : n * size ≤ k) (array : Bytes) : do_swap size array i j k = array k := by
  have hle : ∀ x, 1 ≤ x → x ≤ n → (x - 1) * size + size ≤ n * size :=
    fun x hx hxn => blocks_apart (by omega)
  have hapart : (i - 1) * size + size ≤ (j - 1) * size
      ∨ (j - 1) * size + size ≤ (i - 1) * size := by
    rcases Nat.lt_or_gt_of_ne hne with hlt | hgt
    · exact .inl (blocks_apart (by omega))
    · exact .inr (blocks_apart (by omega))
  have hi' := hle i hi hin
  have hj' := hle j hj hjn
  unfold do_swap
  rw [do_swap_loop hapart le_rfl hpos, if_neg (by omega), if_neg (by omega)]

end Swap

/-! ## `heapify` -/

section Heapify

variable {size : ℕ} {compare : Block size → Block size → ℤ} {lo cnt i : ℕ} {s : sorting}

/-- The order of the elements. -/
def Le (compare : Block size → Block size → ℤ) (x y : Block size) : Prop := compare x y ≤ 0

/-- **The choice of `max`.** -/
theorem max_right_largest (h : Comparison compare) (hcnt : cnt < 2 ^ 63) (hi : i ≤ cnt)
    (array : Bytes) :
    Heap.Largest (Le compare) cnt i (max_right size compare array i cnt) (element size array) := by
  have hl : 2 * i % 2 ^ 64 = 2 * i := Nat.mod_eq_of_lt (by omega)
  have hr : (2 * i + 1) % 2 ^ 64 = 2 * i + 1 := Nat.mod_eq_of_lt (by omega)
  have hself : ∀ x, Le compare x x := fun x => (h.self x).le
  have hchildren : ∀ c, c / 2 = i → c = 2 * i ∨ c = 2 * i + 1 := fun c hc => by omega
  -- the first comparison
  have hleft : (max_left size compare array i cnt = i
        ∧ (2 * i ≤ cnt → Le compare (element size array (2 * i)) (element size array i)))
      ∨ (max_left size compare array i cnt = 2 * i ∧ 2 * i ≤ cnt
        ∧ Le compare (element size array i) (element size array (2 * i))) := by
    simp only [max_left, hl, do_compare]
    split
    · rename_i hgt
      exact .inr ⟨rfl, hgt.1, h.le_of_lt hgt.2⟩
    · rename_i hle
      refine .inl ⟨rfl, fun hlc => ?_⟩
      exact not_lt.mp fun hlt => hle ⟨hlc, hlt⟩
  simp only [max_right, hr]
  split
  · -- the right child is larger than both
    rename_i hgt
    have hge := h.le_of_lt hgt.2
    refine ⟨.inr ⟨by omega, hgt.1⟩, ?_, fun c hc hcn => ?_⟩
    · rcases hleft with ⟨hm, -⟩ | ⟨hm, -, hi⟩
      · rw [hm] at hge
        exact hge
      · rw [hm] at hge
        exact h.trans _ _ _ hi hge
    · rcases hchildren c hc with rfl | rfl
      · rcases hleft with ⟨hm, hlc⟩ | ⟨hm, -⟩
        · rw [hm] at hge
          exact h.trans _ _ _ (hlc hcn) hge
        · rw [hm] at hge
          exact hge
      · exact hself _
  · rename_i hle
    have hright : 2 * i + 1 ≤ cnt →
        Le compare (element size array (2 * i + 1))
          (element size array (max_left size compare array i cnt)) :=
      fun hrc => not_lt.mp fun hlt => hle ⟨hrc, hlt⟩
    rcases hleft with ⟨hm, hlc⟩ | ⟨hm, hlc, hi⟩
    · rw [hm] at hright ⊢
      refine ⟨.inl rfl, hself _, fun c hc hcn => ?_⟩
      rcases hchildren c hc with rfl | rfl
      · exact hlc hcn
      · exact hright hcn
    · rw [hm] at hright ⊢
      refine ⟨.inr ⟨by omega, hlc⟩, hi, fun c hc hcn => ?_⟩
      rcases hchildren c hc with rfl | rfl
      · exact hself _
      · exact hright hcn

/-- Without children nothing is compared. -/
theorem comparisons_le (hcnt : cnt < 2 ^ 63) (hi : i ≤ cnt) :
    comparisons i cnt ≤ if 2 * i ≤ cnt then 2 else 0 := by
  have hl : 2 * i % 2 ^ 64 = 2 * i := Nat.mod_eq_of_lt (by omega)
  have hr : (2 * i + 1) % 2 ^ 64 = 2 * i + 1 := Nat.mod_eq_of_lt (by omega)
  unfold comparisons
  rw [hl, hr]
  split_ifs <;> omega

/-- How a call of `heapify` leaves the array of `cnt` elements. -/
structure Sifted (compare : Block size → Block size → ℤ) (lo cnt bound : ℕ)
    (s s' : sorting) : Prop where
  ordered : Heap.Ordered (Le compare) lo cnt (element size s'.array)
  shuffled : Heap.Shuffled cnt (element size s.array) (element size s'.array)
  outside : ∀ k, cnt * size ≤ k → s'.array k = s.array k
  calls : s'.calls ≤ s.calls + 2 * bound

/-- **`heapify`**: the element sinks to its place, along one path down the tree. -/
theorem heapify_spec (h : Comparison compare) (hsize : 0 < size) (hcnt : cnt < 2 ^ 63)
    (hlo : 1 ≤ lo) {fuel : ℕ} (hloi : lo ≤ i) (hi : i ≤ cnt) (hfuel : cnt < fuel + i)
    (hexc : Heap.Except (Le compare) lo cnt i (element size s.array)) :
    ∃ s', heapify size compare cnt fuel i s = .ok s'
      ∧ Sifted compare lo cnt (Nat.log 2 (cnt / i)) s s' := by
  induction fuel generalizing i s with
  | zero => omega
  | succ fuel ih =>
      have hlargest := max_right_largest h hcnt hi s.array
      have hcomp := comparisons_le hcnt hi
      unfold heapify
      dsimp only
      by_cases hmax : max_right size compare s.array i cnt = i
      · rw [if_pos hmax]
        rw [hmax] at hlargest
        refine ⟨_, rfl, hexc.stop hlargest, Heap.Shuffled.refl cnt _, fun k _ => rfl, ?_⟩
        show s.calls + comparisons i cnt ≤ _
        by_cases hchild : 2 * i ≤ cnt
        · have hdiv : 2 ≤ cnt / i := (Nat.le_div_iff_mul_le (by omega)).mpr hchild
          have hlog : 1 ≤ Nat.log 2 (cnt / i) := Nat.log_pos (by decide) hdiv
          rw [if_pos hchild] at hcomp
          omega
        · rw [if_neg hchild] at hcomp
          omega
      · rw [if_neg hmax]
        generalize max_right size compare s.array i cnt = m at hlargest hmax
        obtain ⟨hm, hmn⟩ := hlargest.child.resolve_left hmax
        have hswap := do_swap_swapped hsize (i := i) (j := m) (by omega) (by omega)
          (by omega) s.array
        have hexc' := hexc.step hlargest hmax hloi (by omega) hswap
        obtain ⟨s', hs', hsift⟩ := ih (i := m)
          (s := { array := do_swap size s.array i m, calls := s.calls + comparisons i cnt })
          (by omega) hmn (by omega) hexc'
        refine ⟨s', hs', hsift.ordered, ?_, fun k hk => ?_, ?_⟩
        · exact (hswap.shuffled (by omega) hi (by omega) hmn).trans hsift.shuffled
        · rw [hsift.outside k hk]
          exact do_swap_outside hsize (by omega) hi (by omega) hmn (by omega) hk s.array
        · -- one level down, half as many elements are left below
          have hcalls := hsift.calls
          have hdiv : 2 ≤ cnt / i := (Nat.le_div_iff_mul_le (by omega)).mpr (by omega)
          have hhalf : cnt / m ≤ cnt / i / 2 := by
            rw [Nat.div_div_eq_div_mul]
            exact Nat.div_le_div_left (by omega) (by omega)
          have hlog : Nat.log 2 (cnt / i) = Nat.log 2 (cnt / i / 2) + 1 :=
            Nat.log_of_one_lt_of_le (by decide) hdiv
          have hmono : Nat.log 2 (cnt / m) ≤ Nat.log 2 (cnt / i / 2) := Nat.log_mono_right hhalf
          rw [if_pos (by omega)] at hcomp
          dsimp only at hcalls
          omega

/-! ## `sort` -/

theorem Sifted.trans {lo' n n' : ℕ} {s₁ s₂ : sorting} (h₁ : Sifted compare lo cnt n s s₁)
    (h₂ : Sifted compare lo' cnt n' s₁ s₂) : Sifted compare lo' cnt (n + n') s s₂ := by
  have hc₁ := h₁.calls
  have hc₂ := h₂.calls
  refine ⟨h₂.ordered, h₁.shuffled.trans h₂.shuffled, fun k hk => ?_, by omega⟩
  rw [h₂.outside k hk, h₁.outside k hk]

/-- **The first loop** makes a heap, from its end to its beginning. -/
theorem build_heap_spec (h : Comparison compare) (hsize : 0 < size) (hcnt : cnt < 2 ^ 63)
    (hi : i ≤ cnt) (hord : Heap.Ordered (Le compare) (i + 1) cnt (element size s.array)) :
    ∃ s', build_heap size compare cnt i s = .ok s'
      ∧ Sifted compare 1 cnt (i * Nat.log 2 cnt) s s' := by
  induction i generalizing s with
  | zero => exact ⟨s, rfl, hord, Heap.Shuffled.refl cnt _, fun k _ => rfl, by omega⟩
  | succ i ih =>
      obtain ⟨s₁, hs₁, hsift₁⟩ := heapify_spec (i := i + 1) h hsize hcnt (Nat.succ_pos i) le_rfl hi
        (show cnt < cnt + 1 + (i + 1) by omega) hord.except
      obtain ⟨s', hs', hsift⟩ := ih (s := s₁) (by omega) hsift₁.ordered
      refine ⟨s', ?_, ?_⟩
      · rw [build_heap, hs₁, Outcome.ok_bind, hs']
      · have hlog : Nat.log 2 (cnt / (i + 1)) ≤ Nat.log 2 cnt :=
          Nat.log_mono_right (Nat.div_le_self _ _)
        have hall := hsift₁.trans hsift
        have hmul : (i + 1) * Nat.log 2 cnt = Nat.log 2 cnt + i * Nat.log 2 cnt := by ring
        refine ⟨hall.ordered, hall.shuffled, hall.outside, hall.calls.trans ?_⟩
        omega

/-- **The second loop** takes the largest element of the heap to its end, over and over. -/
theorem sort_heap_spec (h : Comparison compare) (hsize : 0 < size) (hcnt : cnt < 2 ^ 63)
    (hi : i ≤ cnt) (hord : Heap.Ordered (Le compare) 1 i (element size s.array))
    (habove : Heap.SortedAbove (Le compare) i cnt (element size s.array)) :
    ∃ s', sort_heap size compare cnt i s = .ok s'
      ∧ Heap.SortedAbove (Le compare) 1 cnt (element size s'.array)
      ∧ Heap.Shuffled cnt (element size s.array) (element size s'.array)
      ∧ (∀ k, cnt * size ≤ k → s'.array k = s.array k)
      ∧ s'.calls ≤ s.calls + 2 * (i * Nat.log 2 cnt) := by
  have htrans : IsTrans (Block size) (Le compare) := h.isTrans
  have hself : ∀ x, Le compare x x := fun x => (h.self x).le
  induction i using Nat.strong_induction_on generalizing s with
  | _ i ih =>
      match i with
      | 0 =>
          refine ⟨s, rfl, fun j k hj hjk hk hkn => ?_, Heap.Shuffled.refl cnt _,
            fun k _ => rfl, by omega⟩
          exact habove j k hj hjk (by omega) hkn
      | 1 => exact ⟨s, rfl, habove, Heap.Shuffled.refl cnt _, fun k _ => rfl, by omega⟩
      | i + 2 =>
          have hswap := do_swap_swapped hsize (i := 1) (j := i + 2) le_rfl (by omega)
            (by omega) s.array
          have hshuf : Heap.Shuffled cnt (element size s.array)
              (element size (do_swap size s.array 1 (i + 2))) :=
            hswap.shuffled le_rfl (by omega) (by omega) hi
          obtain ⟨s₁, hs₁, hsift⟩ := heapify_spec (i := 1)
            (s := { s with array := do_swap size s.array 1 (i + 2) }) h
            hsize (by omega) le_rfl le_rfl
            (show 1 ≤ i + 1 by omega) (show i + 1 < cnt + 1 + 1 by omega) (hord.except_one hswap)
          have habove₁ := (habove.swap hself hord hswap).shuffled hsift.shuffled
          obtain ⟨s', hs', hsorted, hshuf', hout, hcalls⟩ :=
            ih (i + 1) (by omega) (s := s₁) (by omega) hsift.ordered habove₁
          refine ⟨s', ?_, hsorted, ?_, fun k hk => ?_, ?_⟩
          · rw [sort_heap, hs₁, Outcome.ok_bind, hs']
          · exact (hshuf.trans (hsift.shuffled.mono (by omega))).trans hshuf'
          · have hle : (i + 1) * size ≤ k := le_trans (Nat.mul_le_mul_right size (by omega)) hk
            rw [hout k hk, hsift.outside k hle]
            exact do_swap_outside hsize le_rfl (by omega) (by omega) hi (by omega) hk s.array
          · have hlog : Nat.log 2 ((i + 1) / 1) ≤ Nat.log 2 cnt := by
              rw [Nat.div_one]
              exact Nat.log_mono_right (by omega)
            have hcalls₁ := hsift.calls
            dsimp only at hcalls₁
            have hmul : (i + 2) * Nat.log 2 cnt = Nat.log 2 cnt + (i + 1) * Nat.log 2 cnt := by ring
            omega

/-- The elements of the array. -/
def elements (size : ℕ) (array : Bytes) (cnt : ℕ) : List (Block size) :=
  (List.range' 1 cnt).map (element size array)

theorem sort_spec (h : Comparison compare) (hsize : 0 < size) (hcnt : cnt < 2 ^ 63) (s : sorting) :
    ∃ s', sort size compare cnt s = .ok s'
      ∧ Heap.SortedAbove (Le compare) 1 cnt (element size s'.array)
      ∧ Heap.Shuffled cnt (element size s.array) (element size s'.array)
      ∧ (∀ k, cnt * size ≤ k → s'.array k = s.array k)
      ∧ s'.calls ≤ s.calls + 3 * cnt * Nat.log 2 cnt := by
  obtain ⟨s₁, hs₁, hsift⟩ := build_heap_spec (i := cnt / 2) (s := s) h hsize hcnt (by omega)
    fun c hlo _ hcn => by omega
  obtain ⟨s', hs', hsorted, hshuf, hout, hcalls⟩ := sort_heap_spec h hsize hcnt le_rfl hsift.ordered
    (Heap.sortedAbove_self cnt _)
  refine ⟨s', ?_, hsorted, hsift.shuffled.trans hshuf, fun k hk => ?_, ?_⟩
  · rw [sort, Outcome.assert_pos hsize, Outcome.ok_bind, hs₁, Outcome.ok_bind, hs']
  · rw [hout k hk, hsift.outside k hk]
  · have hcalls₁ := hsift.calls
    have hhalf : 2 * (cnt / 2 * Nat.log 2 cnt) ≤ cnt * Nat.log 2 cnt := by
      calc 2 * (cnt / 2 * Nat.log 2 cnt) = 2 * (cnt / 2) * Nat.log 2 cnt := by ring
        _ ≤ cnt * Nat.log 2 cnt := Nat.mul_le_mul_right _ (by omega)
    have hthree : 3 * cnt * Nat.log 2 cnt
        = cnt * Nat.log 2 cnt + 2 * (cnt * Nat.log 2 cnt) := by ring
    omega

/-- **`sort` sorts**, whatever total preorder `compare` stands for: the elements come out in order,
they are the elements that went in, and memory behind the array is as before. -/
theorem sort_sorts (h : Comparison compare) (hsize : 0 < size) (hcnt : cnt < 2 ^ 63) (s : sorting) :
    ∃ s', sort size compare cnt s = .ok s'
      ∧ (elements size s'.array cnt).Pairwise (fun x y => compare x y ≤ 0)
      ∧ (elements size s'.array cnt).Perm (elements size s.array cnt)
      ∧ ∀ k, cnt * size ≤ k → s'.array k = s.array k := by
  obtain ⟨s', hs', hsorted, hshuf, hout, -⟩ := sort_spec h hsize hcnt s
  refine ⟨s', hs', ?_, hshuf.perm, hout⟩
  unfold elements
  rw [List.pairwise_map]
  have hlt : (List.range' 1 cnt).Pairwise (· < ·) := List.pairwise_lt_range' 1
  refine hlt.imp_of_mem fun {j k} hj hk hjk => ?_
  rw [List.mem_range'_1] at hj hk
  exact hsorted j k hj.1 hjk (by omega) (by omega)

/-- Bytes in their order. -/
def byte_compare (x y : Block 1) : ℤ := (x 0).toNat - (y 0).toNat

theorem byte_comparison : Comparison byte_compare := by
  refine ⟨fun x y => ?_, fun x y z hxy hyz => ?_⟩
  · unfold byte_compare
    omega
  · unfold byte_compare at hxy hyz ⊢
    omega

/-- Three bytes. -/
theorem sort_three_bytes : ∃ s', sort 1 byte_compare 3 ⟨fun k => UInt8.ofNat (k * 150), 0⟩ = .ok s'
    ∧ (elements 1 s'.array 3).Pairwise (fun x y => byte_compare x y ≤ 0)
    ∧ (elements 1 s'.array 3).Perm (elements 1 (fun k => UInt8.ofNat (k * 150)) 3)
    ∧ ∀ k, 3 * 1 ≤ k → s'.array k = UInt8.ofNat (k * 150) :=
  sort_sorts byte_comparison (by decide) (by decide) ⟨fun k => UInt8.ofNat (k * 150), 0⟩

/-- **`sort` takes time `n log n`**, as its comment says, counted in calls of `compare`. -/
theorem sort_comparisons (h : Comparison compare) (hsize : 0 < size) (hcnt : cnt < 2 ^ 63)
    (s : sorting) :
    ∃ s', sort size compare cnt s = .ok s' ∧ s'.calls ≤ s.calls + 3 * cnt * Nat.log 2 cnt := by
  obtain ⟨s', hs', -, -, -, hcalls⟩ := sort_spec h hsize hcnt s
  exact ⟨s', hs', hcalls⟩

/-- A hundred bytes take at most 1800 comparisons. -/
theorem sort_hundred_bytes : ∃ s', sort 1 byte_compare
    100 ⟨fun k => UInt8.ofNat (k * 150), 0⟩ = .ok s' ∧ s'.calls ≤ 0 + 3 * 100 * Nat.log 2 100 :=
  sort_comparisons byte_comparison (by decide) (by decide) ⟨fun k => UInt8.ofNat (k * 150), 0⟩

end Heapify

end Pintos.libc
