/-
`lib/stdlib.c`: `binary_search`.

`first` and `last` are offsets from the beginning of the array. Every turn of the loop calls
`compare` once and uses up one unit of fuel, so the fuel with which the search returns bounds
the number of comparisons.
-/
import Pintos.Libc.Sort

set_option autoImplicit false

namespace Pintos.libc

/-- The loop of `binary_search`; `compare` has the key already. -/
def binary_search_loop (size : ℕ) (compare : Block size → ℤ) (array : Bytes) :
    ℕ → ℕ → ℕ → Outcome (Option ℕ)
  | 0, first, last => if first < last then .diverge else .ok none
  | fuel + 1, first, last =>
      if first < last then
        let range := (last - first) / size
        let middle := first + range / 2 * size
        let cmp := compare fun i => array (middle + i)
        if cmp < 0 then binary_search_loop size compare array fuel first middle
        else if cmp > 0 then binary_search_loop size compare array fuel (middle + size) last
        else .ok (some middle)
      else .ok none

/-- `binary_search`: the offset of a match. -/
def binary_search {κ : Type} (size : ℕ) (compare : κ → Block size → ℤ) (key : κ) (array : Bytes)
    (cnt fuel : ℕ) :
    Outcome (Option ℕ) := binary_search_loop size (compare key) array fuel 0 (size * cnt)

/-- The elements are sorted as the search for a key sees it. -/
def SortedFor {size : ℕ} (compare : Block size → ℤ) (array : Bytes) (cnt : ℕ) : Prop :=
  ∀ j k, 1 ≤ j → j ≤ k → k ≤ cnt →
    (compare (element size array k) > 0 → compare (element size array j) > 0)
    ∧ (compare (element size array j) < 0 → compare (element size array k) < 0)

section Search

variable {size cnt : ℕ} {compare : Block size → ℤ} {array : Bytes}

/-- What a result of the search says. -/
def Found (compare : Block size → ℤ) (array : Bytes) (cnt : ℕ) : Option ℕ → Prop
  | none => ∀ k, 1 ≤ k → k ≤ cnt → compare (element size array k) ≠ 0
  | some p => ∃ k, 1 ≤ k ∧ k ≤ cnt ∧ p = (k - 1) * size ∧ compare (element size array k) = 0

/-- Nothing is left to look at. -/
theorem found_none {lo : ℕ} (hsmall : ∀ k, 1 ≤ k → k ≤ lo → compare (element size array k) > 0)
    (hlarge : ∀ k, lo < k → k ≤ cnt → compare (element size array k) < 0) :
    Found compare array cnt none := by
  intro k hk hkn
  by_cases hklo : k ≤ lo
  · exact (hsmall k hk hklo).ne'
  · exact (hlarge k (by omega) hkn).ne

/-- **The loop**: the elements up to `lo` are too small, those behind `hi` are too large, and every
turn halves what is left. -/
theorem binary_search_loop_spec (hsize : 0 < size) (hsorted : SortedFor compare array cnt)
    {fuel lo hi : ℕ} (hlo : lo ≤ hi) (hhi : hi ≤ cnt) (hfuel : hi - lo < 2 ^ fuel)
    (hsmall : ∀ k, 1 ≤ k → k ≤ lo → compare (element size array k) > 0)
    (hlarge : ∀ k, hi < k → k ≤ cnt → compare (element size array k) < 0) :
    ∃ r, binary_search_loop size compare array fuel (lo * size) (hi * size) = .ok r
      ∧ Found compare array cnt r := by
  induction fuel generalizing lo hi with
  | zero =>
      obtain rfl : lo = hi := by
        rw [pow_zero] at hfuel
        omega
      refine ⟨none, ?_, found_none hsmall hlarge⟩
      rw [binary_search_loop, if_neg (lt_irrefl _)]
  | succ fuel ih =>
      unfold binary_search_loop
      by_cases hcase : lo < hi
      · rw [if_pos ((Nat.mul_lt_mul_right hsize).mpr hcase)]
        have hrange : (hi * size - lo * size) / size = hi - lo := by
          rw [← Nat.sub_mul, Nat.mul_div_cancel _ hsize]
        -- the element in the middle
        have hmiddle : lo * size + (hi - lo) / 2 * size = (lo + (hi - lo) / 2) * size := by ring
        dsimp only
        rw [hrange, hmiddle]
        generalize hmid : lo + (hi - lo) / 2 = mid
        have helem : (fun i : Fin size => array (mid * size + i))
            = element size array (mid + 1) := rfl
        have hpow : 2 ^ (fuel + 1) = 2 * 2 ^ fuel := by ring
        rw [helem]
        split
        · rename_i hless
          refine ih (by omega) (by omega) (by omega) hsmall fun k hk hkn => ?_
          exact (hsorted (mid + 1) k (by omega) (by omega) hkn).2 hless
        · split
          · rename_i hgreater
            have hsucc : mid * size + size = (mid + 1) * size := by ring
            rw [hsucc]
            refine ih (by omega) hhi (by omega) (fun k hk hkm => ?_) hlarge
            exact (hsorted k (mid + 1) hk hkm (by omega)).1 hgreater
          · refine ⟨_, rfl, mid + 1, by omega, by omega, by rw [Nat.add_sub_cancel], by omega⟩
      · obtain rfl : lo = hi := by omega
        refine ⟨none, ?_, found_none hsmall hlarge⟩
        rw [if_neg (lt_irrefl _)]

/-- **`binary_search`** in a sorted array. -/
theorem binary_search_spec {κ : Type} {compare : κ → Block size → ℤ} {key : κ} (hsize : 0 < size)
    (hsorted : SortedFor (compare key) array cnt) {fuel : ℕ} (hfuel : cnt < 2 ^ fuel) :
    ∃ r, binary_search size compare key array cnt fuel = .ok r
      ∧ Found (compare key) array cnt r := by
  have hspec := binary_search_loop_spec hsize hsorted (Nat.zero_le cnt) le_rfl (by omega)
    (fun k hk hk0 => by omega) fun k hk hkn => by omega
  rw [Nat.zero_mul] at hspec
  unfold binary_search
  rw [Nat.mul_comm size cnt]
  exact hspec

end Search

/-! ## Sorting and searching -/

section SortAndSearch

variable {size cnt : ℕ} {compare : Block size → Block size → ℤ}

/-- A sorted array is sorted for every key. -/
theorem Comparison.sortedFor (h : Comparison compare) {array : Bytes}
    (hsorted : Heap.SortedAbove (Le compare) 1 cnt (element size array)) (key : Block size) :
    SortedFor (compare key) array cnt := by
  intro j k hj hjk hkn
  have hle : compare (element size array j) (element size array k) ≤ 0 := by
    by_cases heq : j = k
    · rw [heq]
      exact (h.self _).le
    · exact hsorted j k hj (by omega) (by omega) hkn
  constructor
  · intro hgreater
    by_contra hnot
    have := h.trans _ _ _ (not_lt.mp hnot) hle
    omega
  · intro hless
    by_contra hnot
    have hkey : compare (element size array k) key ≤ 0 :=
      not_lt.mp fun hlt => hnot ((h.sign _ _).mp hlt)
    have := h.trans _ _ _ hle hkey
    have hsign := h.sign (element size array j) key
    omega

/-- **Sort, then search**: with a total preorder for `compare`, searching the sorted array finds a
match for the key exactly when the array before had one, and takes at most `log₂ cnt + 1`
comparisons. -/
theorem sort_then_search (h : Comparison compare) (hsize : 0 < size)
    (hcnt : cnt < 2 ^ 63) (s : sorting) (key : Block size) :
    ∃ s' r, sort size compare cnt s = .ok s'
      ∧ binary_search size compare key s'.array cnt (Nat.log 2 cnt + 1) = .ok r
      ∧ (r = none ↔ ∀ x ∈ elements size s.array cnt, compare key x ≠ 0)
      ∧ ∀ p, r = some p → ∃ k, 1 ≤ k ∧ k ≤ cnt ∧ p = (k - 1) * size
        ∧ compare key (element size s'.array k) = 0 := by
  obtain ⟨s', hs', hsorted, hshuf, -⟩ := sort_spec h hsize hcnt s
  obtain ⟨r, hr, hfound⟩ := binary_search_spec hsize (h.sortedFor hsorted key)
    (Nat.lt_pow_succ_log_self (by decide) cnt)
  refine ⟨s', r, hs', hr, ?_, ?_⟩
  · have hmem : ∀ x, x ∈ elements size s.array cnt ↔ ∃ k, 1 ≤ k ∧ k ≤ cnt
      ∧ element size s'.array k = x := by
      intro x
      unfold elements
      rw [← hshuf.perm.mem_iff, List.mem_map]
      simp only [List.mem_range'_1]
      constructor
      · rintro ⟨k, hk, hx⟩
        exact ⟨k, hk.1, by omega, hx⟩
      · rintro ⟨k, hk, hkn, hx⟩
        exact ⟨k, ⟨hk, by omega⟩, hx⟩
    cases r with
    | none =>
        refine iff_of_true rfl fun x hx => ?_
        obtain ⟨k, hk, hkn, rfl⟩ := (hmem x).mp hx
        exact hfound k hk hkn
    | some p =>
        obtain ⟨k, hk, hkn, -, hzero⟩ := hfound
        refine iff_of_false (by simp) fun hall => ?_
        exact hall _ ((hmem _).mpr ⟨k, hk, hkn, rfl⟩) hzero
  · rintro p rfl
    exact hfound

/-- Searching three sorted bytes. -/
theorem sort_then_search_byte : ∃ s' r, sort 1 byte_compare
    3 ⟨fun k => UInt8.ofNat (k * 150), 0⟩ = .ok s'
    ∧ binary_search 1 byte_compare (fun _ => 44) s'.array 3 (Nat.log 2 3 + 1) = .ok r
    ∧ (r = none ↔ ∀ x ∈ elements 1 (fun k => UInt8.ofNat (k * 150)) 3,
      byte_compare (fun _ => 44) x ≠ 0)
    ∧ ∀ p, r = some p → ∃ k, 1 ≤ k ∧ k ≤ 3 ∧ p = (k - 1) * 1
      ∧ byte_compare (fun _ => 44) (element 1 s'.array k) = 0 :=
  sort_then_search byte_comparison (by decide) (by decide)
    ⟨fun k => UInt8.ofNat (k * 150), 0⟩ fun _ => 44

end SortAndSearch

end Pintos.libc
