/-
`lib/kernel/bitmap.c`: bitmaps in 64-bit words.

Bit `K` of a bitmap is bit `K % 64` of word `K / 64`. The functions work on the words; what
they do is said of the bits.

`size_t` sums wrap. A loop that counts up to a bound is given the number of its turns.
-/
import Pintos.Lib.Outcome
import Mathlib.Algebra.Group.Nat.Defs
import Mathlib.Order.Bounds.Defs

set_option autoImplicit false

namespace Pintos.klib

/-- `struct bitmap`, with the words that `bits` points to. -/
structure bitmap where
  bit_cnt : ℕ
  bits : ℕ → BitVec 64
  bit_cnt_lt : bit_cnt < 2 ^ 64

/-- `elem_idx`. -/
def elem_idx (bit_idx : ℕ) : ℕ := bit_idx / 64

/-- `bit_mask`. -/
def bit_mask (bit_idx : ℕ) : BitVec 64 := 1#64 <<< (bit_idx % 64)

/-- `BITMAP_ERROR`, which is `SIZE_MAX`, and that is `UINT32_MAX` in this `stdint.h`. -/
def BITMAP_ERROR : ℕ := 2 ^ 32 - 1

/-- `bitmap_mark`. -/
def bitmap_mark (b : bitmap) (bit_idx : ℕ) : bitmap :=
  let idx := elem_idx bit_idx
  { b with bits := Function.update b.bits idx (b.bits idx ||| bit_mask bit_idx) }

/-- `bitmap_reset`. -/
def bitmap_reset (b : bitmap) (bit_idx : ℕ) : bitmap :=
  let idx := elem_idx bit_idx
  { b with bits := Function.update b.bits idx (b.bits idx &&& ~~~bit_mask bit_idx) }

/-- `bitmap_set`. -/
def bitmap_set (b : bitmap) (idx : ℕ) (value : Bool) : Outcome bitmap := do
  Outcome.assert (idx < b.bit_cnt)
  if value then return bitmap_mark b idx else return bitmap_reset b idx

/-- `bitmap_test`. -/
def bitmap_test (b : bitmap) (idx : ℕ) : Outcome Bool := do
  Outcome.assert (idx < b.bit_cnt)
  return decide (b.bits (elem_idx idx) &&& bit_mask idx ≠ 0#64)

/-- The loop of `bitmap_set_multiple`, with `n` bits to go. -/
def set_loop (start : ℕ) (value : Bool) : ℕ → ℕ → bitmap → Outcome bitmap
  | 0, _, b => return b
  | n + 1, i, b => do
    let b ← bitmap_set b ((start + i) % 2 ^ 64) value
    set_loop start value n (i + 1) b

/-- `bitmap_set_multiple`. -/
def bitmap_set_multiple (b : bitmap) (start cnt : ℕ) (value : Bool) : Outcome bitmap := do
  Outcome.assert (start ≤ b.bit_cnt)
  Outcome.assert ((start + cnt) % 2 ^ 64 ≤ b.bit_cnt)
  set_loop start value cnt 0 b

/-- `bitmap_set_all`. -/
def bitmap_set_all (b : bitmap) (value : Bool) : Outcome bitmap :=
  bitmap_set_multiple b 0 b.bit_cnt value

/-- The loop of `bitmap_contains`, with `n` bits to go. -/
def contains_loop (b : bitmap) (start : ℕ) (value : Bool) : ℕ → ℕ → Outcome Bool
  | 0, _ => return false
  | n + 1, i => do
    if (← bitmap_test b ((start + i) % 2 ^ 64)) = value then return true
    else contains_loop b start value n (i + 1)

/-- `bitmap_contains`. -/
def bitmap_contains (b : bitmap) (start cnt : ℕ) (value : Bool) : Outcome Bool := do
  Outcome.assert (start ≤ b.bit_cnt)
  Outcome.assert ((start + cnt) % 2 ^ 64 ≤ b.bit_cnt)
  contains_loop b start value cnt 0

/-- `bitmap_all`. -/
def bitmap_all (b : bitmap) (start cnt : ℕ) : Outcome Bool := do
  return !(← bitmap_contains b start cnt false)

/-- The loop of `bitmap_scan`, with `n` turns up to `last`. -/
def scan_loop (b : bitmap) (cnt : ℕ) (value : Bool) : ℕ → ℕ → Outcome ℕ
  | 0, _ => return BITMAP_ERROR
  | n + 1, i => do
    if ¬ (← bitmap_contains b i cnt !value) then return i
    else scan_loop b cnt value n (i + 1)

/-- `bitmap_scan`. -/
def bitmap_scan (b : bitmap) (start cnt : ℕ) (value : Bool) : Outcome ℕ := do
  Outcome.assert (start ≤ b.bit_cnt)
  if cnt ≤ b.bit_cnt then
    let last := b.bit_cnt - cnt
    scan_loop b cnt value (last + 1 - start) start
  else return BITMAP_ERROR

/-- `bitmap_scan_and_flip`. -/
def bitmap_scan_and_flip (b : bitmap) (start cnt : ℕ) (value : Bool) : Outcome (bitmap × ℕ) := do
  let idx ← bitmap_scan b start cnt value
  if idx ≠ BITMAP_ERROR then
    let b ← bitmap_set_multiple b idx cnt !value
    return (b, idx)
  else return (b, idx)

/-! ## The bits -/

section Bits

variable {b : bitmap} {i j start cnt n : ℕ} {value : Bool}

/-- The bit with number `i`. -/
def bitmap.bit (b : bitmap) (i : ℕ) : Bool := (b.bits (i / 64)).getLsbD (i % 64)

theorem getLsbD_bit_mask (hj : j < 64) : (bit_mask i).getLsbD j = decide (j = i % 64) := by
  unfold bit_mask
  rw [BitVec.getLsbD_shiftLeft, BitVec.getLsbD_one]
  have hi : i % 64 < 64 := Nat.mod_lt _ (by omega)
  by_cases heq : j = i % 64
  · subst heq
    simp [hi]
  · rw [decide_eq_false heq, Bool.and_eq_false_iff]
    by_cases hlt : j < i % 64
    · exact .inl (by simp [hlt])
    · exact .inr (by simp; omega)

/-- Words that differ in one bit: the bits are the same but for one. -/
theorem bit_update {w : BitVec 64} {v : Bool}
    (hw : ∀ k < 64, w.getLsbD k = if k = i % 64 then v else (b.bits (i / 64)).getLsbD k) :
    { b with bits := Function.update b.bits (i / 64) w }.bit = Function.update b.bit i v := by
  funext j
  show (Function.update b.bits (i / 64) w (j / 64)).getLsbD (j % 64) = _
  by_cases hidx : j / 64 = i / 64
  · rw [hidx, Function.update_self, hw _ (Nat.mod_lt _ (by omega))]
    by_cases hmod : j % 64 = i % 64
    · have hji : j = i := by omega
      rw [if_pos hmod, hji, Function.update_self]
    · have hji : j ≠ i := fun h => hmod (by rw [h])
      rw [if_neg hmod, Function.update_of_ne hji, ← hidx]
      rfl
  · have hji : j ≠ i := fun h => hidx (by rw [h])
    rw [Function.update_of_ne hidx, Function.update_of_ne hji]
    rfl

theorem bit_mark (b : bitmap) (i : ℕ) : (bitmap_mark b i).bit = Function.update b.bit i true := by
  refine bit_update fun k hk => ?_
  rw [BitVec.getLsbD_or, getLsbD_bit_mask hk]
  by_cases h : k = i % 64 <;> simp [h, elem_idx]

theorem bit_reset (b : bitmap) (i : ℕ) :
    (bitmap_reset b i).bit = Function.update b.bit i false := by
  refine bit_update fun k hk => ?_
  rw [BitVec.getLsbD_and, BitVec.getLsbD_not, getLsbD_bit_mask hk]
  by_cases h : k = i % 64 <;> simp [h, hk, elem_idx]

/-- **`bitmap_set`.** -/
theorem bitmap_set_eq (hi : i < b.bit_cnt) (value : Bool) : ∃ b', bitmap_set b i value = .ok b'
    ∧ b'.bit_cnt = b.bit_cnt ∧ b'.bit = Function.update b.bit i value := by
  unfold bitmap_set
  rw [Outcome.assert_pos hi, Outcome.ok_bind]
  cases value with
  | true => exact ⟨bitmap_mark b i, rfl, rfl, bit_mark b i⟩
  | false => exact ⟨bitmap_reset b i, rfl, rfl, bit_reset b i⟩

/-- **`bitmap_test`.** -/
theorem bitmap_test_eq (hi : i < b.bit_cnt) : bitmap_test b i = .ok (b.bit i) := by
  unfold bitmap_test
  rw [Outcome.assert_pos hi, Outcome.ok_bind]
  refine congrArg Outcome.ok ?_
  have hmod : i % 64 < 64 := Nat.mod_lt _ (by omega)
  rw [Bool.eq_iff_iff, decide_eq_true_eq]
  constructor
  · intro hne
    by_contra hbit
    refine hne (BitVec.eq_of_getLsbD_eq fun k hk => ?_)
    rw [BitVec.getLsbD_and, getLsbD_bit_mask hk, BitVec.getLsbD_zero]
    by_cases h : k = i % 64
    · subst h
      have hfalse : (b.bits (elem_idx i)).getLsbD (i % 64) = false := Bool.eq_false_iff.mpr hbit
      rw [hfalse, Bool.false_and]
    · rw [decide_eq_false h, Bool.and_false]
  · intro hbit hzero
    have hk : (b.bits (elem_idx i) &&& bit_mask i).getLsbD (i % 64) = true := by
      rw [BitVec.getLsbD_and, getLsbD_bit_mask hmod, decide_eq_true rfl, Bool.and_true]
      exact hbit
    rw [hzero, BitVec.getLsbD_zero] at hk
    exact Bool.false_ne_true hk

theorem set_loop_eq (hle : start + i + n ≤ b.bit_cnt) : ∃ b', set_loop start value n i b = .ok b'
    ∧ b'.bit_cnt = b.bit_cnt
    ∧ ∀ j, b'.bit j = if start + i ≤ j ∧ j < start + i + n then value else b.bit j := by
  induction n generalizing b i with
  | zero => exact ⟨b, rfl, rfl, fun j => by rw [if_neg (by omega)]⟩
  | succ n ih =>
      have hword : (start + i) % 2 ^ 64 = start + i :=
        Nat.mod_eq_of_lt (by have := b.bit_cnt_lt; omega)
      obtain ⟨b₁, hset, hcnt₁, hbit₁⟩ := bitmap_set_eq (b := b) (i := start + i) (by omega) value
      obtain ⟨b', hloop, hcnt', hbit'⟩ := ih (b := b₁) (i := i + 1) (by omega)
      refine ⟨b', ?_, hcnt'.trans hcnt₁, fun j => ?_⟩
      · rw [set_loop, hword, hset]
        exact hloop
      · rw [hbit', hbit₁]
        by_cases hj : j = start + i
        · subst hj
          rw [if_neg (by omega), if_pos (by omega), Function.update_self]
        · rw [Function.update_of_ne hj]
          by_cases hin : start + i ≤ j ∧ j < start + i + (n + 1)
          · rw [if_pos hin, if_pos (by omega)]
          · rw [if_neg hin, if_neg (by omega)]

/-- **`bitmap_set_multiple`** sets the bits it names and no others. -/
theorem bitmap_set_multiple_eq (hle : start + cnt ≤ b.bit_cnt) (value : Bool) :
    ∃ b', bitmap_set_multiple b start cnt value = .ok b' ∧ b'.bit_cnt = b.bit_cnt
      ∧ ∀ j, b'.bit j = if start ≤ j ∧ j < start + cnt then value else b.bit j := by
  have hword : (start + cnt) % 2 ^ 64 = start + cnt :=
    Nat.mod_eq_of_lt (by have := b.bit_cnt_lt; omega)
  unfold bitmap_set_multiple
  rw [hword, Outcome.assert_pos (show start ≤ b.bit_cnt by omega), Outcome.ok_bind,
    Outcome.assert_pos hle, Outcome.ok_bind]
  exact set_loop_eq (i := 0) hle

theorem contains_loop_eq (hle : start + i + n ≤ b.bit_cnt) :
    ∃ r, contains_loop b start value n i = .ok r
      ∧ (r = true ↔ ∃ j < n, b.bit (start + i + j) = value) := by
  induction n generalizing i with
  | zero => exact ⟨false, rfl, by simp⟩
  | succ n ih =>
      have hword : (start + i) % 2 ^ 64 = start + i :=
        Nat.mod_eq_of_lt (by have := b.bit_cnt_lt; omega)
      rw [contains_loop, hword, bitmap_test_eq (by omega), Outcome.ok_bind]
      by_cases hbit : b.bit (start + i) = value
      · rw [if_pos hbit]
        exact ⟨true, rfl, iff_of_true rfl ⟨0, by omega, hbit⟩⟩
      · rw [if_neg hbit]
        obtain ⟨r, hloop, hr⟩ := ih (i := i + 1) (by omega)
        refine ⟨r, hloop, hr.trans ⟨?_, ?_⟩⟩
        · rintro ⟨j, hj, hv⟩
          refine ⟨j + 1, by omega, ?_⟩
          rwa [show start + i + (j + 1) = start + (i + 1) + j by omega]
        · rintro ⟨j, hj, hv⟩
          cases j with
          | zero => exact absurd hv hbit
          | succ j =>
              refine ⟨j, by omega, ?_⟩
              rwa [show start + (i + 1) + j = start + i + (j + 1) by omega]

/-- **`bitmap_contains`.** -/
theorem bitmap_contains_eq (hle : start + cnt ≤ b.bit_cnt) (value : Bool) :
    ∃ r, bitmap_contains b start cnt value = .ok r
      ∧ (r = true ↔ ∃ j < cnt, b.bit (start + j) = value) := by
  have hword : (start + cnt) % 2 ^ 64 = start + cnt :=
    Nat.mod_eq_of_lt (by have := b.bit_cnt_lt; omega)
  unfold bitmap_contains
  rw [hword, Outcome.assert_pos (show start ≤ b.bit_cnt by omega), Outcome.ok_bind,
    Outcome.assert_pos hle, Outcome.ok_bind]
  exact contains_loop_eq (i := 0) hle

/-- The `cnt` bits from `i` on are all `value`. -/
def bitmap.Run (b : bitmap) (cnt : ℕ) (value : Bool) (i : ℕ) : Prop :=
  i + cnt ≤ b.bit_cnt ∧ ∀ j < cnt, b.bit (i + j) = value

/-- **`bitmap_all`.** -/
theorem bitmap_all_eq (h : b.Run cnt true i) : bitmap_all b i cnt = .ok true := by
  obtain ⟨r, hrun, hr⟩ := bitmap_contains_eq h.1 false
  have hfalse : r = false := by
    rw [Bool.eq_false_iff]
    intro htrue
    obtain ⟨j, hj, hbit⟩ := hr.mp htrue
    rw [h.2 j hj] at hbit
    exact Bool.false_ne_true hbit.symm
  unfold bitmap_all
  rw [hrun, hfalse]
  rfl

/-- A place where the loop of `bitmap_scan` stops. -/
theorem run_iff (hle : i + cnt ≤ b.bit_cnt) (value : Bool) :
    ∃ r, bitmap_contains b i cnt (!value) = .ok r ∧ (¬ r = true ↔ b.Run cnt value i) := by
  obtain ⟨r, hrun, hr⟩ := bitmap_contains_eq hle (!value)
  refine ⟨r, hrun, ?_⟩
  rw [hr]
  constructor
  · intro hno
    refine ⟨hle, fun j hj => ?_⟩
    by_contra hbit
    exact hno ⟨j, hj, Bool.eq_not.mpr hbit⟩
  · rintro ⟨-, hall⟩ ⟨j, hj, hbit⟩
    exact Bool.eq_not.mp hbit (hall j hj)

/-- **The loop of `bitmap_scan`**, by induction on the turns to go. -/
theorem scan_loop_eq (hlast : i + n = b.bit_cnt - cnt + 1) (hcnt : cnt ≤ b.bit_cnt) (value : Bool) :
    (∃ idx, scan_loop b cnt value n i = .ok idx ∧ IsLeast {j | i ≤ j ∧ b.Run cnt value j} idx)
      ∨ scan_loop b cnt value n i = .ok BITMAP_ERROR ∧ ∀ j, i ≤ j → ¬ b.Run cnt value j := by
  induction n generalizing i with
  | zero =>
      refine .inr ⟨rfl, fun j hj hrun => ?_⟩
      have := hrun.1
      omega
  | succ n ih =>
      obtain ⟨r, hrun, hr⟩ := run_iff (show i + cnt ≤ b.bit_cnt by omega) value
      rw [scan_loop, hrun, Outcome.ok_bind]
      by_cases hstop : ¬ r = true
      · rw [if_pos hstop]
        exact .inl ⟨i, rfl, ⟨Nat.le_refl i, hr.mp hstop⟩, fun j hj => hj.1⟩
      · rw [if_neg hstop]
        have hnot : ¬ b.Run cnt value i := mt hr.mpr hstop
        have hnext : ∀ j, i ≤ j → b.Run cnt value j → i + 1 ≤ j := by
          intro j hj hj'
          have hne : i ≠ j := fun h => hnot (h ▸ hj')
          omega
        rcases ih (i := i + 1) (by omega) with ⟨idx, hloop, ⟨hin, hleast⟩⟩ | ⟨hloop, hno⟩
        · refine .inl ⟨idx, hloop, ⟨Nat.le_of_succ_le hin.1, hin.2⟩, fun j hj => ?_⟩
          exact hleast ⟨hnext j hj.1 hj.2, hj.2⟩
        · exact .inr ⟨hloop, fun j hj hj' => hno j (hnext j hj hj') hj'⟩

/-- **`bitmap_scan`** finds the first run. -/
theorem bitmap_scan_eq (hstart : start ≤ b.bit_cnt) (value : Bool) :
    (∃ idx, bitmap_scan b start cnt value = .ok idx
        ∧ IsLeast {j | start ≤ j ∧ b.Run cnt value j} idx)
      ∨ bitmap_scan b start cnt value = .ok BITMAP_ERROR
        ∧ ∀ j, start ≤ j → ¬ b.Run cnt value j := by
  unfold bitmap_scan
  rw [Outcome.assert_pos hstart, Outcome.ok_bind]
  by_cases hcnt : cnt ≤ b.bit_cnt
  · rw [if_pos hcnt]
    by_cases hroom : start ≤ b.bit_cnt - cnt + 1
    · rcases scan_loop_eq
        (show start + (b.bit_cnt - cnt + 1 - start) = b.bit_cnt - cnt + 1 by omega) hcnt value
        with hfound | hnone
      · exact .inl hfound
      · exact .inr hnone
    · have hturns : b.bit_cnt - cnt + 1 - start = 0 := by omega
      refine .inr ⟨congrArg (scan_loop b cnt value · start) hturns, fun j hj hrun => ?_⟩
      have := hrun.1
      omega
  · rw [if_neg hcnt]
    refine .inr ⟨rfl, fun j _ hrun => ?_⟩
    have := hrun.1
    omega

/-- **`bitmap_scan_and_flip`** finds the first run, and flips its bits and no others. A run at the
index that means an error is lost. -/
theorem bitmap_scan_and_flip_eq (value : Bool) :
    (∃ b' idx, bitmap_scan_and_flip b 0 cnt value = .ok (b', idx) ∧ idx ≠ BITMAP_ERROR
        ∧ IsLeast {j | b.Run cnt value j} idx ∧ b'.bit_cnt = b.bit_cnt
        ∧ ∀ j, b'.bit j = if idx ≤ j ∧ j < idx + cnt then !value else b.bit j)
      ∨ bitmap_scan_and_flip b 0 cnt value = .ok (b, BITMAP_ERROR)
        ∧ ((∀ j, ¬ b.Run cnt value j) ∨ IsLeast {j | b.Run cnt value j} BITMAP_ERROR) := by
  unfold bitmap_scan_and_flip
  rcases @bitmap_scan_eq b 0 cnt (Nat.zero_le _) value
    with ⟨idx, hscan, hleast⟩ | ⟨hscan, hno⟩
  · simp only [Nat.zero_le, true_and] at hleast
    by_cases hne : idx ≠ BITMAP_ERROR
    · obtain ⟨b', hset, hcnt', hbit'⟩ := bitmap_set_multiple_eq hleast.1.1 (!value)
      refine .inl ⟨b', idx, ?_, hne, hleast, hcnt', hbit'⟩
      rw [hscan, Outcome.ok_bind, if_pos hne, hset]
      rfl
    · -- found, and taken for an error
      obtain rfl := not_not.mp hne
      refine .inr ⟨?_, .inr hleast⟩
      rw [hscan, Outcome.ok_bind, if_neg hne]
      rfl
  · refine .inr ⟨?_, .inl fun j => hno j (Nat.zero_le j)⟩
    rw [hscan, Outcome.ok_bind, if_neg (not_not.mpr rfl)]
    rfl

end Bits

end Pintos.klib
