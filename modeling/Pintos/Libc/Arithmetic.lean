/-
`lib/arithmetic.c`: 64-bit division out of a 64-by-32-bit division.

`divl` is the processor's instruction: it traps when the divisor is 0 or when the quotient
does not fit 32 bits. Everything else is unsigned arithmetic modulo `2 ^ 64`, or modulo `2 ^ 32`
where the C has a `uint32_t`; signed values are integers, wrapped where they are stored.
-/
import Pintos.Lib.Outcome
import Pintos.Lib.Word
import Mathlib.Algebra.Order.Ring.Nat
import Mathlib.Tactic.Ring
import Mathlib.Tactic.Linarith

set_option autoImplicit false

namespace Pintos.libc

/-! ## The code -/

/-- `divl`. -/
def divl (n d : ℕ) : Outcome ℕ := if d ≠ 0 ∧ n / d < 2 ^ 32 then .ok (n / d) else .panic

/-- One step of `nlz`: the top `k` of the 32 bits are 0. -/
def nlz_step (k : ℕ) (s : ℕ × ℕ) : ℕ × ℕ :=
  if s.2 ≤ 2 ^ (32 - k) - 1 then (s.1 + k, s.2 * 2 ^ k % 2 ^ 32) else s

/-- `nlz`. -/
def nlz (x : ℕ) : ℕ :=
  let s := nlz_step 2 (nlz_step 4 (nlz_step 8 (nlz_step 16 (0, x))))
  if s.2 ≤ 0x7FFFFFFF then s.1 + 1 else s.1

/-- The first case of `udiv64`: the divisor has 32 bits. -/
def udiv64_short (n d : ℕ) : Outcome ℕ := do
  let b := 2 ^ 32
  let n1 := n / 2 ^ 32
  let n0 := n % 2 ^ 32
  let d0 := d % 2 ^ 32
  Outcome.assert (d0 ≠ 0)
  let q ← divl ((b * (n1 % d0) + n0) % 2 ^ 64) d0
  return (q + b * (n1 / d0)) % 2 ^ 64

/-- The second case. -/
def udiv64_long (n d : ℕ) : Outcome ℕ :=
  if n < d then .ok 0
  else do
    let s := nlz (d / 2 ^ 32)
    let q ← divl (n / 2) (d * 2 ^ s % 2 ^ 64 / 2 ^ 32)
    let q := q / 2 ^ (31 - s)
    let q' := (q + 2 ^ 64 - 1) % 2 ^ 64
    return if (n + 2 ^ 64 - q' * d % 2 ^ 64) % 2 ^ 64 < d then q' else q

/-- `udiv64`. -/
def udiv64 (n d : ℕ) : Outcome ℕ := if d / 2 ^ 32 = 0 then udiv64_short n d else udiv64_long n d

/-- `umod64`, which returns a `uint32_t`. -/
def umod64 (n d : ℕ) : Outcome ℕ := do
  let q ← udiv64 n d
  return (n + 2 ^ 64 - d * q % 2 ^ 64) % 2 ^ 64 % 2 ^ 32

/-- The value of an `int64_t` computation. -/
def i64 (x : ℤ) : ℤ := (x + 2 ^ 63) % 2 ^ 64 - 2 ^ 63

/-- `n >= 0 ? (uint64_t) n : -(uint64_t) n`. -/
def abs64 (n : ℤ) : ℕ := ((if n ≥ 0 then n else -n) % 2 ^ 64).toNat

/-- `sdiv64`. -/
def sdiv64 (n d : ℤ) : Outcome ℤ := do
  let q_abs ← udiv64 (abs64 n) (abs64 d)
  return if (n < 0) = (d < 0) then i64 q_abs else i64 (-i64 q_abs)

/-- `smod64`, which returns an `int32_t`. -/
def smod64 (n d : ℤ) : Outcome ℤ := do
  let q ← sdiv64 n d
  return i32 (i64 (n - i64 (d * q)))

/-! ## Division in general -/

section Division

variable {n d b r D q : ℕ}

/-- **Digit by digit**: the quotient of the high digit, and that of its remainder with the low
one. -/
theorem div_digits (hd : 0 < d) (hi lo : ℕ) :
    (b * hi + lo) / d = (b * (hi % d) + lo) / d + b * (hi / d) := by
  have hsplit : b * hi + lo = b * (hi % d) + lo + d * (b * (hi / d)) := by
    calc b * hi + lo = b * (hi % d + d * (hi / d)) + lo := by rw [Nat.mod_add_div]
      _ = b * (hi % d) + lo + d * (b * (hi / d)) := by ring
  rw [hsplit, Nat.add_mul_div_left _ _ hd]

/-- The low quotient is a digit. -/
theorem div_digit_lt {lo : ℕ} (hd : 0 < d) (hlo : lo < b) (hi : ℕ) :
    (b * (hi % d) + lo) / d < b := by
  rw [Nat.div_lt_iff_lt_mul hd]
  have hmod : hi % d + 1 ≤ d := Nat.mod_lt _ hd
  calc b * (hi % d) + lo < b * (hi % d) + b := by omega
    _ = b * (hi % d + 1) := by ring
    _ ≤ b * d := Nat.mul_le_mul_left b hmod

/-- **A smaller divisor** that is close enough gives the quotient or one more. -/
theorem div_estimate (hD : 0 < D) (hd : d = D + r) (hclose : (n / d + 1) * r ≤ D) :
    n / d ≤ n / D ∧ n / D ≤ n / d + 1 := by
  have hdpos : 0 < d := by omega
  refine ⟨Nat.div_le_div_left (by omega) hD, ?_⟩
  rw [← Nat.lt_succ_iff, Nat.div_lt_iff_lt_mul hD]
  have hlt : n < (n / d + 1) * d := by
    rw [← Nat.div_lt_iff_lt_mul hdpos]
    exact Nat.lt_succ_self _
  calc n < (n / d + 1) * d := hlt
    _ = (n / d + 1) * D + (n / d + 1) * r := by rw [hd]; ring
    _ ≤ (n / d + 1) * D + D := by omega
    _ = (n / d + 1).succ * D := by rw [Nat.succ_eq_add_one]; ring

/-- **The correction**: `q` is the quotient or one more, and one test tells which. -/
theorem div_correct (hd : 0 < d) (hle : d ≤ n) (hq : n / d ≤ q) (hq' : q ≤ n / d + 1) :
    (q - 1) * d ≤ n ∧ (if n - (q - 1) * d < d then q - 1 else q) = n / d := by
  have hdm := Nat.div_add_mod n d
  have hmod := Nat.mod_lt n hd
  have hpos : 1 ≤ n / d := Nat.div_pos hle hd
  have hcases : q = n / d ∨ q = n / d + 1 := by omega
  rcases hcases with rfl | rfl
  · obtain ⟨k, hk⟩ : ∃ k, n / d = k + 1 := ⟨n / d - 1, by omega⟩
    rw [hk] at hdm ⊢
    have hmul : d * (k + 1) = k * d + d := by ring
    rw [Nat.add_sub_cancel, if_neg (by omega)]
    exact ⟨by omega, rfl⟩
  · have hmul : d * (n / d) = n / d * d := by ring
    rw [Nat.add_sub_cancel, if_pos (by omega)]
    exact ⟨by omega, rfl⟩

end Division

/-! ## The routines -/

section Routines

variable {n d : ℕ}

theorem divl_ok (hd : d ≠ 0) (hq : n / d < 2 ^ 32) : divl n d = .ok (n / d) := if_pos ⟨hd, hq⟩

/-- A step of `nlz` only moves zeros, and leaves less than `k` of them in front. -/
theorem nlz_step_spec {k x : ℕ} {s : ℕ × ℕ} (hk : 2 * k ≤ 32) (hs : s.2 = x * 2 ^ s.1)
    (hlt : s.2 < 2 ^ 32) (hle : 2 ^ (32 - 2 * k) ≤ s.2) :
    (nlz_step k s).2 = x * 2 ^ (nlz_step k s).1 ∧ (nlz_step k s).2 < 2 ^ 32
      ∧ 2 ^ (32 - k) ≤ (nlz_step k s).2 ∧ (nlz_step k s).1 ≤ s.1 + k := by
  unfold nlz_step
  split
  · rename_i hsmall
    have hpow : 2 ^ (32 - k) * 2 ^ k = 2 ^
        32 := by rw [← Nat.pow_add, Nat.sub_add_cancel (by omega)]
    have hpos : 0 < 2 ^ (32 - k) := Nat.two_pow_pos _
    have hfits : s.2 * 2 ^ k < 2 ^ 32 := by
      rw [← hpow]
      exact Nat.mul_lt_mul_of_pos_right (by omega) (Nat.two_pow_pos k)
    refine ⟨?_, Nat.mod_lt _ (by decide), ?_, le_rfl⟩
    · show s.2 * 2 ^ k % 2 ^ 32 = x * 2 ^ (s.1 + k)
      rw [Nat.mod_eq_of_lt hfits, hs, Nat.pow_add, Nat.mul_assoc]
    · show 2 ^ (32 - k) ≤ s.2 * 2 ^ k % 2 ^ 32
      rw [Nat.mod_eq_of_lt hfits, show 32 - k = 32 - 2 * k + k by omega, Nat.pow_add]
      exact Nat.mul_le_mul_right _ hle
  · exact ⟨hs, hlt, by omega, by omega⟩

/-- **`nlz`**: shifted by it, the top bit is set. -/
theorem nlz_spec {x : ℕ} (hpos : 0 < x) (hlt : x < 2 ^ 32) :
    nlz x ≤ 31 ∧ 2 ^ 31 ≤ x * 2 ^ nlz x ∧ x * 2 ^ nlz x < 2 ^ 32 := by
  obtain ⟨h₁, l₁, t₁, n₁⟩ := nlz_step_spec (k := 16) (x := x) (s := (0, x)) (by decide)
    (by simp) hlt hpos
  obtain ⟨h₂, l₂, t₂, n₂⟩ := nlz_step_spec (k := 8) (by decide) h₁ l₁ t₁
  obtain ⟨h₃, l₃, t₃, n₃⟩ := nlz_step_spec (k := 4) (by decide) h₂ l₂ t₂
  obtain ⟨h₄, l₄, t₄, n₄⟩ := nlz_step_spec (k := 2) (by decide) h₃ l₃ t₃
  simp only [nlz]
  generalize nlz_step 2 (nlz_step 4 (nlz_step 8 (nlz_step 16 (0, x)))) = s at h₄ l₄ t₄ n₄ ⊢
  have hn : s.1 ≤ 30 := by omega
  split
  · rename_i hsmall
    have hmul : x * 2 ^ (s.1 + 1) = s.2 * 2 := by rw [h₄, Nat.pow_succ, Nat.mul_assoc]
    rw [hmul]
    omega
  · rw [← h₄]
    omega

/-- **`udiv64` by a 32-bit divisor.** -/
theorem udiv64_short_spec (hn : n < 2 ^ 64) (hd : 0 < d) (hd32 : d < 2 ^ 32) :
    udiv64_short n d = .ok (n / d) := by
  have hd0 : d % 2 ^ 32 = d := Nat.mod_eq_of_lt hd32
  have hlow : n % 2 ^ 32 < 2 ^ 32 := Nat.mod_lt _ (by decide)
  have hdigit := div_digit_lt hd hlow (n / 2 ^ 32)
  have hdigits := div_digits (b := 2 ^ 32) hd (n / 2 ^ 32) (n % 2 ^ 32)
  rw [Nat.div_add_mod] at hdigits
  have hquot : n / d < 2 ^ 64 := lt_of_le_of_lt (Nat.div_le_self n d) hn
  have hfits : 2 ^ 32 * (n / 2 ^ 32 % d) + n % 2 ^ 32 < 2 ^ 64 := by
    have hmod : n / 2 ^ 32 % d < 2 ^ 32 := lt_trans (Nat.mod_lt _ hd) hd32
    omega
  unfold udiv64_short
  dsimp only
  rw [hd0, Outcome.assert_pos hd.ne', Outcome.ok_bind, Nat.mod_eq_of_lt hfits,
    divl_ok hd.ne' hdigit, Outcome.ok_bind, ← hdigits, Nat.mod_eq_of_lt hquot]
  rfl

/-- The divisor `divl` gets in the long case: the top 32 bits of the shifted `d`. -/
theorem long_divisor {s : ℕ} (hs : s ≤ 31) (htop : 2 ^ 31 ≤ d / 2 ^ 32 * 2 ^ s)
    (hlt : d / 2 ^ 32 * 2 ^ s < 2 ^ 32) :
    d * 2 ^ s % 2 ^ 64 / 2 ^ 32 = d / 2 ^ (32 - s) ∧ 2 ^ 31 ≤ d / 2 ^ (32 - s) := by
  have hpow : 2 ^ (32 - s) * 2 ^ s = 2 ^ 32 := by rw [← Nat.pow_add, Nat.sub_add_cancel (by omega)]
  have hpos : 0 < 2 ^ s := Nat.two_pow_pos s
  have hsplit := Nat.div_add_mod d (2 ^ 32)
  have hlow : d % 2 ^ 32 < 2 ^ 32 := Nat.mod_lt _ (by decide)
  have hfits : d * 2 ^ s < 2 ^ 64 := by
    have hdlt : d < 2 ^ 32 * (d / 2 ^ 32 + 1) := by omega
    have hstep : (d / 2 ^ 32 + 1) * 2 ^ s ≤ 2 ^ 32 := by
      -- both are multiples of `2 ^ s`
      have hdvd : d / 2 ^ 32 * 2 ^ s < 2 ^ (32 - s) * 2 ^ s := by rw [hpow]; exact hlt
      have := Nat.lt_of_mul_lt_mul_right hdvd
      calc (d / 2 ^ 32 + 1) * 2 ^ s ≤ 2 ^ (32 - s) * 2 ^ s := Nat.mul_le_mul_right _ this
        _ = 2 ^ 32 := hpow
    calc d * 2 ^ s < 2 ^ 32 * (d / 2 ^ 32 + 1) * 2 ^ s := Nat.mul_lt_mul_of_pos_right hdlt hpos
      _ = 2 ^ 32 * ((d / 2 ^ 32 + 1) * 2 ^ s) := by ring
      _ ≤ 2 ^ 32 * 2 ^ 32 := Nat.mul_le_mul_left _ hstep
      _ = 2 ^ 64 := by norm_num
  have heq : d * 2 ^ s / 2 ^ 32 = d / 2 ^ (32 - s) := by
    rw [← hpow, Nat.mul_div_mul_right _ _ hpos]
  rw [Nat.mod_eq_of_lt hfits, heq]
  refine ⟨rfl, ?_⟩
  rw [← heq, Nat.le_div_iff_mul_le (by decide)]
  have hscaled : d / 2 ^ 32 * 2 ^ s * 2 ^ 32 ≤ d * 2 ^ s := by
    calc d / 2 ^ 32 * 2 ^ s * 2 ^ 32 = 2 ^ 32 * (d / 2 ^ 32) * 2 ^ s := by ring
      _ ≤ d * 2 ^ s := Nat.mul_le_mul_right _ (Nat.mul_div_le d _)
  calc 2 ^ 31 * 2 ^ 32 ≤ d / 2 ^ 32 * 2 ^ s * 2 ^ 32 := Nat.mul_le_mul_right _ htop
    _ ≤ d * 2 ^ s := hscaled

/-- **The estimate** of the long case is close enough. -/
theorem long_close (hn : n < 2 ^ 64) {s : ℕ} (hs : s ≤ 31) (hv : 2 ^ 31 ≤ d / 2 ^ (32 - s)) :
    (n / d + 1) * (d % 2 ^ (32 - s)) ≤ d / 2 ^ (32 - s) * 2 ^ (32 - s) := by
  generalize hk : 32 - s = k at hv ⊢
  have hD : 2 ^ 31 * 2 ^ k ≤ d / 2 ^ k * 2 ^ k := Nat.mul_le_mul_right _ hv
  have hDd : d / 2 ^ k * 2 ^ k ≤ d := Nat.div_mul_le_self d _
  have hr : d % 2 ^ k < 2 ^ k := Nat.mod_lt _ (Nat.two_pow_pos k)
  -- the quotient has few bits, since the divisor has many
  have hq : n / d + 1 ≤ 2 ^ (33 - k) := by
    have hqd : n / d * (2 ^ 31 * 2 ^ k) < 2 ^ (33 - k) * (2 ^ 31 * 2 ^ k) := by
      calc n / d * (2 ^ 31 * 2 ^ k) ≤ n / d * d := Nat.mul_le_mul_left _ (hD.trans hDd)
        _ ≤ n := Nat.div_mul_le_self n d
        _ < 2 ^ 64 := hn
        _ = 2 ^ (33 - k) * (2 ^ 31 * 2 ^ k) := by
          rw [← Nat.pow_add, ← Nat.pow_add]
          congr 1
          omega
    exact Nat.lt_of_mul_lt_mul_right hqd
  by_cases hone : k = 1
  · subst hone
    have hrem : d % 2 ^ 1 ≤ 1 := by omega
    calc (n / d + 1) * (d % 2 ^ 1) ≤ 2 ^ 32 * 1 := Nat.mul_le_mul hq hrem
      _ = 2 ^ 31 * 2 ^ 1 := by norm_num
      _ ≤ d / 2 ^ 1 * 2 ^ 1 := hD
  · calc (n / d + 1) * (d % 2 ^ k) ≤ 2 ^ (33 - k) * 2 ^ k := Nat.mul_le_mul hq hr.le
      _ = 2 ^ 33 := by
        rw [← Nat.pow_add]
        congr 1
        omega
      _ ≤ 2 ^ (31 + k) := Nat.pow_le_pow_right (by decide) (by omega)
      _ = 2 ^ 31 * 2 ^ k := Nat.pow_add _ _ _
      _ ≤ d / 2 ^ k * 2 ^ k := hD

/-- **`udiv64` by a divisor of more than 32 bits.** -/
theorem udiv64_long_spec (hn : n < 2 ^ 64) (hd : d < 2 ^ 64) (hlong : 2 ^ 32 ≤ d) :
    udiv64_long n d = .ok (n / d) := by
  unfold udiv64_long
  by_cases hlt : n < d
  · rw [if_pos hlt, Nat.div_eq_of_lt hlt]
  · rw [if_neg hlt]
    dsimp only
    have hd1 : d / 2 ^ 32 < 2 ^ 32 := by omega
    obtain ⟨hs, htop, hfits⟩ := nlz_spec (x := d / 2 ^ 32) (by omega) hd1
    generalize nlz (d / 2 ^ 32) = s at hs htop hfits ⊢
    obtain ⟨hdivisor, hv⟩ := long_divisor hs htop hfits
    have hclose := long_close hn hs hv
    have hbound : n / 2 / (d / 2 ^ (32 - s)) < 2 ^ 32 := by
      rw [Nat.div_lt_iff_lt_mul (by omega)]
      omega
    rw [hdivisor, divl_ok (by omega) hbound, Outcome.ok_bind]
    -- the shifted quotient is the quotient by the rounded divisor
    have hq : n / 2 / (d / 2 ^ (32 - s)) / 2 ^ (31 - s)
        = n / (d / 2 ^ (32 - s) * 2 ^ (32 - s)) := by
      rw [Nat.div_div_eq_div_mul, Nat.div_div_eq_div_mul]
      congr 1
      rw [show 32 - s = 31 - s + 1 by omega, Nat.pow_succ]
      ring
    rw [hq]
    have hDpos : 0 < d / 2 ^ (32 - s) * 2 ^ (32 - s) := Nat.mul_pos (by omega) (Nat.two_pow_pos _)
    obtain ⟨hle, hle'⟩ := div_estimate (n := n) hDpos (Nat.div_add_mod' d _).symm hclose
    have hpos : 1 ≤ n / d := Nat.div_pos (not_lt.mp hlt) (by omega)
    generalize n / (d / 2 ^ (32 - s) * 2 ^ (32 - s)) = q at hle hle' ⊢
    obtain ⟨hmul, hcorrect⟩ := div_correct (by omega) (not_lt.mp hlt) hle hle'
    have hnd : n / d ≤ n := Nat.div_le_self n d
    have hq' : (q + 2 ^ 64 - 1) % 2 ^ 64 = q - 1 := by
      rw [show q + 2 ^ 64 - 1 = q - 1 + 2 ^ 64 by omega, Nat.add_mod_right]
      exact Nat.mod_eq_of_lt (by omega)
    have hprod : (q - 1) * d % 2 ^ 64 = (q - 1) * d := Nat.mod_eq_of_lt (by omega)
    have hsub : (n + 2 ^ 64 - (q - 1) * d) % 2 ^ 64 = n - (q - 1) * d := by
      rw [show n + 2 ^ 64 - (q - 1) * d = n - (q - 1) * d + 2 ^ 64 by omega, Nat.add_mod_right]
      exact Nat.mod_eq_of_lt (by omega)
    rw [hq', hprod, hsub, hcorrect]
    rfl

/-- **64-bit division.** The routine traps for the divisor 0 only, and returns the quotient
otherwise. -/
theorem udiv64_exact (hn : n < 2 ^ 64) (hd : d < 2 ^ 64) :
    udiv64 n d = if d = 0 then .panic else .ok (n / d) := by
  unfold udiv64
  by_cases hzero : d = 0
  · subst hzero
    rfl
  · rw [if_neg hzero]
    by_cases hshort : d / 2 ^ 32 = 0
    · rw [if_pos hshort]
      exact udiv64_short_spec hn (by omega) (by omega)
    · rw [if_neg hshort]
      exact udiv64_long_spec hn hd (by omega)

/-- The largest dividend, by a divisor with which the estimate is one too large. -/
theorem udiv64_example : udiv64 (2 ^ 64 - 1) (2 ^ 32 + 3) = .ok ((2 ^ 64 - 1) / (2 ^ 32 + 3)) := by
  have h := udiv64_exact (n := 2 ^ 64 - 1) (d := 2 ^ 32 + 3) (by decide) (by decide)
  rwa [if_neg (by decide)] at h

end Routines

/-! ## Signed division and remainders -/

section Signed

variable {n d x : ℤ}

/-- The value fits an `int64_t`. -/
def IsI64 (x : ℤ) : Prop := -(2 ^ 63) ≤ x ∧ x < 2 ^ 63

instance (x : ℤ) : Decidable (IsI64 x) := inferInstanceAs (Decidable (_ ∧ _))

theorem i64_of_isI64 (h : IsI64 x) : i64 x = x := by
  unfold IsI64 at h
  unfold i64
  omega

/-- Wrapping changes a value by a multiple of `2 ^ 64`. -/
theorem i64_wraps (x : ℤ) : ∃ k, i64 x = x + 2 ^ 64 * k := by
  refine ⟨-((x + 2 ^ 63) / 2 ^ 64), ?_⟩
  unfold i64
  omega

theorem i64_add_mul (x k : ℤ) : i64 (x + 2 ^ 64 * k) = i64 x := by
  unfold i64
  omega

theorem abs64_eq (h : IsI64 n) : abs64 n = n.natAbs := by
  unfold IsI64 at h
  unfold abs64
  split <;> omega

/-- The quotient of the absolute values. -/
theorem tdiv_eq (hd : d ≠ 0) :
    n.tdiv d = if (n < 0) = (d < 0) then ((n.natAbs / d.natAbs : ℕ) : ℤ)
      else -((n.natAbs / d.natAbs : ℕ) : ℤ) := by
  obtain ⟨a, rfl | rfl⟩ := Int.eq_nat_or_neg n
  · obtain ⟨b, rfl | rfl⟩ := Int.eq_nat_or_neg d
    · rw [if_pos (by rw [eq_iff_iff]; omega), Int.natAbs_natCast, Int.natAbs_natCast]
      exact (Int.ofNat_tdiv a b).symm
    · rw [Int.natAbs_natCast, Int.natAbs_neg, Int.natAbs_natCast, Int.tdiv_neg]
      by_cases hzero : a = 0
      · simp [hzero]
      · rw [if_neg (by rw [eq_iff_iff]; omega), Int.ofNat_tdiv]
  · obtain ⟨b, rfl | rfl⟩ := Int.eq_nat_or_neg d
    · rw [Int.natAbs_natCast, Int.natAbs_neg, Int.natAbs_natCast, Int.neg_tdiv]
      by_cases hzero : a = 0
      · simp [hzero]
      · rw [if_neg (by rw [eq_iff_iff]; omega), Int.ofNat_tdiv]
    · rw [Int.natAbs_neg, Int.natAbs_neg, Int.natAbs_natCast, Int.natAbs_natCast,
        Int.neg_tdiv, Int.tdiv_neg, neg_neg]
      by_cases hzero : a = 0
      · simp [hzero]
      · rw [if_pos (by rw [eq_iff_iff]; omega), Int.ofNat_tdiv]

/-- **Signed 64-bit division** truncates towards 0, and wraps for the one quotient that does not
fit. -/
theorem sdiv64_exact (hn : IsI64 n) (hd : IsI64 d) :
    sdiv64 n d = if d = 0 then .panic else .ok (i64 (n.tdiv d)) := by
  have hn64 : n.natAbs < 2 ^ 64 := by unfold IsI64 at hn; omega
  have hd64 : d.natAbs < 2 ^ 64 := by unfold IsI64 at hd; omega
  unfold sdiv64
  rw [abs64_eq hn, abs64_eq hd, udiv64_exact hn64 hd64]
  by_cases hzero : d = 0
  · subst hzero
    rfl
  · rw [if_neg hzero, if_neg (by omega), Outcome.ok_bind, tdiv_eq hzero]
    by_cases hsign : (n < 0) = (d < 0)
    · rw [if_pos hsign, if_pos hsign]
      rfl
    · rw [if_neg hsign, if_neg hsign]
      obtain ⟨k, hk⟩ := i64_wraps ((n.natAbs / d.natAbs : ℕ) : ℤ)
      have hneg : -i64 ((n.natAbs / d.natAbs : ℕ) : ℤ)
          = -((n.natAbs / d.natAbs : ℕ) : ℤ) + 2 ^ 64 * -k := by
        rw [hk]
        ring
      rw [hneg, i64_add_mul]
      rfl

/-- The most negative dividend. -/
theorem sdiv64_example : sdiv64 (-(2 ^ 63)) 7 = .ok (i64 ((-(2 ^ 63) : ℤ).tdiv 7)) := by
  have h := sdiv64_exact (n := -(2 ^ 63)) (d := 7) (by decide) (by decide)
  rwa [if_neg (by decide)] at h

theorem umod64_spec {n d : ℕ} (hn : n < 2 ^ 64) (hd : d < 2 ^ 64) (hpos : d ≠ 0) :
    umod64 n d = .ok (n % d % 2 ^ 32) := by
  have hdm := Nat.div_add_mod n d
  have hprod : d * (n / d) % 2 ^ 64 = d * (n / d) := Nat.mod_eq_of_lt (by omega)
  unfold umod64
  rw [udiv64_exact hn hd, if_neg hpos, Outcome.ok_bind, hprod]
  have hsub : (n + 2 ^ 64 - d * (n / d)) % 2 ^ 64 = n % d := by
    rw [show n + 2 ^ 64 - d * (n / d) = n % d + 2 ^ 64 by omega, Nat.add_mod_right]
    exact Nat.mod_eq_of_lt (lt_of_le_of_lt (Nat.mod_le n d) hn)
  rw [hsub]
  rfl

theorem smod64_spec (hn : IsI64 n) (hd : IsI64 d) (hpos : d ≠ 0) :
    smod64 n d = .ok (i32 (n.tmod d)) := by
  unfold smod64
  rw [sdiv64_exact hn hd, if_neg hpos, Outcome.ok_bind]
  obtain ⟨k, hk⟩ := i64_wraps (n.tdiv d)
  obtain ⟨l, hl⟩ := i64_wraps (d * i64 (n.tdiv d))
  have hdm : d * n.tdiv d + n.tmod d = n := Int.mul_tdiv_add_tmod n d
  have hrest : n - i64 (d * i64 (n.tdiv d)) = n.tmod d + 2 ^ 64 * -(d * k + l) := by
    rw [hl, hk]
    calc n - (d * (n.tdiv d + 2 ^ 64 * k) + 2 ^ 64 * l)
        = n - d * n.tdiv d + 2 ^ 64 * -(d * k + l) := by ring
      _ = n.tmod d + 2 ^ 64 * -(d * k + l) := by
        congr 1
        omega
  have hrange : IsI64 (n.tmod d) := by
    have hlt : (n.tmod d).natAbs < d.natAbs := by
      rw [Int.natAbs_tmod]
      exact Nat.mod_lt _ (by omega)
    unfold IsI64 at hd ⊢
    omega
  rw [hrest, i64_add_mul, i64_of_isI64 hrange]
  rfl

/-- **The remainder routines** return 32 bits: the unsigned one is right exactly when the remainder
is below `2 ^ 32`, the signed one exactly when it fits an `int32_t`. -/
theorem remainders_exact_iff :
    (∀ n d : ℕ, n < 2 ^ 64 → d < 2 ^ 64 → d ≠ 0 → (umod64 n d = .ok (n % d) ↔ n % d < 2 ^ 32))
    ∧ ∀ n d : ℤ, IsI64 n → IsI64 d → d ≠ 0 → (smod64 n d = .ok (n.tmod d) ↔ IsI32 (n.tmod d)) := by
  refine ⟨fun n d hn hd hpos => ?_, fun n d hn hd hpos => ?_⟩
  · rw [umod64_spec hn hd hpos, Outcome.ok.injEq]
    omega
  · rw [smod64_spec hn hd hpos, Outcome.ok.injEq]
    constructor
    · intro heq
      rw [← heq]
      exact isI32_i32 _
    · exact i32_of_isI32

/-- A remainder of `2 ^ 32` is lost, and so is one of `-2 ^ 31 - 1`. -/
theorem remainders_example : umod64 (2 ^ 33 + 2 ^ 32) (2 ^ 33) ≠ .ok ((2 ^ 33 + 2 ^ 32) % 2 ^ 33)
    ∧ smod64 (-(2 ^ 31) - 1) (2 ^ 40) ≠ .ok ((-(2 ^ 31) - 1 : ℤ).tmod (2 ^ 40)) := by
  constructor
  · intro heq
    exact absurd ((remainders_exact_iff.1 _ _ (by decide) (by decide)
      (by decide)).mp heq) (by decide)
  · intro heq
    exact absurd ((remainders_exact_iff.2 _ _ (by decide) (by decide)
      (by decide)).mp heq) (by decide)

end Signed

end Pintos.libc
