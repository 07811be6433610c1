/-
Machine words: 32-bit two's complement, and words in memory.

The kernel stores 32-bit words in byte buffers, least significant byte first,
and computes file offsets in signed 32-bit arithmetic (`off_t`). `Bytes` is
what lies behind a pointer. Three pairs of maps are needed: a word and its four bytes, an
unsigned word and the signed value it stands for, and copying a piece of one
buffer into another.
-/
import Mathlib.Algebra.Group.Nat.Defs
import Mathlib.Algebra.Group.Int.Defs
import Mathlib.Tactic.Common

set_option autoImplicit false

namespace Pintos

/-- Bytes behind a pointer. -/
abbrev Bytes := ℕ → UInt8

/-! ## Signed 32-bit values -/

/-- The value of an `int32_t` computation: wrapped into `[-2^31, 2^31)`. -/
def i32 (x : ℤ) : ℤ := (x + 2 ^ 31) % 2 ^ 32 - 2 ^ 31

/-- The value fits an `int32_t`. -/
def IsI32 (x : ℤ) : Prop := -(2 ^ 31) ≤ x ∧ x < 2 ^ 31

instance (x : ℤ) : Decidable (IsI32 x) := inferInstanceAs (Decidable (_ ∧ _))

theorem i32_of_isI32 {x : ℤ} (h : IsI32 x) : i32 x = x := by
  unfold IsI32 at h
  unfold i32
  omega

theorem isI32_i32 (x : ℤ) : IsI32 (i32 x) := by
  unfold IsI32 i32
  omega

/-- The unsigned word that holds a signed value. -/
def u32OfInt (x : ℤ) : ℕ := (x % 2 ^ 32).toNat

theorem u32OfInt_lt (x : ℤ) : u32OfInt x < 2 ^ 32 := by
  unfold u32OfInt
  omega

/-- Reading the word back as signed. -/
theorem i32_u32OfInt {x : ℤ} (h : IsI32 x) : i32 (u32OfInt x) = x := by
  unfold IsI32 at h
  unfold i32 u32OfInt
  omega

/-! ## Words in memory -/

/-- Byte `i` of a word. -/
def byteOf (w i : ℕ) : UInt8 := UInt8.ofNat (w / 256 ^ i)

/-- The 32-bit word at offset `o`, least significant byte first. -/
def wordAt (b : Bytes) (o : ℕ) : ℕ :=
  (b o).toNat + 256 * (b (o + 1)).toNat + 256 ^ 2 * (b (o + 2)).toNat
    + 256 ^ 3 * (b (o + 3)).toNat

theorem byteOf_toNat (w i : ℕ) : (byteOf w i).toNat = w / 256 ^ i % 256 := by
  simp [byteOf]

/-- Four bytes hold a 32-bit word. -/
theorem wordAt_of_bytes {b : Bytes} {o w : ℕ} (hw : w < 2 ^ 32)
    (hb : ∀ i, i < 4 → b (o + i) = byteOf w i) : wordAt b o = w := by
  have h0 := hb 0 (by decide)
  have h1 := hb 1 (by decide)
  have h2 := hb 2 (by decide)
  have h3 := hb 3 (by decide)
  rw [Nat.add_zero] at h0
  unfold wordAt
  rw [h0, h1, h2, h3]
  simp only [byteOf_toNat]
  omega

theorem wordAt_congr {b b' : Bytes} {o o' : ℕ} (h : ∀ i, i < 4 → b (o + i) = b' (o' + i)) :
    wordAt b o = wordAt b' o' := by
  have h0 := h 0 (by decide)
  rw [Nat.add_zero, Nat.add_zero] at h0
  unfold wordAt
  rw [h0, h 1 (by decide), h 2 (by decide), h 3 (by decide)]

/-! ## Copying -/

/-- `memcpy (dst + ofs, src, n)`. -/
def memcpy (dst : Bytes) (ofs : ℕ) (src : Bytes) (n : ℕ) : Bytes :=
  fun k => if ofs ≤ k ∧ k < ofs + n then src (k - ofs) else dst k

/-- A buffer of zeros. -/
def zeros : Bytes := fun _ => 0

theorem memcpy_in {dst src : Bytes} {ofs n k : ℕ} (h₁ : ofs ≤ k) (h₂ : k < ofs + n) :
    memcpy dst ofs src n k = src (k - ofs) := if_pos ⟨h₁, h₂⟩

theorem memcpy_out {dst src : Bytes} {ofs n k : ℕ} (h : ¬ (ofs ≤ k ∧ k < ofs + n)) :
    memcpy dst ofs src n k = dst k := if_neg h

end Pintos
