/-
What becomes of the characters of `__vprintf`: `vsnprintf` of `lib/stdio.c` puts them into a buffer,
and `vhprintf` of `lib/user/console.c` passes them to `write` in pieces.

An output function is called once for each character, so the callers fold it over them.
-/
import Mathlib.Data.List.GetD
import Mathlib.Data.List.Induction
import Pintos.Libc.Format

set_option autoImplicit false

namespace Pintos.libc

/-! ## `vsnprintf` -/

/-- `struct vsnprintf_aux`, with the buffer. `p` is an offset in it. -/
structure vsnprintf_aux where
  buffer : Bytes
  p : ℕ
  length : ℤ
  max_length : ℤ

/-- `vsnprintf_helper`. -/
def vsnprintf_helper (aux : vsnprintf_aux) (ch : UInt8) : vsnprintf_aux :=
  if aux.length < aux.max_length then
    { aux with buffer := Function.update aux.buffer aux.p ch, p := aux.p + 1, length := i32 (aux.length + 1) }
  else { aux with length := i32 (aux.length + 1) }

/-- `vsnprintf`: what it returns, and the buffer. -/
def vsnprintf (buffer : Bytes) (buf_size : ℕ) (format : List UInt8) (args : List arg) :
    Outcome (ℤ × Bytes) := do
  let max_length := if buf_size > 0 then i32 (buf_size - 1) else 0
  let out ← __vprintf format args
  let aux := out.foldl vsnprintf_helper { buffer := buffer, p := 0, length := 0, max_length := max_length }
  return (aux.length, if buf_size > 0 then Function.update aux.buffer aux.p 0 else aux.buffer)

/-- A buffer with the beginning of a text in it. -/
def holding (buffer : Bytes) (out : List UInt8) (n : ℕ) : Bytes :=
  fun k => if k < n then out.getD k 0 else buffer k

theorem holding_zero (buffer : Bytes) (out : List UInt8) : holding buffer out 0 = buffer := by
  funext k
  exact if_neg (Nat.not_lt_zero k)

/-- The next character of the text. -/
theorem update_holding (buffer : Bytes) (out : List UInt8) (ch : UInt8) :
    Function.update (holding buffer out out.length) out.length ch
      = holding buffer (out ++ [ch]) (out.length + 1) := by
  funext k
  unfold Function.update holding
  by_cases hk : k = out.length
  · subst hk
    simp
  · by_cases hlt : k < out.length
    · simp [hk, hlt, Nat.lt_succ_of_lt hlt]
    · simp [hk, hlt, show ¬ k < out.length + 1 by omega]

/-- **The text so far**: its beginning is in the buffer, and all of it is counted. -/
theorem foldl_vsnprintf_helper (buffer : Bytes) {max_length : ℤ} (hmax : 0 ≤ max_length)
    (out : List UInt8) (hout : out.length < 2 ^ 31) :
    out.foldl vsnprintf_helper { buffer := buffer, p := 0, length := 0, max_length := max_length }
      = { buffer := holding buffer out (min out.length max_length.toNat), p := min out.length max_length.toNat,
          length := out.length, max_length := max_length } := by
  induction out using List.reverseRecOn with
  | nil => simp [holding_zero]
  | append_singleton out ch ih =>
      rw [List.length_append, List.length_singleton] at hout
      have hcount : i32 ((out.length : ℤ) + 1) = ((out ++ [ch]).length : ℕ) := by
        rw [i32_of_isI32 (by unfold IsI32; omega)]
        simp
      rw [List.foldl_append, ih (by omega), List.foldl_cons, List.foldl_nil]
      unfold vsnprintf_helper
      dsimp only
      split_ifs with hroom
      · -- there is room for the character
        have hp : min out.length max_length.toNat = out.length := by omega
        have hp' : min (out ++ [ch]).length max_length.toNat = out.length + 1 := by
          rw [List.length_append, List.length_singleton]
          omega
        rw [hp, hp', hcount, update_holding]
      · have hp : min out.length max_length.toNat = max_length.toNat := by omega
        have hp' : min (out ++ [ch]).length max_length.toNat = max_length.toNat := by
          rw [List.length_append, List.length_singleton]
          omega
        have hsame : holding buffer (out ++ [ch]) max_length.toNat
            = holding buffer out max_length.toNat := by
          funext k
          unfold holding
          split_ifs with hk
          · exact List.getD_append _ _ _ _ (by omega)
          · rfl
        rw [hp, hp', hcount, hsame]

/-- **`vsnprintf`**: as much of the text as fits is in the buffer, a terminator behind it and
nothing else is touched; the length of the whole text is returned. -/
theorem vsnprintf_spec (buffer : Bytes) {buf_size : ℕ} (hsize : buf_size ≤ 2 ^ 31)
    {format : List UInt8}
    {args : List arg} {out : List UInt8} (hprint : __vprintf format args = .ok out)
    (hout : out.length < 2 ^ 31) :
    ∃ buffer', vsnprintf buffer buf_size format args = .ok (out.length, buffer')
      ∧ (∀ k, k < min out.length (buf_size - 1) → buffer' k = out.getD k 0)
      ∧ (0 < buf_size → buffer' (min out.length (buf_size - 1)) = 0)
      ∧ ∀ k, min out.length (buf_size - 1) < k ∨ buf_size ≤ k → buffer' k = buffer k := by
  have hmax : (if buf_size > 0 then i32 (buf_size - 1) else 0) = ((buf_size - 1 : ℕ) : ℤ) := by
    split_ifs with hpos
    · rw [i32_of_isI32 (by unfold IsI32; omega)]
      omega
    · omega
  unfold vsnprintf
  dsimp only
  rw [hprint, Outcome.ok_bind, hmax, foldl_vsnprintf_helper buffer (Int.natCast_nonneg _) out hout,
    Int.toNat_natCast]
  generalize hp : min out.length (buf_size - 1) = p
  dsimp only
  refine ⟨_, rfl, fun k hk => ?_, fun hpos => ?_, fun k hk => ?_⟩
  · have hin : holding buffer out p k = out.getD k 0 := if_pos hk
    split_ifs
    · rw [Function.update_of_ne (by omega), hin]
    · exact hin
  · rw [if_pos hpos, Function.update_self]
  · have hin : holding buffer out p k = buffer k := if_neg (by omega)
    split_ifs
    · rw [Function.update_of_ne (by omega), hin]
    · exact hin

/-- `%d` in a buffer that is too small. -/
theorem vsnprintf_truncates :
    ∃ buffer', vsnprintf zeros 3 (text "%d") [.word 1234] = .ok ((text "1234").length, buffer')
      ∧ (∀ k, k < min (text "1234").length (3 - 1) → buffer' k = (text "1234").getD k 0)
      ∧ (0 < 3 → buffer' (min (text "1234").length (3 - 1)) = 0)
      ∧ ∀ k, min (text "1234").length (3 - 1) < k ∨ 3 ≤ k → buffer' k = zeros k :=
  vsnprintf_spec zeros (by decide) (by decide) (by decide)

/-! ## `vhprintf` -/

/-- `struct vhprintf_aux`, with the calls to `write` so far. What is in `buf` up to `p` is kept. -/
structure vhprintf_aux where
  buf : List UInt8
  char_cnt : ℤ
  written : List (List UInt8)

/-- `flush`. -/
def flush (aux : vhprintf_aux) : vhprintf_aux :=
  if aux.buf ≠ [] then { aux with buf := [], written := aux.written ++ [aux.buf] } else aux

/-- `add_char`. -/
def add_char (aux : vhprintf_aux) (c : UInt8) : vhprintf_aux :=
  let aux := { aux with buf := aux.buf ++ [c] }
  let aux := if aux.buf.length ≥ 64 then flush aux else aux
  { aux with char_cnt := i32 (aux.char_cnt + 1) }

/-- `vhprintf`: what it returns, and what it passed to `write`. -/
def vhprintf (format : List UInt8) (args : List arg) : Outcome (ℤ × List (List UInt8)) := do
  let out ← __vprintf format args
  let aux := flush (out.foldl add_char { buf := [], char_cnt := 0, written := [] })
  return (aux.char_cnt, aux.written)

/-- The buffer is never full, and what was written before it came in full pieces. -/
structure vhprintf_aux.Sound (aux : vhprintf_aux) (out : List UInt8) : Prop where
  text : aux.written.flatten ++ aux.buf = out
  room : aux.buf.length < 64
  full : ∀ piece ∈ aux.written, piece.length = 64
  count : aux.char_cnt = i32 out.length

theorem add_char_sound {aux : vhprintf_aux} {out : List UInt8} (h : aux.Sound out) (c : UInt8) :
    (add_char aux c).Sound (out ++ [c]) := by
  have hroom := h.room
  have hcount : i32 (i32 out.length + 1) = i32 (out ++ [c]).length := by
    rw [List.length_append, List.length_singleton]
    unfold i32
    omega
  have htext : aux.written.flatten ++ (aux.buf ++ [c]) = out ++ [c] := by
    rw [← List.append_assoc, h.text]
  have hlen : (aux.buf ++ [c]).length = aux.buf.length + 1 := by simp
  unfold add_char
  dsimp only
  split_ifs with hfull
  · -- the buffer is full now, and is written
    unfold flush
    rw [if_pos (by simp)]
    refine ⟨?_, Nat.zero_lt_succ _, fun piece hpiece => ?_, by rw [← hcount, ← h.count]⟩
    · simpa using htext
    · rcases List.mem_append.mp hpiece with hold | hnew
      · exact h.full piece hold
      · rw [List.mem_singleton.mp hnew]
        dsimp only at hfull ⊢
        omega
  · exact ⟨htext, by dsimp only at hfull ⊢; omega, h.full, by rw [← hcount, ← h.count]⟩

theorem foldl_add_char_sound (out : List UInt8) :
    (out.foldl add_char { buf := [], char_cnt := 0, written := [] }).Sound out := by
  induction out using List.reverseRecOn with
  | nil => exact ⟨rfl, by decide, by simp, rfl⟩
  | append_singleton out c ih =>
      rw [List.foldl_append]
      exact add_char_sound ih c

/-- **`vhprintf`** writes the text, whole and in order, 64 characters at a time but for a last
piece, which is not empty. -/
theorem vhprintf_spec {format : List UInt8} {args : List arg} {out : List UInt8}
    (hprint : __vprintf format args = .ok out) :
    ∃ writes, vhprintf format args = .ok (i32 out.length, writes) ∧ writes.flatten = out
      ∧ (∀ piece ∈ writes, 1 ≤ piece.length ∧ piece.length ≤ 64)
      ∧ ∀ piece ∈ writes.dropLast, piece.length = 64 := by
  have h := foldl_add_char_sound out
  have hroom := h.room
  unfold vhprintf
  rw [hprint, Outcome.ok_bind]
  dsimp only
  unfold flush
  split_ifs with hrest
  · have hpos := List.length_pos_iff.mpr hrest
    refine ⟨_, by rw [h.count]; rfl, by simpa using h.text, fun piece hpiece => ?_, fun piece hpiece => ?_⟩
    · rcases List.mem_append.mp hpiece with hold | hnew
      · have := h.full piece hold
        omega
      · rw [List.mem_singleton.mp hnew]
        omega
    · rw [List.dropLast_concat] at hpiece
      exact h.full piece hpiece
  · have hempty := not_not.mp hrest
    have htext := h.text
    rw [hempty, List.append_nil] at htext
    refine ⟨_, by rw [h.count]; rfl, htext, fun piece hpiece => ?_, fun piece hpiece => ?_⟩
    · have := h.full piece hpiece
      omega
    · exact h.full piece (List.dropLast_subset _ hpiece)

/-- `%70d`: a piece of 64 and one of 6. -/
theorem vhprintf_pieces :
    ∃ writes, vhprintf (text "%70d") [.word 7]
        = .ok (i32 (List.replicate 69 (byte ' ') ++ [byte '7']).length, writes)
      ∧ writes.flatten = List.replicate 69 (byte ' ') ++ [byte '7']
      ∧ (∀ piece ∈ writes, 1 ≤ piece.length ∧ piece.length ≤ 64)
      ∧ ∀ piece ∈ writes.dropLast, piece.length = 64 :=
  vhprintf_spec (by decide)

end Pintos.libc
