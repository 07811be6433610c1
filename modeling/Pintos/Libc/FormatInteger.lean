/-
What an integer conversion of `__vprintf` prints.

The buffer of `format_integer` is filled from the last digit on. The loops are followed by an
invariant of what is left of the value and of the buffer so far, so that each property of the text
is an invariant with one step: its digits read back as the value in the base they were made in, and
the characters are digits and commas.
-/
import Mathlib.Data.List.GetD
import Mathlib.Tactic.Ring
import Pintos.Libc.Format

set_option autoImplicit false

namespace Pintos.libc

/-! ## Bases -/

/-- What the conversions need of a base. -/
structure integer_base.Sound (b : integer_base) : Prop where
  base : 8 ≤ b.base
  length : b.digits.length = b.base
  nodup : b.digits.Nodup
  zero : b.digits.head? = some (byte '0')
  /-- None of the other characters of a conversion is a digit. -/
  marks : ∀ ch ∈ [byte ',', byte '+', byte '-', byte ' ', b.x], ch ∉ b.digits
  x_ne_minus : b.x ≠ byte '-'

theorem base_d_sound : base_d.Sound where
  base := by decide
  length := by decide
  nodup := by decide
  zero := by decide
  marks := by decide +kernel
  x_ne_minus := by decide

theorem base_o_sound : base_o.Sound where
  base := by decide
  length := by decide
  nodup := by decide
  zero := by decide
  marks := by decide +kernel
  x_ne_minus := by decide

theorem base_x_sound : base_x.Sound where
  base := by decide
  length := by decide
  nodup := by decide
  zero := by decide
  marks := by decide +kernel
  x_ne_minus := by decide

theorem base_X_sound : base_X.Sound where
  base := by decide
  length := by decide
  nodup := by decide
  zero := by decide
  marks := by decide +kernel
  x_ne_minus := by decide

theorem unsigned_base_sound (ch : UInt8) : (unsigned_base ch).Sound := by
  unfold unsigned_base
  split_ifs
  · exact base_o_sound
  · exact base_d_sound
  · exact base_x_sound
  · exact base_X_sound

namespace integer_base

variable {b : integer_base}

/-- The character of a digit. -/
def digit (b : integer_base) (value : ℕ) : UInt8 := b.digits.getD (value % b.base) 0

theorem Sound.digit_mem (hb : b.Sound) (value : ℕ) : b.digit value ∈ b.digits := by
  have hlt : value % b.base < b.digits.length := by
    rw [hb.length]
    exact Nat.mod_lt _ (by have := hb.base; omega)
  rw [digit, List.getD_eq_getElem _ _ hlt]
  exact List.getElem_mem hlt

/-- The digit at which a character is found. -/
theorem Sound.idxOf_digit (hb : b.Sound) (value : ℕ) :
    b.digits.idxOf (b.digit value) = value % b.base := by
  have hlt : value % b.base < b.digits.length := by
    rw [hb.length]
    exact Nat.mod_lt _ (by have := hb.base; omega)
  rw [digit, List.getD_eq_getElem _ _ hlt]
  exact hb.nodup.idxOf_getElem (value % b.base) hlt

theorem Sound.digit_zero (hb : b.Sound) : b.digit 0 = byte '0' := by
  have hzero := hb.zero
  rw [digit, Nat.zero_mod, List.getD_eq_getElem?_getD, ← List.head?_eq_getElem?, hzero]
  rfl

theorem Sound.zero_mem (hb : b.Sound) : byte '0' ∈ b.digits := hb.digit_zero ▸ hb.digit_mem 0

end integer_base

/-! ## The loops -/

/-- What the buffer is after one turn of the loop over the digits. -/
def with_digit (group : Bool) (b : integer_base) (value digit_cnt : ℕ)
    (buf : List UInt8) : List UInt8 :=
  b.digit value :: if group = true ∧ digit_cnt > 0
    ∧ digit_cnt % b.group = 0 then byte ',' :: buf else buf

theorem with_digit_length (group : Bool) (b : integer_base) (value digit_cnt : ℕ)
    (buf : List UInt8) : (with_digit group b value digit_cnt buf).length ≤ buf.length + 2 := by
  unfold with_digit
  split_ifs
  · simp
  · simp

section Loops

variable {group : Bool} {b : integer_base} {I : ℕ → ℕ → List UInt8 → Prop}

theorem buffer_push_eq {ch : UInt8} {buf : List UInt8} (h : buf.length < 64) :
    buffer_push ch buf = .ok (ch :: buf) := if_pos h

/-- One turn of the loop over the digits, where the buffer has room. -/
theorem push_digits_step {fuel value digit_cnt : ℕ} {buf : List UInt8} (hvalue : 0 < value)
    (hroom : buf.length + 2 ≤ 64) :
    push_digits group b (fuel + 1) value digit_cnt buf
      = push_digits group b fuel (value / b.base) (digit_cnt + 1)
      (with_digit group b value digit_cnt buf) := by
  rw [push_digits, if_pos hvalue]
  unfold push_comma with_digit
  split_ifs with hcomma
  · rw [buffer_push_eq (by omega), Outcome.ok_bind,
      buffer_push_eq (by simp only [List.length_cons]; omega)]
    rfl
  · rw [Outcome.ok_bind, buffer_push_eq (by omega)]
    rfl

/-- **The loop over the digits** of a 64-bit number stays in the buffer, and what one turn keeps
holds at the end. -/
theorem push_digits_spec (hb : b.Sound)
    (hstep : ∀ value digit_cnt buf, 0 < value → I value digit_cnt buf →
      I (value / b.base) (digit_cnt + 1) (with_digit group b value digit_cnt buf))
    {fuel value digit_cnt : ℕ} {buf : List UInt8} (hfuel : 22 ≤ fuel + digit_cnt)
    (hvalue : value < 8 ^ (22 - digit_cnt)) (hlen : buf.length ≤ 2 * digit_cnt)
    (hcnt : digit_cnt ≤ 22)
    (h : I value digit_cnt buf) :
    ∃ digit_cnt' buf', push_digits group b fuel value digit_cnt buf = .ok buf' ∧ buf'.length ≤ 44
      ∧ I 0 digit_cnt' buf' := by
  induction fuel generalizing value digit_cnt buf with
  | zero =>
      obtain rfl : digit_cnt = 22 := by omega
      obtain rfl : value = 0 := by simpa using hvalue
      exact ⟨22, buf, rfl, by omega, h⟩
  | succ fuel ih =>
      by_cases hpos : 0 < value
      · -- there is a digit left to print
        have hless : digit_cnt < 22 := by
          by_contra hge
          rw [show 22 - digit_cnt = 0 by omega] at hvalue
          omega
        have hquotient : value / b.base < 8 ^ (22 - (digit_cnt + 1)) := by
          have hpow : 8 ^ (22 - digit_cnt) = 8 ^ (22 - (digit_cnt + 1)) * 8 := by
            rw [← pow_succ, show 22 - (digit_cnt + 1) + 1 = 22 - digit_cnt by omega]
          have hle : value / b.base ≤ value / 8 := Nat.div_le_div_left hb.base (by decide)
          omega
        have hlen' := with_digit_length group b value digit_cnt buf
        rw [push_digits_step hpos (by omega)]
        exact ih (by omega) hquotient (by omega) (by omega) (hstep _ _ _ hpos h)
      · obtain rfl : value = 0 := by omega
        exact ⟨digit_cnt, buf, if_neg (by decide), by omega, h⟩

variable {J : List UInt8 → Prop}

/-- **The zeros** in front stay in the buffer. -/
theorem push_zeros_spec (hstep : ∀ buf, J buf → J (byte '0' :: buf)) {precision : ℤ} {fuel : ℕ}
    {buf : List UInt8} (hlen : buf.length ≤ 63) (h : J buf) :
    ∃ buf', push_zeros precision fuel buf = .ok buf' ∧ buf'.length ≤ 63 ∧ J buf' := by
  induction fuel generalizing buf with
  | zero => exact ⟨buf, rfl, hlen, h⟩
  | succ fuel ih =>
      unfold push_zeros
      split_ifs with hcase
      · rw [buffer_push_eq (by omega), Outcome.ok_bind]
        exact ih (by simp only [List.length_cons]; omega) (hstep _ h)
      · exact ⟨buf, rfl, hlen, h⟩

/-- **What the buffer holds** in the end: whatever a turn of the loop over the digits keeps and a
zero in front does not change. -/
theorem integer_digits_spec (hb : b.Sound) {value : ℕ} (hvalue : value < 2 ^ 64)
    {c : printf_conversion} (hstart : I value 0 [])
    (hstep : ∀ value digit_cnt buf, 0 < value → I value digit_cnt buf →
      I (value / b.base) (digit_cnt + 1) (with_digit c.flags.GROUP b value digit_cnt buf))
    (hzero : ∀ digit_cnt buf, I 0 digit_cnt buf → I 0 digit_cnt (byte '0' :: buf)) :
    ∃ digit_cnt buf, integer_digits value b c = .ok buf ∧ buf.length ≤ 64 ∧ I 0 digit_cnt buf := by
  have hbound : value < 8 ^ (22 - 0) := lt_of_lt_of_le hvalue (by decide)
  obtain ⟨digit_cnt, buf, hdigits, hlen, hI⟩ :=
    @push_digits_spec _ b I hb hstep 64 value 0 [] (by omega) hbound (Nat.zero_le _)
      (by omega) hstart
  obtain ⟨buf', hzeros, hlen', hI'⟩ :=
    @push_zeros_spec _ (hzero digit_cnt)
      (if c.precision < 0 then 1 else c.precision) 64 buf (by omega) hI
  unfold integer_digits
  rw [hdigits, Outcome.ok_bind, hzeros, Outcome.ok_bind]
  unfold push_octal
  split_ifs
  · exact ⟨digit_cnt, byte '0' :: buf', buffer_push_eq
      (by omega), by simp only [List.length_cons]; omega, hzero _ _ hI'⟩
  · exact ⟨digit_cnt, buf', rfl, by omega, hI'⟩

end Loops

/-! ## The text -/

/-- **The layout**: spaces, the sign, the prefix, zeros, the buffer, spaces. -/
theorem format_integer_layout {b : integer_base} {value : ℕ} {c : printf_conversion}
    {buf : List UInt8} (hdigits : integer_digits value b c = .ok buf) (is_signed negative : Bool) :
    ∃ lead zeros trail, format_integer value is_signed negative b c
      = .ok (List.replicate lead (byte ' ') ++ integer_sign is_signed negative c.flags
        ++ prefix_chars value b c.flags ++ List.replicate zeros (byte '0') ++ buf
        ++ List.replicate trail (byte ' ')) := by
  let pad_cnt := max 0 (i32 (c.width - buf.length - (prefix_chars value b c.flags).length
    - (integer_sign is_signed negative c.flags).length))
  refine ⟨if c.flags.MINUS = false ∧ c.flags.ZERO = false then pad_cnt.toNat else 0,
    if c.flags.ZERO then pad_cnt.toNat else 0, if c.flags.MINUS then pad_cnt.toNat else 0, ?_⟩
  unfold format_integer output_dup
  dsimp only
  rw [hdigits, Outcome.ok_bind]
  have hrep : ∀ (p : Prop) [Decidable p] (n : ℕ) (ch : UInt8),
      (if p then List.replicate n ch else []) = List.replicate (if p then n else 0) ch := by
    intro p _ n ch
    split_ifs <;> rfl
  rw [hrep, hrep, hrep]
  rfl

theorem minus_mem_sign (is_signed negative : Bool) (f : conversion_flags) :
    byte '-' ∈ integer_sign is_signed negative f ↔ is_signed = true ∧ negative = true := by
  unfold integer_sign
  have hplus : byte '-' ≠ byte '+' := by decide
  have hspace : byte '-' ≠ byte ' ' := by decide
  cases is_signed <;> cases negative <;> cases f.PLUS <;> cases f.SPACE <;> simp [hplus, hspace]

/-! ## Reading the digits back -/

/-- The number that a text shows behind `v`: a digit of the base counts, and any other character is
passed over. -/
def shown (b : integer_base) (v : ℕ) (s : List UInt8) : ℕ :=
  s.foldl (fun v ch => if ch ∈ b.digits then v * b.base + b.digits.idxOf ch else v) v

section Shown

variable {b : integer_base}

theorem shown_append (v : ℕ) (s t : List UInt8) : shown b v (s ++ t) = shown b (shown b v s) t :=
  List.foldl_append

theorem shown_mark {ch : UInt8} (h : ch ∉ b.digits) (v : ℕ) (s : List UInt8) :
    shown b v (ch :: s) = shown b v s := by
  show shown b (if ch ∈ b.digits then _ else v) s = _
  rw [if_neg h]

theorem shown_digit (hb : b.Sound) (value v : ℕ) (s : List UInt8) :
    shown b v (b.digit value :: s) = shown b (v * b.base + value % b.base) s := by
  show shown b (if b.digit value ∈ b.digits then _ else v) s = _
  rw [if_pos (hb.digit_mem value), hb.idxOf_digit]

/-- A zero in front changes nothing. -/
theorem shown_zero (hb : b.Sound) (s : List UInt8) : shown b 0 (byte '0' :: s) = shown b 0 s := by
  rw [← hb.digit_zero, shown_digit hb, Nat.zero_mod]
  simp

/-- A text without digits shows nothing. -/
theorem shown_marks {s : List UInt8} (h : ∀ ch ∈ s, ch ∉ b.digits) (v : ℕ) : shown b v s = v := by
  induction s with
  | nil => rfl
  | cons ch s ih =>
      rw [shown_mark (h ch List.mem_cons_self)]
      exact ih fun ch' hch => h ch' (List.mem_cons_of_mem _ hch)

/-- Nor do zeros in front. -/
theorem shown_zeros (hb : b.Sound) (n : ℕ) : shown b 0 (List.replicate n (byte '0')) = 0 := by
  induction n with
  | zero => rfl
  | succ n ih =>
      rw [List.replicate_succ, shown_zero hb]
      exact ih

/-- One turn of the loop over the digits: the digit moves from the value to the buffer. -/
theorem shown_with_digit (hb : b.Sound) (group : Bool) (value digit_cnt : ℕ) (buf : List UInt8) :
    shown b (value / b.base) (with_digit group b value digit_cnt buf) = shown b value buf := by
  have hcomma : byte ',' ∉ b.digits := hb.marks _ (by simp)
  unfold with_digit
  rw [shown_digit hb, Nat.div_add_mod']
  split_ifs
  · exact shown_mark hcomma _ _
  · rfl

/-- **The digits of the buffer** are those of the value, and nothing but digits and commas. -/
theorem integer_digits_shown (hb : b.Sound) {value : ℕ} (hvalue : value < 2 ^ 64)
    (c : printf_conversion) :
    ∃ buf, integer_digits value b c = .ok buf ∧ buf.length ≤ 64 ∧ shown b 0 buf = value
      ∧ ∀ ch ∈ buf, ch ∈ b.digits ∨ ch = byte ',' := by
  let I : ℕ → ℕ → List UInt8 → Prop := fun v _ buf =>
    shown b v buf = value ∧ ∀ ch ∈ buf, ch ∈ b.digits ∨ ch = byte ','
  obtain ⟨_, buf, hdigits, hI⟩ := integer_digits_spec (I := I) (c := c) hb hvalue ⟨rfl, by simp⟩
    (by
      rintro v digit_cnt buf - ⟨hshown, hchars⟩
      refine ⟨(shown_with_digit hb _ v digit_cnt buf).trans hshown, ?_⟩
      intro ch hch
      unfold with_digit at hch
      obtain rfl | hch := List.mem_cons.mp hch
      · exact .inl (hb.digit_mem v)
      · split_ifs at hch
        · obtain rfl | hch := List.mem_cons.mp hch
          · exact .inr rfl
          · exact hchars ch hch
        · exact hchars ch hch)
    (by
      rintro digit_cnt buf ⟨hshown, hchars⟩
      refine ⟨(shown_zero hb buf).trans hshown, ?_⟩
      intro ch hch
      obtain rfl | hch := List.mem_cons.mp hch
      · exact .inl hb.zero_mem
      · exact hchars ch hch)
  exact ⟨buf, hdigits, hI⟩

/-- The prefix shows no number. -/
theorem shown_prefix (hb : b.Sound) (value : ℕ) (f : conversion_flags) :
    shown b 0 (prefix_chars value b f) = 0 := by
  unfold prefix_chars
  split_ifs
  · rw [shown_zero hb]
    exact shown_mark (hb.marks b.x (by simp)) 0 []
  · rfl

/-- A sign is no digit. -/
theorem sign_not_digit (hb : b.Sound) {is_signed negative : Bool}
    {f : conversion_flags} {ch : UInt8}
    (h : ch ∈ integer_sign is_signed negative f) : ch ∉ b.digits := by
  have hplus : byte '+' ∉ b.digits := hb.marks _ (by simp)
  have hminus : byte '-' ∉ b.digits := hb.marks _ (by simp)
  have hspace : byte ' ' ∉ b.digits := hb.marks _ (by simp)
  unfold integer_sign at h
  split_ifs at h <;> simp_all

/-- Spaces show nothing. -/
theorem shown_spaces (hb : b.Sound) (n v : ℕ) : shown b v (List.replicate n (byte ' ')) = v := by
  refine shown_marks ?_ v
  intro ch hch
  rw [List.eq_of_mem_replicate hch]
  exact hb.marks _ (by simp)

/-- **An integer conversion** never leaves its buffer, and the digits it prints are those of the
value. -/
theorem format_integer_shown (hb : b.Sound) {value : ℕ} (hvalue : value < 2 ^ 64)
    (is_signed negative : Bool) (c : printf_conversion) :
    ∃ out, format_integer value is_signed negative b c = .ok out ∧ shown b 0 out = value := by
  obtain ⟨buf, hdigits, -, hshown, -⟩ := integer_digits_shown hb hvalue c
  obtain ⟨lead, zeros, trail, hout⟩ := format_integer_layout hdigits is_signed negative
  refine ⟨_, hout, ?_⟩
  simp only [shown_append]
  rw [shown_spaces hb lead, shown_marks fun ch hch => sign_not_digit hb hch, shown_prefix hb,
    shown_zeros hb, hshown, shown_spaces hb trail]

/-- A minus stands in the text of a negative number only. -/
theorem minus_mem_iff (hb : b.Sound) {value : ℕ} {is_signed negative : Bool} {c : printf_conversion}
    (hvalue : value < 2 ^ 64) {out : List UInt8}
    (hout : format_integer value is_signed negative b c = .ok out) :
    byte '-' ∈ out ↔ is_signed = true ∧ negative = true := by
  obtain ⟨buf, hdigits, -, -, hchars⟩ := integer_digits_shown hb hvalue c
  obtain ⟨lead, zeros, trail, hlayout⟩ := format_integer_layout hdigits is_signed negative
  obtain rfl := Outcome.ok.inj (hout.symm.trans hlayout)
  have hbuf : byte '-' ∉ buf := by
    intro hmem
    rcases hchars _ hmem with hdigit | hcomma
    · exact hb.marks _ (by simp) hdigit
    · exact absurd hcomma (by decide)
  have hchars : byte '-' ∉ prefix_chars value b c.flags := by
    unfold prefix_chars
    split_ifs with hcase
    · intro hmem
      rcases List.mem_cons.mp hmem with h0 | hx
      · exact absurd h0 (by decide)
      · exact hb.x_ne_minus (List.mem_singleton.mp hx).symm
    · exact List.not_mem_nil
  have hlead : ∀ n, byte '-' ∉ List.replicate n (byte ' ') := fun n hmem =>
    absurd (List.eq_of_mem_replicate hmem) (by decide)
  have hzeros : byte '-' ∉ List.replicate zeros (byte '0') := fun hmem =>
    absurd (List.eq_of_mem_replicate hmem) (by decide)
  simp only [List.mem_append, hbuf, hchars, hlead, hzeros, or_false, false_or]
  exact minus_mem_sign is_signed negative c.flags

/-! ## The conversions -/

/-- A signed conversion. -/
theorem convert_signed {ch : UInt8} (hch : ch = byte 'd' ∨ ch = byte 'i')
    (c : printf_conversion) (w : ℕ) (args : List arg) :
    convert ch c (.word w :: args) = (format_integer (signed_value c.type w).natAbs true
      (signed_value c.type w < 0) base_d c >>= fun out => .ok (out, args)) := by
  unfold convert
  rw [if_pos hch]
  rfl

/-- An unsigned conversion. -/
theorem convert_unsigned {ch : UInt8}
    (hch : ch = byte 'o' ∨ ch = byte 'u' ∨ ch = byte 'x' ∨ ch = byte 'X')
    (c : printf_conversion) (w : ℕ)
    (args : List arg) :
    convert ch c (.word w :: args) = (format_integer (unsigned_value c.type w) false false
      (unsigned_base ch) c >>= fun out => .ok (out, args)) := by
  have hsigned : ¬ (ch = byte 'd' ∨ ch = byte 'i') := by
    rcases hch with rfl | rfl | rfl | rfl <;> decide
  unfold convert
  rw [if_neg hsigned, if_pos hch]
  rfl

theorem signed_value_bound (type : argument_type) (w : ℕ) :
    (signed_value type w).natAbs < 2 ^ 64 := by
  unfold signed_value i32 SIZE_MAX
  cases type with
  | SIZET =>
      dsimp only
      split_ifs <;> omega
  | _ =>
      dsimp only
      omega

theorem unsigned_value_bound (type : argument_type) (w : ℕ) : unsigned_value type w < 2 ^ 64 := by
  unfold unsigned_value PTRDIFF_MAX
  cases type <;> dsimp only <;> omega

/-- The number that a conversion is about. -/
def conversion_value (ch : UInt8) (type : argument_type) (w : ℕ) : ℤ :=
  if ch = byte 'd' ∨ ch = byte 'i' then signed_value type w else unsigned_value type w

/-- The base that it is printed in. -/
def conversion_base (ch : UInt8) : integer_base :=
  if ch = byte 'd' ∨ ch = byte 'i' then base_d else unsigned_base ch

/-- A conversion is one of an integer. -/
def IsInteger (ch : UInt8) : Prop :=
  (ch = byte 'd' ∨ ch = byte 'i') ∨ ch = byte 'o' ∨ ch = byte 'u' ∨ ch = byte 'x' ∨ ch = byte 'X'

instance (ch : UInt8) : Decidable (IsInteger ch) := inferInstanceAs (Decidable (_ ∨ _))

theorem conversion_base_sound (ch : UInt8) : (conversion_base ch).Sound := by
  unfold conversion_base
  split_ifs
  · exact base_d_sound
  · exact unsigned_base_sound ch

theorem conversion_value_bound (ch : UInt8) (type : argument_type) (w : ℕ) :
    (conversion_value ch type w).natAbs < 2 ^ 64 := by
  unfold conversion_value
  split_ifs
  · exact signed_value_bound type w
  · exact unsigned_value_bound type w

/-- The conversion prints a sign. -/
def conversion_signed (ch : UInt8) : Bool := ch = byte 'd' ∨ ch = byte 'i'

/-- Only a signed conversion has a negative value. -/
theorem conversion_signed_of_neg {ch : UInt8} {type : argument_type} {w : ℕ}
    (h : conversion_value ch type w < 0) : conversion_signed ch = true := by
  unfold conversion_value at h
  split_ifs at h with hsigned
  · exact decide_eq_true hsigned
  · omega

/-- A conversion of an integer, signed or not. -/
theorem convert_integer {ch : UInt8} (hch : IsInteger ch) (c : printf_conversion) (w : ℕ)
    (args : List arg) : convert ch c (.word w :: args)
      = (format_integer (conversion_value ch c.type w).natAbs (conversion_signed ch)
          (conversion_value ch c.type w < 0) (conversion_base ch) c >>= fun out =>
          .ok (out, args)) := by
  unfold conversion_value conversion_base conversion_signed
  by_cases hsigned : ch = byte 'd' ∨ ch = byte 'i'
  · rw [convert_signed hsigned, if_pos hsigned, if_pos hsigned, decide_eq_true hsigned]
  · have hneg : decide ((unsigned_value c.type w : ℤ) < 0) = false := decide_eq_false (by omega)
    rw [if_neg hsigned, if_neg hsigned, decide_eq_false hsigned,
      convert_unsigned (hch.resolve_left hsigned), hneg, Int.natAbs_natCast]

/-- **Every integer conversion** returns for every argument, with any flags, width and precision;
the digits of its text are the value in its base, and a minus stands in it exactly for a negative
value. -/
theorem conversions_read_back (ch : UInt8) (hch : IsInteger ch) (c : printf_conversion) (w : ℕ)
    (args : List arg) :
    ∃ out, convert ch c (.word w :: args) = .ok (out, args)
      ∧ shown (conversion_base ch) 0 out = (conversion_value ch c.type w).natAbs
      ∧ (byte '-' ∈ out ↔ conversion_value ch c.type w < 0) := by
  have hb := conversion_base_sound ch
  have hbound := conversion_value_bound ch c.type w
  obtain ⟨out, hout, hshown⟩ :=
    format_integer_shown hb hbound (conversion_signed ch) (conversion_value ch c.type w < 0) c
  refine ⟨out, by rw [convert_integer hch, hout]; rfl, hshown, ?_⟩
  rw [minus_mem_iff hb hbound hout]
  exact ⟨fun h => of_decide_eq_true h.2, fun h => ⟨conversion_signed_of_neg h, decide_eq_true h⟩⟩

/-- `%#8x` of 255. -/
theorem hexadecimal_reads_back :
    ∃ out, convert (byte 'x') ⟨{ no_flags with POUND := true }, 8, -1, .INT⟩
      [.word 255] = .ok (out, [])
      ∧ shown (conversion_base (byte 'x')) 0 out = (conversion_value (byte 'x') .INT 255).natAbs
      ∧ (byte '-' ∈ out ↔ conversion_value (byte 'x') .INT 255 < 0) :=
  conversions_read_back (byte 'x') (by decide) ⟨{ no_flags with POUND := true }, 8, -1, .INT⟩ 255 []

end Shown

end Pintos.libc
