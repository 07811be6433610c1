/-
`lib/stdlib.c`: `atoi`.

`atoi` passes over white space, takes a sign and stops at the first character that is no digit. It
keeps the negated number, in an `int` that wraps.
-/
import Pintos.Libc.Format

set_option autoImplicit false

namespace Pintos.libc

/-- The loop over the digits, which makes the number negative. -/
def atoi_digits (value : ℤ) : List UInt8 → ℤ
  | [] => value
  | c :: s =>
      if isdigit c then atoi_digits (i32
        (i32 (value * 10) - (c.toNat - (byte '0').toNat))) s else value

/-- `atoi` behind the white space. -/
def atoi_number (s : List UInt8) : ℤ :=
  if peek s = byte '+' then i32 (-atoi_digits 0 s.tail)
  else if peek s = byte '-' then atoi_digits 0 s.tail
  else i32 (-atoi_digits 0 s)

/-- `atoi`. -/
def atoi (s : List UInt8) : ℤ := atoi_number (s.dropWhile isspace)

end Pintos.libc
