/-
`lib/stdio.c`: `__vprintf` and what it calls.

The output function is called once for each character, in order, and nothing is read back
from it. So the model returns the characters, and a caller with an output function of
its own folds it over them.

A format is the bytes in front of its terminator. Reading the terminator gives 0, and to
read behind it is `undefined`, as is a missing or a wrong argument. An `int` wraps.
-/
import Pintos.Lib.Outcome
import Pintos.Lib.Word

set_option autoImplicit false

namespace Pintos.libc

/-- A character of the source. -/
def byte (c : Char) : UInt8 := c.toUInt8

/-- A string literal of the source. -/
def text (s : String) : List UInt8 := s.toList.map byte

/-- `*s` for a string that ends with its terminator. -/
def peek (s : List UInt8) : UInt8 := s.headD 0

/-- `isdigit`. -/
def isdigit (c : UInt8) : Bool := byte '0' ≤ c ∧ c ≤ byte '9'

/-- `isspace`. -/
def isspace (c : UInt8) : Bool := c = 32 ∨ c = 12 ∨ c = 10 ∨ c = 13 ∨ c = 9 ∨ c = 11

/-! ## Arguments -/

/-- What `va_arg` finds: a word in a register or on the stack, or a pointer to a string. -/
inductive arg
  | word (w : ℕ)
  | string (s : List UInt8)
  | null
  deriving DecidableEq, Repr

/-- `va_arg` for a number. -/
def next_word : List arg → Outcome (ℕ × List arg)
  | .word w :: args => .ok (w, args)
  | _ => .undefined

/-- `va_arg (args, char *)`. -/
def next_string : List arg → Outcome (Option (List UInt8) × List arg)
  | .string s :: args => .ok (some s, args)
  | .null :: args => .ok (none, args)
  | _ => .undefined

/-! ## Conversions -/

/-- The flags of a conversion. -/
structure conversion_flags where
  MINUS : Bool
  PLUS : Bool
  SPACE : Bool
  POUND : Bool
  ZERO : Bool
  GROUP : Bool
  deriving DecidableEq, Repr

/-- No flag. -/
def no_flags : conversion_flags := ⟨false, false, false, false, false, false⟩

/-- The type of the argument. -/
inductive argument_type
  | CHAR
  | SHORT
  | INT
  | INTMAX
  | LONG
  | LONGLONG
  | PTRDIFFT
  | SIZET
  deriving DecidableEq, Repr

/-- `struct printf_conversion`. -/
structure printf_conversion where
  flags : conversion_flags
  width : ℤ
  precision : ℤ
  type : argument_type
  deriving DecidableEq, Repr

/-- The loop over the flag characters. -/
def parse_flags (f : conversion_flags) : List UInt8 → conversion_flags × List UInt8
  | [] => (f, [])
  | c :: format =>
      if c = byte '-' then parse_flags { f with MINUS := true } format
      else if c = byte '+' then parse_flags { f with PLUS := true } format
      else if c = byte ' ' then parse_flags { f with SPACE := true } format
      else if c = byte '#' then parse_flags { f with POUND := true } format
      else if c = byte '0' then parse_flags { f with ZERO := true } format
      else if c = 39 then parse_flags { f with GROUP := true } format
      else (f, c :: format)

/-- What is done about flags that exclude each other. -/
def settle_flags (f : conversion_flags) : conversion_flags :=
  let f := if f.MINUS then { f with ZERO := false } else f
  if f.PLUS then { f with SPACE := false } else f

/-- A decimal number in the format. -/
def parse_number (n : ℤ) : List UInt8 → ℤ × List UInt8
  | [] => (n, [])
  | c :: format =>
      if isdigit c then parse_number (i32 (i32 (n * 10) + c.toNat - (byte '0').toNat)) format
      else (n, c :: format)

/-- A number, or `*`. The parameter `args` of `__vprintf` is a pointer by the time its address is
passed on as a `va_list *`, so that `va_arg` reads what lies on the stack there, and no argument. -/
def parse_number_or_star (format : List UInt8) : Outcome (ℤ × List UInt8) :=
  if peek format = byte '*' then .undefined else .ok (parse_number 0 format)

/-- The field width. -/
def parse_width (f : conversion_flags) (format : List UInt8) :
    Outcome (conversion_flags × ℤ × List UInt8) := do
  let (width, format) ← parse_number_or_star format
  return if width < 0 then ({ f with MINUS := true }, i32 (-width), format) else (f, width, format)

/-- The precision. -/
def parse_precision (format : List UInt8) : Outcome (ℤ × List UInt8) := do
  if peek format = byte '.' then
    let (precision, format) ← parse_number_or_star format.tail
    return (if precision < 0 then -1 else precision, format)
  else
    return (-1, format)

/-- The type. -/
def parse_type (format : List UInt8) : argument_type × List UInt8 :=
  if peek format = byte 'h' then
    if peek format.tail = byte 'h' then (.CHAR, format.tail.tail) else (.SHORT, format.tail)
  else if peek format = byte 'j' then (.INTMAX, format.tail)
  else if peek format = byte 'l' then
    if peek format.tail = byte 'l' then (.LONGLONG, format.tail.tail) else (.LONG, format.tail)
  else if peek format = byte 't' then (.PTRDIFFT, format.tail)
  else if peek format = byte 'z' then (.SIZET, format.tail)
  else (.INT, format)

/-- `parse_conversion`. -/
def parse_conversion (format : List UInt8) : Outcome (printf_conversion × List UInt8) := do
  let (flags, format) := parse_flags no_flags format
  let (flags, width, format) ← parse_width (settle_flags flags) format
  let (precision, format) ← parse_precision format
  let flags := if precision ≥ 0 then { flags with ZERO := false } else flags
  let (type, format) := parse_type format
  return ({ flags := flags, width := width, precision := precision, type := type }, format)

/-! ## Integers -/

/-- `struct integer_base`; `x` is 0 for none. -/
structure integer_base where
  base : ℕ
  digits : List UInt8
  x : UInt8
  group : ℕ
  deriving DecidableEq, Repr

def base_d : integer_base := ⟨10, text "0123456789", 0, 3⟩
def base_o : integer_base := ⟨8, text "01234567", 0, 3⟩
def base_x : integer_base := ⟨16, text "0123456789abcdef", byte 'x', 4⟩
def base_X : integer_base := ⟨16, text "0123456789ABCDEF", byte 'X', 4⟩

/-- `*cp++ = ch` in the buffer of 64 characters. The last character written is the first of the
list, as the buffer is printed from its end. -/
def buffer_push (ch : UInt8) (buf : List UInt8) : Outcome (List UInt8) :=
  if buf.length < 64 then .ok (ch :: buf) else .undefined

/-- A comma in front of the next digit. -/
def push_comma (group : Bool) (b : integer_base) (digit_cnt : ℕ) (buf : List UInt8) :
    Outcome (List UInt8) :=
  if group = true ∧ digit_cnt > 0 ∧ digit_cnt % b.group
    = 0 then buffer_push (byte ',') buf else .ok buf

/-- The loop over the digits. -/
def push_digits (group : Bool) (b : integer_base) : ℕ → ℕ → ℕ → List UInt8 → Outcome (List UInt8)
  | 0, value, _, buf => if value > 0 then .diverge else .ok buf
  | fuel + 1, value, digit_cnt, buf =>
      if value > 0 then do
        let buf ← push_comma group b digit_cnt buf
        let buf ← buffer_push (b.digits.getD (value % b.base) 0) buf
        push_digits group b fuel (value / b.base) (digit_cnt + 1) buf
      else .ok buf

/-- The loop that pads with zeros up to the precision, or to one less than the buffer holds. -/
def push_zeros (precision : ℤ) : ℕ → List UInt8 → Outcome (List UInt8)
  | 0, buf => .ok buf
  | fuel + 1, buf =>
      if (buf.length : ℤ) < precision ∧ buf.length < 63 then do
        let buf ← buffer_push (byte '0') buf
        push_zeros precision fuel buf
      else .ok buf

/-- With `#`, an octal number starts with a zero. -/
def push_octal (pound : Bool) (b : integer_base) (buf : List UInt8) : Outcome (List UInt8) :=
  if pound = true ∧ b.base = 8 ∧ peek buf ≠ byte '0' then buffer_push (byte '0') buf else .ok buf

/-- The digits of a conversion, with what stands between and in front of them. -/
def integer_digits (value : ℕ) (b : integer_base) (c : printf_conversion) :
    Outcome (List UInt8) := do
  let buf ← push_digits c.flags.GROUP b 64 value 0 []
  let buf ← push_zeros (if c.precision < 0 then 1 else c.precision) 64 buf
  push_octal c.flags.POUND b buf

/-- The sign character, if any. -/
def integer_sign (is_signed negative : Bool) (f : conversion_flags) : List UInt8 :=
  if is_signed then
    if f.PLUS then [if negative then byte '-' else byte '+']
    else if f.SPACE then [if negative then byte '-' else byte ' ']
    else if negative then [byte '-'] else []
  else []

/-- `0x` or `0X`, if any. -/
def prefix_chars (value : ℕ) (b : integer_base) (f : conversion_flags) : List UInt8 :=
  if f.POUND = true ∧ value ≠ 0 ∧ b.x ≠ 0 then [byte '0', b.x] else []

/-- `output_dup`. -/
def output_dup (ch : UInt8) (cnt : ℤ) : List UInt8 := List.replicate cnt.toNat ch

/-- `format_integer`. -/
def format_integer (value : ℕ) (is_signed negative : Bool) (b : integer_base)
    (c : printf_conversion) : Outcome (List UInt8) := do
  let f := c.flags
  let sign := integer_sign is_signed negative f
  let x := prefix_chars value b f
  let buf ← integer_digits value b c
  let pad_cnt := max 0 (i32 (c.width - buf.length - x.length - sign.length))
  return (if f.MINUS = false ∧ f.ZERO = false then output_dup (byte ' ') pad_cnt else [])
    ++ sign ++ x
    ++ (if f.ZERO then output_dup (byte '0') pad_cnt else [])
    ++ buf
    ++ (if f.MINUS then output_dup (byte ' ') pad_cnt else [])

/-! ## Strings -/

/-- `strnlen`. -/
def strnlen (s : List UInt8) (maxlen : ℕ) : ℕ := min s.length maxlen

/-- `format_string` of the first `length` characters. -/
def format_string (s : List UInt8) (length : ℤ) (c : printf_conversion) : List UInt8 :=
  (if c.width > length ∧ c.flags.MINUS = false then output_dup (byte ' ')
    (c.width - length) else []) ++ s.take length.toNat
    ++ (if c.width > length ∧ c.flags.MINUS then output_dup (byte ' ') (c.width - length) else [])

/-! ## The loop over the format -/

/-- `SIZE_MAX` and `PTRDIFF_MAX` of `stdint.h` are those of 32 bits. -/
def SIZE_MAX : ℤ := 2 ^ 32 - 1
def PTRDIFF_MAX : ℕ := 2 ^ 31 - 1

/-- The value of a signed conversion. -/
def signed_value (type : argument_type) (w : ℕ) : ℤ :=
  match type with
  | .CHAR => ((w : ℤ) + 2 ^ 7) % 2 ^ 8 - 2 ^ 7
  | .SHORT => ((w : ℤ) + 2 ^ 15) % 2 ^ 16 - 2 ^ 15
  | .INT => i32 w
  | .SIZET =>
      let value := ((w : ℤ) + 2 ^ 63) % 2 ^ 64 - 2 ^ 63
      if value > SIZE_MAX / 2 then value - SIZE_MAX - 1 else value
  | _ => ((w : ℤ) + 2 ^ 63) % 2 ^ 64 - 2 ^ 63

/-- The value of an unsigned conversion. -/
def unsigned_value (type : argument_type) (w : ℕ) : ℕ :=
  match type with
  | .CHAR => w % 2 ^ 8
  | .SHORT => w % 2 ^ 16
  | .INT => w % 2 ^ 32
  | .PTRDIFFT => w % 2 ^ 64 % (2 * PTRDIFF_MAX + 2)
  | _ => w % 2 ^ 64

/-- The base of an unsigned conversion. -/
def unsigned_base (ch : UInt8) : integer_base :=
  if ch = byte 'o' then base_o
  else if ch = byte 'u' then base_d
  else if ch = byte 'x' then base_x
  else base_X

/-- One conversion, `ch` being its last character. -/
def convert (ch : UInt8) (c : printf_conversion) (args : List arg) :
    Outcome (List UInt8 × List arg) := do
  if ch = byte 'd' ∨ ch = byte 'i' then
    let (w, args) ← next_word args
    let value := signed_value c.type w
    let out ← format_integer value.natAbs true (value < 0) base_d c
    return (out, args)
  else if ch = byte 'o' ∨ ch = byte 'u' ∨ ch = byte 'x' ∨ ch = byte 'X' then
    let (w, args) ← next_word args
    let out ← format_integer (unsigned_value c.type w) false false (unsigned_base ch) c
    return (out, args)
  else if ch = byte 'c' then
    let (w, args) ← next_word args
    return (format_string [UInt8.ofNat w] 1 c, args)
  else if ch = byte 's' then
    let (s, args) ← next_string args
    let s := s.getD (text "(null)")
    let maxlen := (c.precision % 2 ^ 64).toNat
    return (format_string s (i32 (strnlen s maxlen)) c, args)
  else if ch = byte 'p' then
    let (w, args) ← next_word args
    let out ← format_integer (w % 2 ^ 64) false false base_x
        { c with flags := { no_flags with POUND := true } }
    return (out, args)
  else if ch = byte 'f' ∨ ch = byte 'e' ∨ ch = byte 'E' ∨ ch = byte 'g' ∨ ch = byte 'G'
    ∨ ch = byte 'n' then
    return (text "<<no %" ++ [ch] ++ text " in kernel>>", args)
  else
    return (text "<<no %" ++ [ch] ++ text " conversion>>", args)

/-- The loop of `__vprintf`. Behind a conversion `format++` passes its last character, which has to
be there. -/
def vprintf_loop : ℕ → List UInt8 → List arg → Outcome (List UInt8)
  | _, [], _ => .ok []
  | 0, _ :: _, _ => .diverge
  | fuel + 1, c :: format, args =>
      if c ≠ byte '%' then do
        let out ← vprintf_loop fuel format args
        return c :: out
      else if peek format = byte '%' then do
        let out ← vprintf_loop fuel format.tail args
        return byte '%' :: out
      else do
        let (conversion, format) ← parse_conversion format
        let (text, args) ← convert (peek format) conversion args
        match format with
        | [] => .undefined
        | _ :: format =>
            let out ← vprintf_loop fuel format args
            return text ++ out

/-- `__vprintf`. -/
def __vprintf (format : List UInt8) (args : List arg) : Outcome (List UInt8) :=
  vprintf_loop format.length format args

example : __vprintf (text "%5d|%-5s|%#x") [.word 42, .string (text "ab"), .word 255]
    = .ok (text "   42|ab   |0xff") := by decide

end Pintos.libc
