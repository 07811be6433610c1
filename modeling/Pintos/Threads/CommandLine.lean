/-
`threads/init.c` and `utils/pintos`: the kernel's command line.

The script writes the number of arguments and the arguments, a null byte behind each, into the first
sector of the disk that the machine starts from. The loader leaves this sector in memory, where
`read_command_line` finds them. `parse_options` takes the options at the front and `run_actions` the
rest.

An action is modelled by its call, which is logged, and returns. A string of the script is given by
its bytes in UTF-8.
-/
import Pintos.Filesys.PathBuffer
import Pintos.Lib.Traced
import Pintos.Libc.Atoi

set_option autoImplicit false

namespace Pintos.boot

open Pintos.libc (text atoi)

/-! ## The script -/

/-- The loop over `self.args`: the options at the front, and the rest. The first character of an
empty argument raises an exception. -/
def split_args : List c_string → Option (List c_string × List c_string)
  | [] => some ([], [])
  | [] :: _ => none
  | (c :: arg) :: rest =>
      if c ≠ 45 then some ([], (c :: arg) :: rest)
      else do
        let (args, rem) ← split_args rest
        return ((c :: arg) :: args, rem)

/-- `''.join ('{}\0'.format (c) for c in args)`. -/
def join_args (args : List c_string) : List UInt8 := args.flatMap fun c => c ++ [0]

/-- `struct.pack ("<I", n)`, which fails for a number that does not fit. -/
def pack (n : ℕ) : Option (List UInt8) :=
  if n < 2 ^ 32 then some [byteOf n 0, byteOf n 1, byteOf n 2, byteOf n 3] else none

/-- `len (cmd)`: the characters, which start with any byte but one of the form `10xxxxxx`. -/
def len (cmd : List UInt8) : ℕ := cmd.countP fun c => c < 128 ∨ 192 ≤ c

/-- `cmd.ljust (n, '\0')`. -/
def ljust (cmd : List UInt8) (n : ℕ) : List UInt8 := cmd ++ List.replicate (n - len cmd) 0

/-- `__prepare_kernel_argument`, for the disk with the contents `data`; it gives up on a command
line that is too long. -/
def prepare_kernel_argument (data : List UInt8) (args puts gets : List c_string) :
    Option (List UInt8) := do
  let (args, rem) ← split_args args
  let args := args ++ puts.flatMap (fun put => [text "put", put]) ++ rem
    ++ gets.flatMap (fun get => [text "get", get])
  let cmd := join_args args
  if 128 < len cmd then none
  else do
    let count ← pack args.length
    return data.take 0x17a ++ count ++ ljust cmd 128 ++ data.drop 0x1fe

/-! ## `read_command_line` -/

/-- `LOADER_ARGS_LEN`. -/
def LOADER_ARGS_LEN : ℕ := 128

/-- `LOADER_ARG_CNT` and `LOADER_ARGS`, from `LOADER_BASE` on. -/
def LOADER_ARG_CNT : ℕ := 0x17a
def LOADER_ARGS : ℕ := 0x17e

/-- `strnlen`, with `maxlen` characters left; it looks at the character behind the last one too. -/
def strnlen (mem : List UInt8) (string : ℕ) : ℕ → ℕ → Outcome ℕ
  | 0, length => if string + length < mem.length then .ok length else .undefined
  | maxlen + 1, length =>
      match mem[string + length]? with
      | none => .undefined
      | some c => if c ≠ 0 then strnlen mem string maxlen (length + 1) else .ok length

/-- The loop of `read_command_line`, with `n` turns left: the pointers it stores. -/
def read_command_line_loop (mem : List UInt8) : ℕ → ℕ → List ℕ → Outcome (List ℕ)
  | 0, _, argv => .ok argv
  | n + 1, p, argv =>
      if p ≥ LOADER_ARGS + LOADER_ARGS_LEN then .panic
      else if argv.length < LOADER_ARGS_LEN / 2 + 1 then do
        let len ← strnlen mem p (LOADER_ARGS + LOADER_ARGS_LEN - p) 0
        read_command_line_loop mem n (p + len + 1) (argv ++ [p])
      else .undefined

/-- `read_command_line`, without what it prints: `argv`, up to the null pointer. -/
def read_command_line (mem : List UInt8) : Outcome (List ℕ) := do
  let argc := i32 (wordAt (fun k => mem.getD k 0) LOADER_ARG_CNT)
  let argv ← read_command_line_loop mem argc.toNat LOADER_ARGS []
  if 0 ≤ argc ∧ argv.length < LOADER_ARGS_LEN / 2 + 1 then return argv
  else .undefined

/-! ## `parse_options` -/

/-- The variables that options set. `random_seed` is what `random_init` was called with last. -/
structure settings where
  power_off_when_done : Bool
  format_filesys : Bool
  random_seed : Option ℕ
  thread_mlfqs : Bool
  user_page_limit : ℕ
  thread_tests : Bool
  deriving DecidableEq, Repr

/-- Before any option; `SIZE_MAX` is that of 32 bits. -/
def settings.initial : settings := ⟨false, false, none, false, 2 ^ 32 - 1, false⟩

/-- What `parse_options` comes to: `usage` does not return. -/
inductive parsed
  | usage
  | options (st : settings) (argv : List ℕ) (mem : List UInt8)

/-- `atoi (value)`, where `value` may be a null pointer. -/
def atoi_value (mem : List UInt8) : Option ℕ → Outcome ℤ
  | none => .panic
  | some value => .ok (atoi (c_string_at mem value))

/-- `parse_options`. -/
def parse_options : List ℕ → List UInt8 → settings → Outcome parsed
  | [], mem, st => .ok (.options st [] mem)
  | p :: argv, mem, st =>
      if mem[p]? = some 45 then do
        let (name, save_ptr, mem) ← strtok_r mem p (text "=")
        let (value, _, mem) ← strtok_r mem save_ptr []
        match name with
        | none => .panic
        | some name =>
            let name := c_string_at mem name
            if name = text "-h" then return .usage
            else if name = text "-q" then parse_options argv mem { st with power_off_when_done := true }
            else if name = text "-f" then parse_options argv mem { st with format_filesys := true }
            else if name = text "-rs" then do
              let seed ← atoi_value mem value
              parse_options argv mem { st with random_seed := some (u32OfInt seed) }
            else if name = text "-mlfqs" then parse_options argv mem { st with thread_mlfqs := true }
            else if name = text "-ul" then do
              let limit ← atoi_value mem value
              parse_options argv mem { st with user_page_limit := (limit % 2 ^ 64).toNat }
            else if name = text "-threads-tests" then parse_options argv mem { st with thread_tests := true }
            else .panic
      else .ok (.options st (p :: argv) mem)

/-! ## `run_actions` -/

/-- A call that an action makes. -/
inductive command
  | run_task (task : c_string)
  | fsutil_ls
  | fsutil_cat (file_name : c_string)
  | fsutil_rm (file_name : c_string)
  | fsutil_put (file_name : c_string)
  | fsutil_get (file_name : c_string)
  deriving DecidableEq, Repr

/-- `struct action`; the function takes `argv[1]`, if it has that many. -/
structure action where
  name : c_string
  argc : ℕ
  function : c_string → command

/-- `actions`. -/
def actions : List action :=
  [⟨text "run", 2, .run_task⟩, ⟨text "ls", 1, fun _ => .fsutil_ls⟩, ⟨text "cat", 2, .fsutil_cat⟩,
    ⟨text "rm", 2, .fsutil_rm⟩, ⟨text "put", 2, .fsutil_put⟩, ⟨text "get", 2, .fsutil_get⟩]

/-- `run_actions`. No action of the table has more than one argument. -/
def run_actions (mem : List UInt8) : List ℕ → Traced command PUnit
  | [] => pure ⟨⟩
  | p :: argv =>
      match actions.find? fun a => c_string_at mem p = a.name with
      | none => Traced.lift .panic
      | some a =>
          if a.argc ≤ 1 then do
            Traced.note (a.function [])
            run_actions mem argv
          else
            match argv with
            | [] => Traced.lift .panic
            | arg :: argv => do
                Traced.note (a.function (c_string_at mem arg))
                run_actions mem argv

/-- `main`, as far as the command line goes: the calls in order, and the settings in the end; none
when `usage` has ended the run. -/
def main (mem : List UInt8) : Traced command (Option settings) := do
  let argv ← Traced.lift (read_command_line mem)
  let p ← Traced.lift (parse_options argv mem settings.initial)
  match p with
  | .usage => return none
  | .options st argv mem => do
      run_actions mem argv
      return some st

end Pintos.boot
