/-
`threads/init.c` and `utils/pintos`: the kernel does what the script was asked for.

The bytes of the command line are a format, written by the script and read by three loops of the
kernel. The abstract command line is a list of settings and a list of commands; the script adds a
command for each file to put in front of these, and one for each file to get behind them.
-/
import Pintos.Threads.CommandLine

set_option autoImplicit false

namespace Pintos.boot

open Pintos.libc (text atoi)

/-! ## The abstract command line -/

/-- An option. -/
inductive setting
  | q
  | f
  | rs (seed : c_string)
  | mlfqs
  | ul (limit : c_string)
  | threads_tests

namespace setting

/-- The value of an option, if it takes one. -/
def value : setting → Option c_string
  | .rs seed => some seed
  | .ul limit => some limit
  | _ => none

def name : setting → c_string
  | .q => text "-q"
  | .f => text "-f"
  | .rs _ => text "-rs"
  | .mlfqs => text "-mlfqs"
  | .ul _ => text "-ul"
  | .threads_tests => text "-threads-tests"

/-- How it is written. -/
def word (o : setting) : c_string :=
  match o.value with
  | none => o.name
  | some v => o.name ++ (61 :: v)

/-- A value can be written: there are characters in it, and no null byte. -/
def Plain (o : setting) : Prop := ∀ v, o.value = some v → v ≠ [] ∧ 0 ∉ v

/-- What it sets. -/
def apply (st : settings) : setting → settings
  | .q => { st with power_off_when_done := true }
  | .f => { st with format_filesys := true }
  | .rs seed => { st with random_seed := some (u32OfInt (atoi seed)) }
  | .mlfqs => { st with thread_mlfqs := true }
  | .ul limit => { st with user_page_limit := (atoi limit % 2 ^ 64).toNat }
  | .threads_tests => { st with thread_tests := true }

end setting

namespace command

/-- The name of the action, and its argument. -/
def name : command → c_string
  | .run_task _ => text "run"
  | .fsutil_ls => text "ls"
  | .fsutil_cat _ => text "cat"
  | .fsutil_rm _ => text "rm"
  | .fsutil_put _ => text "put"
  | .fsutil_get _ => text "get"

def argument : command → Option c_string
  | .run_task task => some task
  | .fsutil_ls => none
  | .fsutil_cat file_name => some file_name
  | .fsutil_rm file_name => some file_name
  | .fsutil_put file_name => some file_name
  | .fsutil_get file_name => some file_name

/-- How it is written. -/
def words (c : command) : List c_string := c.name :: c.argument.toList

/-- An argument can be written: there is no null byte in it. -/
def Plain (c : command) : Prop := ∀ a, c.argument = some a → 0 ∉ a

end command

/-! ## Strings in memory -/

/-- Where strings start that lie one behind the other. -/
def starts : ℕ → List c_string → List ℕ
  | _, [] => []
  | p, a :: args => p :: starts (p + a.length + 1) args

section Strings

variable {pre l : List UInt8} {t : c_string} {args : List c_string}

@[simp] theorem join_args_nil : join_args [] = [] := rfl

theorem join_args_cons (a : c_string) (args : List c_string) :
    join_args (a :: args) = a ++ 0 :: join_args args := by
  unfold join_args
  rw [List.flatMap_cons, List.append_assoc]
  rfl

theorem join_args_append (a b : List c_string) : join_args (a ++ b) = join_args a ++ join_args b :=
  List.flatMap_append

@[simp] theorem starts_length (p : ℕ) : (starts p args).length = args.length := by
  induction args generalizing p with
  | nil => rfl
  | cons a args ih => exact congrArg (· + 1) (ih _)

theorem starts_append (p : ℕ) (a b : List c_string) :
    starts p (a ++ b) = starts p a ++ starts (p + (join_args a).length) b := by
  induction a generalizing p with
  | nil => rfl
  | cons x a ih =>
      rw [List.cons_append, starts, starts, ih, join_args_cons, List.length_append,
        List.length_cons, List.cons_append]
      congr 3
      omega

/-- A string with the null byte behind it belongs to what lies in front of the rest. -/
theorem append_closed (pre t l : List UInt8) : pre ++ (t ++ 0 :: l) = (pre ++ (t ++ [0])) ++ l := by
  simp only [List.append_assoc, List.cons_append, List.nil_append]

theorem length_closed (pre t : List UInt8) :
    (pre ++ (t ++ [0])).length = pre.length + t.length + 1 := by
  rw [List.length_append, List.length_append, Nat.add_assoc]
  rfl

theorem c_string_at_start (ht : 0 ∉ t) : c_string_at (pre ++ (t ++ 0 :: l)) pre.length = t :=
  c_string_at_token ht pre [] l

/-- `strnlen` of a string that ends in time, `k` characters behind its start. -/
theorem strnlen_eq {maxlen : ℕ} (ht : 0 ∉ t) (hlen : t.length ≤ maxlen) :
    ∀ {pre : List UInt8} {p k : ℕ},
    pre.length = p + k → strnlen (pre ++ (t ++ 0 :: l)) p maxlen k = .ok (k + t.length) := by
  induction t generalizing maxlen with
  | nil =>
      intro pre p k hpre
      have hnull : (pre ++ ([] ++ 0 :: l))[p + k]? = some 0 := by
        rw [← hpre, List.nil_append, List.getElem?_append_right (Nat.le_refl _), Nat.sub_self]
        rfl
      cases maxlen with
      | zero =>
          rw [strnlen, if_pos]
          · rfl
          · exact (List.getElem?_eq_some_iff.mp hnull).1
      | succ maxlen =>
          rw [strnlen, hnull]
          rfl
  | cons c t ih =>
      intro pre p k hpre
      obtain ⟨maxlen, rfl⟩ : ∃ m, maxlen = m + 1 := ⟨maxlen - 1, by simp at hlen; omega⟩
      rw [List.mem_cons, not_or] at ht
      have hchar : (pre ++ ((c :: t) ++ 0 :: l))[p + k]? = some c := by
        rw [← hpre, List.getElem?_append_right (Nat.le_refl _), Nat.sub_self]
        rfl
      have hnext := @ih maxlen ht.2 (Nat.le_of_succ_le_succ hlen) (pre ++ [c]) p (k + 1)
        (by rw [List.length_append, hpre]; rfl)
      rw [strnlen, hchar]
      dsimp only
      rw [if_pos (Ne.symm ht.1)]
      rw [List.append_assoc] at hnext
      exact hnext.trans (congrArg Outcome.ok (by rw [List.length_cons]; omega))

/-- **The loop of `read_command_line`**, where the strings lie one behind the other. -/
theorem read_command_line_loop_eq (hargs : ∀ a ∈ args, 0 ∉ a) : ∀ {pre : List UInt8}
    {argv : List ℕ},
    LOADER_ARGS ≤ pre.length → pre.length + (join_args args).length
      ≤ LOADER_ARGS + LOADER_ARGS_LEN →
    argv.length ≤ LOADER_ARGS_LEN / 2 + 1 →
    read_command_line_loop (pre ++ (join_args args ++ l)) args.length pre.length argv
      = if argv.length + args.length ≤ LOADER_ARGS_LEN / 2 + 1 then .ok
        (argv ++ starts pre.length args) else .undefined := by
  induction args with
  | nil =>
      intro pre argv hlow hhigh hroom
      rw [if_pos (by simpa using hroom), starts, List.append_nil]
      rfl
  | cons a args ih =>
      intro pre argv hlow hhigh hroom
      rw [join_args_cons, List.length_append, List.length_cons] at hhigh
      obtain ⟨ha, hrest⟩ := List.forall_mem_cons.mp hargs
      rw [List.length_cons, read_command_line_loop, if_neg (by omega), join_args_cons]
      by_cases hfull : argv.length < LOADER_ARGS_LEN / 2 + 1
      · have hstring := strnlen_eq (l := join_args args ++ l) ha
          (show a.length ≤ LOADER_ARGS + LOADER_ARGS_LEN - pre.length by omega)
          (Nat.add_zero pre.length).symm
        have hpre := length_closed pre a
        have hmem : pre ++ ((a ++ 0 :: join_args args) ++ l)
            = pre ++ (a ++ 0 :: (join_args args ++ l)) := by
          rw [List.append_assoc, List.cons_append]
        have hnext := @ih hrest (pre ++ (a ++ [0])) (argv ++ [pre.length]) (by omega) (by omega)
          (by rw [List.length_append]; exact hfull)
        rw [hpre, ← append_closed] at hnext
        rw [if_pos hfull, hmem, hstring, Outcome.ok_bind, Nat.zero_add, hnext, starts,
          List.length_append, List.append_assoc]
        simp only [List.length_cons, List.length_nil, List.cons_append, List.nil_append,
          Nat.add_assoc, Nat.add_comm 1]
      · rw [if_neg hfull, if_neg (by omega)]

/-- The strings are read where they start. -/
theorem starts_strings (hargs : ∀ a ∈ args, 0 ∉ a) : ∀ {pre : List UInt8},
    (starts pre.length args).map (c_string_at (pre ++ (join_args args ++ l))) = args := by
  induction args with
  | nil =>
      intro pre
      rfl
  | cons a args ih =>
      intro pre
      obtain ⟨ha, hrest⟩ := List.forall_mem_cons.mp hargs
      have hmem : pre ++ (join_args (a :: args) ++ l)
          = pre ++ (a ++ 0 :: (join_args args ++ l)) := by
        rw [join_args_cons, List.append_assoc, List.cons_append]
      have hnext := @ih hrest (pre ++ (a ++ [0]))
      rw [length_closed, ← append_closed] at hnext
      rw [hmem, starts, List.map_cons, hnext, c_string_at_start ha]

end Strings

/-! ## The command line in memory -/

/-- The arguments lie where the loader leaves them, behind their number. -/
structure Written (mem : List UInt8) (args : List c_string) : Prop where
  count : wordAt (fun k => mem.getD k 0) LOADER_ARG_CNT = args.length
  fits : (join_args args).length ≤ LOADER_ARGS_LEN
  placed : ∃ front back, mem = front ++ (join_args args ++ back) ∧ front.length = LOADER_ARGS

section Reading

variable {mem data f : List UInt8} {args options rem puts gets : List c_string}

/-- No argument has a character in it that takes more than one byte. -/
def Ascii (args : List c_string) : Prop := ∀ a ∈ args, ∀ c ∈ a, c < 128

instance (args : List c_string) : Decidable (Ascii args) :=
    inferInstanceAs (Decidable (∀ a ∈ args, _))

theorem Ascii.len_eq (h : Ascii args) : len (join_args args) = (join_args args).length := by
  refine List.countP_eq_length.mpr fun c hc => decide_eq_true (.inl ?_)
  obtain ⟨a, ha, hc⟩ := List.mem_flatMap.mp hc
  rw [List.mem_append, List.mem_singleton] at hc
  obtain hc | rfl := hc
  · exact h a ha c hc
  · decide

theorem length_le_join_args (args : List c_string) : args.length ≤ (join_args args).length := by
  induction args with
  | nil => exact Nat.le_refl 0
  | cons a args ih =>
      rw [join_args_cons, List.length_append, List.length_cons, List.length_cons]
      omega

/-- **`read_command_line`** takes up to 64 arguments; it stores behind its array when there are
more. -/
theorem read_command_line_eq (h : Written mem args) (hargs : ∀ a ∈ args, 0 ∉ a) :
    read_command_line mem = if args.length ≤ 64 then .ok (starts LOADER_ARGS args)
      else .undefined := by
  obtain ⟨front, back, hmem, hfront⟩ := h.placed
  have hfits := h.fits
  have hmany := length_le_join_args args
  have hargc : i32 (args.length : ℤ) = args.length := i32_of_isI32 (by
    unfold LOADER_ARGS_LEN at hfits
    unfold IsI32
    omega)
  have hloop := @read_command_line_loop_eq back args hargs front [] (Nat.le_of_eq hfront.symm)
    (by rw [hfront]; exact Nat.add_le_add_left hfits _) (Nat.zero_le _)
  rw [← hmem, hfront, List.nil_append, List.length_nil, Nat.zero_add] at hloop
  rw [read_command_line, h.count, hargc, Int.toNat_natCast, hloop]
  unfold LOADER_ARGS_LEN
  by_cases hroom : args.length ≤ 65
  · rw [if_pos hroom, Outcome.ok_bind, starts_length]
    by_cases hnull : args.length ≤ 64
    · rw [if_pos hnull, if_pos ⟨Int.natCast_nonneg _, by omega⟩]
      rfl
    · rw [if_neg hnull, if_neg (by omega)]
  · rw [if_neg hroom, if_neg (by omega)]
    rfl

/-- The arguments that the script writes, with those that it was called with split in two. -/
def all_args (options rem puts gets : List c_string) : List c_string :=
  options ++ puts.flatMap (fun put => [text "put", put]) ++ rem ++ gets.flatMap (fun get => [text "get", get])

/-- What the script writes when it has split the arguments. -/
theorem prepare_kernel_argument_eq (hsplit : split_args args = some (options, rem))
    (hascii : Ascii (all_args options rem puts gets)) :
    prepare_kernel_argument data args puts gets
      = if 128 < (join_args (all_args options rem puts gets)).length then none
        else some (data.take 0x17a
          ++ [byteOf (all_args options rem puts gets).length 0,
            byteOf (all_args options rem puts gets).length 1,
            byteOf (all_args options rem puts gets).length 2,
              byteOf (all_args options rem puts gets).length 3]
          ++ (join_args (all_args options rem puts gets)
            ++ List.replicate (128 - (join_args (all_args options rem puts gets)).length) 0)
          ++ data.drop 0x1fe) := by
  rw [prepare_kernel_argument, hsplit]
  simp only [Option.bind_eq_bind, Option.bind_some]
  change (if 128 < len (join_args (all_args options rem puts gets)) then none else
    (pack (all_args options rem puts gets).length).bind fun count => some (data.take 0x17a ++ count
      ++ ljust (join_args (all_args options rem puts gets)) 128 ++ data.drop 0x1fe)) = _
  generalize all_args options rem puts gets = all at hascii ⊢
  unfold ljust
  rw [hascii.len_eq]
  by_cases hlong : 128 < (join_args all).length
  · rw [if_pos hlong, if_pos hlong]
  · have hmany := length_le_join_args all
    have hpack : pack all.length
        = some [byteOf all.length 0, byteOf all.length 1, byteOf all.length 2,
          byteOf all.length 3] :=
      if_pos (by omega)
    rw [if_neg hlong, if_neg hlong, hpack, Option.bind_some]

/-- **The script's disk** holds the arguments. -/
theorem prepare_kernel_argument_written (hlen : 0x1fe ≤ data.length)
    (hsplit : split_args args = some (options, rem))
    (hascii : Ascii (all_args options rem puts gets))
    (h : prepare_kernel_argument data args puts gets = some f) :
    Written f (all_args options rem puts gets) := by
  rw [prepare_kernel_argument_eq hsplit hascii] at h
  generalize all_args options rem puts gets = all at h ⊢
  by_cases hlong : 128 < (join_args all).length
  · rw [if_pos hlong] at h
    cases h
  · have hmany := length_le_join_args all
    have htake : (data.take 0x17a).length = 0x17a := List.length_take_of_le (by omega)
    rw [if_neg hlong, Option.some.injEq] at h
    subst h
    refine ⟨wordAt_of_bytes (by omega) fun k hk => ?_, Nat.le_of_not_lt hlong,
      data.take 0x17a ++ [byteOf all.length 0, byteOf all.length 1, byteOf all.length 2,
        byteOf all.length 3],
      List.replicate (128 - (join_args all).length) 0 ++ data.drop 0x1fe, ?_, ?_⟩
    · have hplace : (data.take 0x17a).length ≤ LOADER_ARG_CNT + k := by
        rw [htake]
        exact Nat.le_add_right _ _
      have hbyte : LOADER_ARG_CNT + k - (data.take 0x17a).length = k := by
        rw [htake]
        exact Nat.add_sub_cancel_left _ _
      show List.getD _ (LOADER_ARG_CNT + k) 0 = _
      rw [List.append_assoc, List.append_assoc, List.getD_append_right _ _ _ _ hplace, hbyte]
      match k, hk with
      | 0, _ | 1, _ | 2, _ | 3, _ => rfl
    · simp only [List.append_assoc]
    · rw [List.length_append, htake]
      rfl

/-- **The loader** is the first sector of the disk, with the arguments in it, and stays in
memory. -/
theorem Written.loaded (h : Written f args) (more : List UInt8) :
    Written (f.take 512 ++ more) args := by
  obtain ⟨front, back, hf, hfront⟩ := h.placed
  have hfits := h.fits
  unfold LOADER_ARGS_LEN at hfits
  unfold LOADER_ARGS at hfront
  have htake : f.take 512
      = front ++ (join_args args ++ back.take (512 - front.length - (join_args args).length)) := by
    rw [hf, List.take_append, List.take_append, List.take_of_length_le (by omega),
      List.take_of_length_le (by omega)]
  refine ⟨?_, h.fits, front, back.take (512 - front.length - (join_args args).length)
    ++ more, ?_, hfront⟩
  · rw [← h.count]
    refine wordAt_congr fun k hk => ?_
    show List.getD _ (LOADER_ARG_CNT + k) 0 = f.getD (LOADER_ARG_CNT + k) 0
    have hin : LOADER_ARG_CNT + k < front.length := by
      unfold LOADER_ARG_CNT
      omega
    rw [htake, hf, List.append_assoc, List.getD_append _ _ _ _ hin, List.getD_append _ _ _ _ hin]
  · rw [htake, List.append_assoc, List.append_assoc]

/-- **What the script writes is read back** when there are up to 64 arguments. Of empty ones it
writes up to 128. -/
theorem reads_back_iff (hlen : 0x1fe ≤ data.length) (hsplit : split_args args = some (options, rem))
    (hnull : ∀ a ∈ all_args options rem puts gets, 0 ∉ a)
    (hascii : Ascii (all_args options rem puts gets))
    (h : prepare_kernel_argument data args puts gets = some f) (more : List UInt8) :
    (∃ argv, read_command_line (f.take 512 ++ more) = .ok argv
        ∧ argv.map (c_string_at (f.take 512 ++ more)) = all_args options rem puts gets)
      ↔ (all_args options rem puts gets).length ≤ 64 := by
  have hwritten := (prepare_kernel_argument_written hlen hsplit hascii h).loaded more
  obtain ⟨front, back, hmem, hfront⟩ := hwritten.placed
  rw [read_command_line_eq hwritten hnull]
  constructor
  · intro hread
    obtain ⟨argv, hread, -⟩ := hread
    by_contra hmany
    rw [if_neg hmany] at hread
    cases hread
  · intro hfew
    refine ⟨_, if_pos hfew, ?_⟩
    rw [hmem, ← hfront]
    exact starts_strings hnull

/-- Sixty-four empty words behind the name of an action fit into 128 bytes, and are too many. -/
theorem too_many_words_lost : ∃ f,
    prepare_kernel_argument (List.replicate 512 7) (text "run" :: List.replicate 64 []) [] [] = some f
      ∧ ¬∃ argv, read_command_line (f.take 512 ++ []) = .ok argv
        ∧ argv.map (c_string_at (f.take 512 ++ [])) = all_args [] (text "run" :: List.replicate 64 []) [] [] := by
  have hsplit : split_args (text "run" :: List.replicate 64 []) = some ([], text "run" :: List.replicate 64 []) := rfl
  have hlen : 0x1fe ≤ (List.replicate 512 (7 : UInt8)).length := by
    rw [List.length_replicate]
    decide
  have hnull : ∀ a ∈ all_args [] (text "run" :: List.replicate 64 []) [] [], 0 ∉ a := by decide
  have hfits : ¬128 < (join_args (all_args [] (text "run" :: List.replicate 64 []) [] [])).length := by decide
  have hascii : Ascii (all_args [] (text "run" :: List.replicate 64 []) [] []) := by decide +kernel
  have hwrites := @prepare_kernel_argument_eq (List.replicate 512 7) _ _ _ [] [] hsplit hascii
  rw [if_neg hfits] at hwrites
  exact ⟨_, hwrites, (reads_back_iff hlen hsplit hnull hascii hwrites []).not.mpr (by decide)⟩

end Reading

/-! ## Options -/

section Options

variable {pre rest : List UInt8} {o : setting} {os : List setting} {st : settings} {argv : List ℕ}

/-- The bytes that `parse_options` leaves of an option: the name is closed. -/
def setting.closed (o : setting) : List UInt8 :=
  match o.value with
  | none => o.name
  | some v => o.name ++ (0 :: v)

theorem setting.closed_length (o : setting) : o.closed.length = o.word.length := by
  cases o with
  | q => rfl
  | f => rfl
  | rs seed => rfl
  | mlfqs => rfl
  | ul limit => rfl
  | threads_tests => rfl

/-- The names of the options. -/
def option_names : List c_string :=
  [text "-q", text "-f", text "-rs", text "-mlfqs", text "-ul", text "-threads-tests"]

theorem setting.name_mem (o : setting) : o.name ∈ option_names := by
  cases o with
  | q => simp [option_names, name]
  | f => simp [option_names, name]
  | rs seed => simp [option_names, name]
  | mlfqs => simp [option_names, name]
  | ul limit => simp [option_names, name]
  | threads_tests => simp [option_names, name]

theorem option_names_plain : ∀ n ∈ option_names,
    (n ≠ [] ∧ ∀ c ∈ n, is_delimiter (text "=") c = false) ∧ 0 ∉ n ∧ n.head? = some 45 := by decide +kernel

theorem setting.name_token (o : setting) : Token (is_delimiter (text "=")) o.name :=
  let h := (option_names_plain o.name o.name_mem).1
  ⟨h.1, h.2⟩

theorem setting.name_plain (o : setting) : 0 ∉ o.name := (option_names_plain o.name o.name_mem).2.1

/-- `parse_options` takes it for an option. -/
theorem setting.word_head (o : setting) (l : List UInt8) : (o.word ++ l).head? = some 45 := by
  obtain ⟨-, -, hname⟩ := option_names_plain o.name o.name_mem
  unfold word
  cases o.value with
  | none => rw [List.head?_append, hname, Option.some_or]
  | some v => rw [List.append_assoc, List.head?_append, hname, Option.some_or]

/-- **The two calls of `strtok_r`** find the name of an option, and the value if there is one. -/
theorem strtok_r_option (ho : o.Plain) :
    ∃ save_ptr m, strtok_r (pre ++ (o.word ++ 0 :: rest)) pre.length (text "=") = .ok (some pre.length, save_ptr, m)
      ∧ strtok_r m save_ptr [] = .ok (o.value.map fun _ => pre.length + o.name.length + 1,
          pre.length + o.word.length, pre ++ (o.closed ++ 0 :: rest)) := by
  have hseps : Seps (is_delimiter (text "=")) [] := fun c hc => by cases hc
  have hnone : Seps (is_delimiter []) [] := fun c hc => by cases hc
  unfold setting.word setting.closed
  cases hv : o.value with
  | none =>
      dsimp only
      refine ⟨_, _, strtok_r_last hseps List.not_mem_nil o.name_token o.name_plain pre rest, ?_⟩
      have hend := strtok_r_seps hnone List.not_mem_nil (pre ++ o.name) rest
      rw [List.length_append, List.append_assoc] at hend
      exact hend
  | some v =>
      dsimp only
      obtain ⟨hne, hz⟩ := ho v hv
      have hfirst := @strtok_r_more (text "=") [] o.name 61 hseps List.not_mem_nil o.name_token o.name_plain
        (by decide) (by decide) pre (v ++ 0 :: rest)
      refine ⟨pre.length + o.name.length + 1, pre ++ (o.name ++ 0 :: (v ++ 0 :: rest)), ?_, ?_⟩
      · rw [List.append_assoc, List.cons_append]
        exact hfirst
      · have htoken : Token (is_delimiter []) v := ⟨hne, fun c _ => rfl⟩
        have hlast := @strtok_r_last [] [] v hnone List.not_mem_nil htoken hz
          (pre ++ (o.name ++ [0])) rest
        rw [length_closed] at hlast
        simp only [List.append_assoc, List.cons_append, List.nil_append,
          List.length_nil, Nat.add_zero, List.length_append, List.length_cons] at hlast ⊢
        rw [hlast, Option.map_some]
        congr 3
        omega

theorem setting.closed_name (o : setting) :
    c_string_at (pre ++ (o.closed ++ 0 :: rest)) pre.length = o.name := by
  unfold closed
  cases o.value with
  | none => exact c_string_at_start o.name_plain
  | some v =>
      dsimp only
      rw [List.append_assoc, List.cons_append]
      exact c_string_at_start o.name_plain

theorem setting.closed_value {v : c_string} (ho : o.Plain) (hv : o.value = some v) :
    c_string_at (pre ++ (o.closed ++ 0 :: rest)) (pre.length + o.name.length + 1) = v := by
  have hvalue := @c_string_at_start (pre ++ (o.name ++ [0])) rest v (ho v hv).2
  unfold closed
  rw [hv]
  rw [length_closed] at hvalue
  simp only [List.append_assoc, List.cons_append, List.nil_append] at hvalue ⊢
  exact hvalue

/-- **One turn of `parse_options`.** -/
theorem parse_options_step (ho : o.Plain) :
    parse_options (pre.length :: argv) (pre ++ (o.word ++ 0 :: rest)) st
      = parse_options argv (pre ++ (o.closed ++ 0 :: rest)) (o.apply st) := by
  have hdash : (pre ++ (o.word ++ 0 :: rest))[pre.length]? = some 45 := by
    rw [List.getElem?_append_right (Nat.le_refl _), Nat.sub_self, ← List.head?_eq_getElem?]
    exact o.word_head _
  obtain ⟨save_ptr, m, hname, hvalue⟩ := @strtok_r_option pre rest o ho
  have hclosed := @setting.closed_name pre rest o
  have hgiven : ∀ v, o.value = some v →
      atoi_value (pre ++ (o.closed ++ 0 :: rest))
        (some (pre.length + o.name.length + 1)) = .ok (atoi v) := by
    intro v hv
    rw [atoi_value, setting.closed_value ho hv]
  rw [parse_options, if_pos hdash, hname]
  simp only [Outcome.ok_bind]
  rw [hvalue]
  simp only [Outcome.ok_bind]
  rw [hclosed]
  generalize pre ++ (o.closed ++ 0 :: rest) = mem at hgiven ⊢
  cases o with
  | q => rfl
  | f => rfl
  | rs seed =>
      rw [setting.value, Option.map_some, hgiven seed rfl]
      rfl
  | mlfqs => rfl
  | ul limit =>
      rw [setting.value, Option.map_some, hgiven limit rfl]
      rfl
  | threads_tests => rfl

/-- The bytes that `parse_options` leaves of all options. -/
def closed_options (os : List setting) : List UInt8 := os.flatMap fun o => o.closed ++ [0]

theorem closed_options_cons (o : setting) (os : List setting) :
    closed_options (o :: os) = o.closed ++ 0 :: closed_options os := by
  unfold closed_options
  rw [List.flatMap_cons, List.append_assoc]
  rfl

theorem closed_options_length (os : List setting) :
    (closed_options os).length = (join_args (os.map setting.word)).length := by
  induction os with
  | nil => rfl
  | cons o os ih =>
      rw [closed_options_cons, List.map_cons, join_args_cons, List.length_append,
        List.length_append, List.length_cons, List.length_cons, o.closed_length, ih]

/-- **`parse_options`** takes all options, and goes on behind them. -/
theorem parse_options_run (hos : ∀ o ∈ os, o.Plain) : ∀ {pre : List UInt8} {st : settings},
    parse_options (starts pre.length (os.map setting.word) ++ argv)
        (pre ++ (join_args (os.map setting.word) ++ rest)) st
      = parse_options argv (pre ++ (closed_options os ++ rest)) (os.foldl setting.apply st) := by
  induction os with
  | nil =>
      intro pre st
      rfl
  | cons o os ih =>
      intro pre st
      obtain ⟨ho, hos⟩ := List.forall_mem_cons.mp hos
      have hmem : pre ++ (join_args ((o :: os).map setting.word) ++ rest)
          = pre ++ (o.word ++ 0 :: (join_args (os.map setting.word) ++ rest)) := by
        rw [List.map_cons, join_args_cons, List.append_assoc, List.cons_append]
      have hnext := @ih hos (pre ++ (o.closed ++ [0])) (o.apply st)
      rw [length_closed, o.closed_length] at hnext
      rw [hmem, List.map_cons, starts, List.cons_append, parse_options_step ho, append_closed,
        hnext, closed_options_cons, List.foldl_cons]
      simp only [List.append_assoc, List.cons_append, List.nil_append]

end Options

/-! ## Actions -/

section Actions

variable {pre rest : List UInt8} {c : command} {cs : List command}

/-- The entry of the table for a command. -/
def command.action (c : command) : action := ⟨c.name, c.words.length, fun a =>
  match c with
  | .run_task _ => .run_task a
  | .fsutil_ls => .fsutil_ls
  | .fsutil_cat _ => .fsutil_cat a
  | .fsutil_rm _ => .fsutil_rm a
  | .fsutil_put _ => .fsutil_put a
  | .fsutil_get _ => .fsutil_get a⟩

/-- **The table** has it under its name. -/
theorem command.find_action (c : command) :
    actions.find? (fun a => c.name = a.name) = some c.action := by
  cases c with
  | run_task task => rfl
  | fsutil_ls => rfl
  | fsutil_cat file_name => rfl
  | fsutil_rm file_name => rfl
  | fsutil_put file_name => rfl
  | fsutil_get file_name => rfl

/-- **`run_actions`** makes the calls that the words at `argv` ask for. -/
theorem run_actions_eq {mem : List UInt8} : ∀ {argv : List ℕ},
    argv.map (c_string_at mem) = cs.flatMap command.words
      → run_actions mem argv = ⟨cs, .ok ⟨⟩⟩ := by
  induction cs with
  | nil =>
      intro argv hwords
      rw [List.flatMap_nil, List.map_eq_nil_iff] at hwords
      rw [hwords]
      rfl
  | cons c cs ih =>
      intro argv hwords
      rw [List.flatMap_cons, command.words, List.cons_append, List.map_eq_cons_iff] at hwords
      obtain ⟨p, rest, rfl, hname, hrest⟩ := hwords
      rw [run_actions, hname, c.find_action]
      dsimp only
      cases harg : c.argument with
      | none =>
          have hone : c.action.argc = 1 := by
            rw [command.action, command.words, harg]
            rfl
          have hcall : c.action.function [] = c := by
            cases c with
            | fsutil_ls => rfl
            | _ => cases harg
          rw [harg, Option.toList_none, List.nil_append] at hrest
          rw [if_pos (by omega), hcall, ih hrest]
          rfl
      | some a =>
          have htwo : c.action.argc = 2 := by
            rw [command.action, command.words, harg]
            rfl
          have hcall : c.action.function a = c := by
            cases c with
            | fsutil_ls => cases harg
            | _ => cases harg; rfl
          rw [harg, Option.toList_some, List.singleton_append, List.map_eq_cons_iff] at hrest
          obtain ⟨arg, rest, rfl, ha, hrest⟩ := hrest
          rw [if_neg (by omega)]
          dsimp only
          rw [ha, hcall, ih hrest]
          rfl

end Actions

/-! ## The whole way -/

section CommandLine

variable {data f mem : List UInt8} {os : List setting} {cs : List command}
  {puts gets : List c_string} {st : settings} {argv : List ℕ}

/-- The names of the actions. -/
def action_names : List c_string := actions.map action.name

theorem command.name_mem (c : command) : c.name ∈ action_names := by
  have hfound := List.mem_of_find?_eq_some c.find_action
  exact List.mem_map_of_mem hfound

theorem action_names_plain : ∀ n ∈ action_names, 2 ≤ n.length ∧ 0 ∉ n
    ∧ n.head? ≠ some 45 := by decide

/-- No word has a null byte in it. -/
theorem words_plain (hos : ∀ o ∈ os, o.Plain) (hcs : ∀ c ∈ cs, c.Plain) :
    ∀ a ∈ os.map setting.word ++ cs.flatMap command.words, 0 ∉ a := by
  intro a ha
  rw [List.mem_append, List.mem_map, List.mem_flatMap] at ha
  obtain ⟨o, ho, rfl⟩ | ⟨c, hc, ha⟩ := ha
  · have hname := o.name_plain
    unfold setting.word
    cases hv : o.value with
    | none => exact hname
    | some v =>
        intro hz
        rw [List.mem_append, List.mem_cons] at hz
        obtain hz | hz | hz := hz
        · exact hname hz
        · exact absurd hz (by decide)
        · exact (hos o ho v hv).2 hz
  · rw [command.words, List.mem_cons, Option.mem_toList] at ha
    obtain rfl | ha := ha
    · exact (action_names_plain c.name c.name_mem).2.1
    · exact hcs c hc a ha

/-- A command takes four bytes or more if it has an argument, and two or more if not. -/
theorem two_length_le (os : List setting) (cs : List command) :
    2 * (os.map setting.word ++ cs.flatMap command.words).length
      ≤ (join_args (os.map setting.word ++ cs.flatMap command.words)).length := by
  have hos : 2 * (os.map setting.word).length ≤ (join_args (os.map setting.word)).length := by
    induction os with
    | nil => exact Nat.le_refl 0
    | cons o os ih =>
        have hne : 0 < o.word.length := List.length_pos_of_ne_nil fun h => by
          have hhead := o.word_head []
          rw [h] at hhead
          cases hhead
        rw [List.map_cons, join_args_cons, List.length_append, List.length_cons, List.length_cons]
        omega
  have hcs : 2 * (cs.flatMap command.words).length
      ≤ (join_args (cs.flatMap command.words)).length := by
    induction cs with
    | nil => exact Nat.le_refl 0
    | cons c cs ih =>
        have hname := (action_names_plain c.name c.name_mem).1
        have hwords : 2 * c.words.length ≤ (join_args c.words).length := by
          unfold command.words
          rw [join_args_cons]
          cases c.argument with
          | none =>
              rw [Option.toList_none, List.length_append]
              simp only [List.length_cons, List.length_nil, join_args_nil]
              omega
          | some a =>
              rw [Option.toList_some, join_args_cons]
              simp only [List.length_append, List.length_cons, List.length_nil, join_args_nil]
              omega
        rw [List.flatMap_cons, join_args_append, List.length_append, List.length_append]
        omega
  rw [join_args_append, List.length_append, List.length_append]
  omega

/-- **The script** takes the options apart from the commands. -/
theorem split_args_eq (os : List setting) (cs : List command) :
    split_args (os.map setting.word ++ cs.flatMap command.words)
      = some (os.map setting.word, cs.flatMap command.words) := by
  induction os with
  | nil =>
      rw [List.map_nil, List.nil_append]
      cases cs with
      | nil => rfl
      | cons c cs =>
          obtain ⟨hlen, -, hhead⟩ := action_names_plain c.name c.name_mem
          rw [List.flatMap_cons, command.words]
          match c.name, hlen, hhead with
          | x :: n, _, hhead =>
              rw [List.cons_append, split_args, if_pos fun hx => hhead (congrArg some hx)]
  | cons o os ih =>
      have hhead := o.word_head []
      rw [List.append_nil] at hhead
      rw [List.map_cons, List.cons_append]
      match o.word, hhead with
      | x :: n, hhead =>
          rw [split_args, if_neg (not_not.mpr (Option.some.inj hhead)), ih]
          rfl

/-- The commands of a run: the script adds one for each file. -/
def asked (cs : List command) (puts gets : List c_string) : List command :=
  puts.map command.fsutil_put ++ cs ++ gets.map command.fsutil_get

theorem all_args_eq : all_args (os.map setting.word) (cs.flatMap command.words) puts gets
    = os.map setting.word ++ (asked cs puts gets).flatMap command.words := by
  unfold all_args asked
  rw [List.flatMap_append, List.flatMap_append, List.flatMap_map, List.flatMap_map,
    List.append_assoc, List.append_assoc, List.append_assoc]
  rfl

theorem asked_plain (hcs : ∀ c ∈ cs, c.Plain) (hputs : ∀ put ∈ puts, 0 ∉ put)
    (hgets : ∀ get ∈ gets, 0 ∉ get) : ∀ c ∈ asked cs puts gets, c.Plain := by
  intro c hc
  unfold asked at hc
  rw [List.mem_append, List.mem_append, List.mem_map, List.mem_map] at hc
  obtain (⟨put, hput, rfl⟩ | hc) | ⟨get, hget, rfl⟩ := hc
  · intro a ha
    cases ha
    exact hputs put hput
  · exact hcs c hc
  · intro a ha
    cases ha
    exact hgets get hget

/-- `parse_options` stops at a word that is no option, and at the end. -/
theorem parse_options_stop (h : ∀ p ∈ argv.head?, mem[p]? ≠ some 45) :
    parse_options argv mem st = .ok (.options st argv mem) := by
  cases argv with
  | nil => rfl
  | cons p argv => rw [parse_options, if_neg (h p rfl)]

/-- **`main`** on a command line in memory. -/
theorem main_eq (hos : ∀ o ∈ os, o.Plain) (hcs : ∀ c ∈ cs, c.Plain)
    (h : Written mem (os.map setting.word ++ cs.flatMap command.words)) :
    main mem = ⟨cs, .ok (some (os.foldl setting.apply settings.initial))⟩ := by
  obtain ⟨front, back, hmem, hfront⟩ := h.placed
  have hplain := words_plain hos hcs
  have hfew : (os.map setting.word ++ cs.flatMap command.words).length ≤ 64 := by
    have htwo := two_length_le os cs
    have hfits := h.fits
    unfold LOADER_ARGS_LEN at hfits
    omega
  have hread := read_command_line_eq h hplain
  rw [if_pos hfew, ← hfront, starts_append, ← closed_options_length, ← List.length_append] at hread
  have hparse := @parse_options_run (join_args (cs.flatMap command.words) ++ back) os
    (starts (front ++ closed_options os).length (cs.flatMap command.words)) hos front
    settings.initial
  rw [← List.append_assoc (front) (closed_options os), ← List.append_assoc (join_args _),
    ← join_args_append, ← hmem] at hparse
  have hstrings := @starts_strings back (cs.flatMap command.words)
    (fun a ha => hplain a (List.mem_append_right _ ha)) (front ++ closed_options os)
  have hstop : ∀ p ∈ (starts (front ++ closed_options os).length (cs.flatMap command.words)).head?,
      ((front ++ closed_options os) ++ (join_args (cs.flatMap command.words) ++ back))[p]?
      ≠ some 45 := by
    cases cs with
    | nil =>
        intro p hp
        cases hp
    | cons c cs =>
        intro p hp
        obtain ⟨hlen, -, hhead⟩ := action_names_plain c.name c.name_mem
        rw [List.flatMap_cons, command.words, List.cons_append] at hp ⊢
        cases hp
        rw [List.getElem?_append_right (Nat.le_refl _), Nat.sub_self, ← List.head?_eq_getElem?,
          join_args_cons,
          List.append_assoc, List.head?_append_of_ne_nil _ (List.ne_nil_of_length_pos (by omega))]
        exact hhead
  rw [main, hread, Traced.lift_ok_bind, hparse, parse_options_stop hstop, Traced.lift_ok_bind]
  dsimp only
  rw [run_actions_eq hstrings, Traced.mk_ok_bind, Traced.pure_log, List.append_nil]
  rfl

/-- **The kernel does what the script was asked for**: it has the settings of the options, puts the
files, carries out the commands and gets the files, in this order. -/
theorem does_what_was_asked (hlen : 0x1fe ≤ data.length) (hos : ∀ o ∈ os, o.Plain)
    (hcs : ∀ c ∈ cs, c.Plain) (hputs : ∀ put ∈ puts, 0 ∉ put) (hgets : ∀ get ∈ gets, 0 ∉ get)
    (hascii : Ascii (all_args (os.map setting.word) (cs.flatMap command.words) puts gets))
    (h : prepare_kernel_argument data (os.map setting.word ++ cs.flatMap command.words) puts
      gets = some f)
    (more : List UInt8) :
    main (f.take 512 ++ more)
      = ⟨puts.map command.fsutil_put ++ cs ++ gets.map command.fsutil_get,
          .ok (some (os.foldl setting.apply settings.initial))⟩ := by
  have hwritten := (prepare_kernel_argument_written hlen (split_args_eq os cs) hascii h).loaded more
  rw [all_args_eq] at hwritten
  exact main_eq hos (asked_plain hcs hputs hgets) hwritten

/-- `pintos -p a -g a -- -q -rs=42 run a`. -/
theorem run_a_was_asked : ∃ f,
    prepare_kernel_argument (List.replicate 512 7)
        ([setting.q, setting.rs (text "42")].map setting.word
          ++ [command.run_task (text "a")].flatMap command.words) [text "a"] [text "a"] = some f
      ∧ main (f.take 512 ++ [])
        = ⟨[command.fsutil_put (text "a")] ++ [command.run_task (text "a")] ++ [command.fsutil_get (text "a")],
            .ok (some ([setting.q, setting.rs (text "42")].foldl setting.apply settings.initial))⟩ := by
  have hos : ∀ o ∈ [setting.q, setting.rs (text "42")], o.Plain := by
    refine List.forall_mem_cons.mpr ⟨fun v hv => (nomatch hv),
      List.forall_mem_singleton.mpr fun v hv => ?_⟩
    cases hv
    decide
  have hcs : ∀ c ∈ [command.run_task (text "a")], c.Plain := by
    refine List.forall_mem_singleton.mpr fun a ha => ?_
    cases ha
    decide
  have hfile : ∀ file ∈ [text "a"], 0 ∉ file := by decide
  have hlen : 0x1fe ≤ (List.replicate 512 (7 : UInt8)).length := by
    rw [List.length_replicate]
    decide
  have hascii : Ascii (all_args ([setting.q, setting.rs (text "42")].map setting.word)
      ([command.run_task (text "a")].flatMap command.words) [text "a"] [text "a"]) := by decide +kernel
  have hwrites := @prepare_kernel_argument_eq (List.replicate 512 7) _ _ _ [text "a"] [text "a"]
    (split_args_eq [setting.q, setting.rs (text "42")] [command.run_task (text "a")]) hascii
  rw [if_neg (by decide)] at hwrites
  exact ⟨_, hwrites, does_what_was_asked hlen hos hcs hfile hfile hascii hwrites []⟩

end CommandLine

end Pintos.boot
