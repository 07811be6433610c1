/-
The arrays that hold a user's string on its way through the kernel.

`filesys_open` copies the path, `process_exec` copies the command line, `sys_exec` has copied it
to a page before; `parse_path` and `parse_args` store a pointer for every component, and a null
pointer. The code is logged with every index it writes to one of these arrays, and with every
index it reads the last component from. An index out of the array is undefined, and nothing comes
after it.

The bytes from the caller's pointer on are the string, its null byte, and what lies behind.
-/
import Pintos.Lib.Traced
import Pintos.Userprog.Arguments
import Pintos.Userprog.Program

set_option autoImplicit false

namespace Pintos

namespace kernel_arrays

open Traced

/-! ## Accesses -/

/-- The arrays. -/
inductive array
  | cp_name
  | path_lst
  | cp_file_name
  | first_word
  | argv
  /-- The page that `sys_exec` copies to. -/
  | fn_copy
  deriving DecidableEq, Repr

/-- How many elements an array has. -/
def array.size : array → ℕ
  | .fn_copy => PGSIZE
  | _ => 128

/-- An element that is written or read. -/
structure access where
  array : array
  index : ℤ
  deriving DecidableEq, Repr

/-- **Within the array.** -/
def access.Ok (a : access) : Prop := 0 ≤ a.index ∧ a.index < a.array.size

instance (a : access) : Decidable a.Ok := inferInstanceAs (Decidable (_ ∧ _))

/-- `a[i]`. -/
def touch (a : array) (i : ℤ) : Traced access Unit where
  log := [⟨a, i⟩]
  result := if access.Ok ⟨a, i⟩ then .ok () else .undefined

/-- The elements from `i` on, one after the other. -/
def fill (a : array) : ℕ → ℕ → Traced access Unit
  | _, 0 => pure ()
  | i, n + 1 => do
      touch a i
      fill a (i + 1) n

/-- The loop of `parse_path` and `parse_args`. -/
def store_tokens (a : array) (delimiters : c_string) :
    ℕ → List UInt8 → ℕ → List ℕ → Traced access (List ℕ × List UInt8)
  | 0, _, _, _ => lift .diverge
  | fuel + 1, mem, s, argv => do
      let (token, save_ptr, mem) ← lift (strtok_r mem s delimiters)
      touch a argv.length
      match token with
      | none => return (argv, mem)
      | some t => store_tokens a delimiters fuel mem save_ptr (argv ++ [t])

/-- `parse_path`: the components, and what is left of the string. -/
def parse_path (mem : List UInt8) : Traced access (List c_string × List UInt8) := do
  let (path_lst, mem) ← store_tokens .path_lst PATH_DELIMITERS (mem.length + 1) mem 0 []
  return (path_lst.map (c_string_at mem), mem)

/-- `path_lst[path_cnt - 1]`, which is read when the walk has come to a directory. -/
def last_component (cur_dir : Option ℕ) (path_lst : List c_string) : Traced access c_string :=
  match cur_dir with
  | none => pure []
  | some _ => do
      touch .path_lst (path_lst.length - 1)
      match path_lst.getLast? with
      | none => lift .undefined
      | some name => pure name

/-- From the directory a call starts in to the directory of the last component, and the last
component. -/
def walk_to_last (start : Outcome (ℕ × filesys)) (path_lst : List c_string) :
    Traced access (Option ℕ × c_string × filesys) := do
  let (cur_dir, s) ← lift start
  let (cur_dir, s) ← lift (dir_walk path_lst.dropLast s cur_dir)
  let last ← last_component cur_dir path_lst
  return (cur_dir, last, s)

/-! ## The path calls -/

/-- `filesys_create`. -/
def filesys_create (s : filesys) (cwd : Option ℕ) (mem : List UInt8) (initial_size : ℤ) :
    Traced access ((Bool × filesys) × List UInt8) := do
  let is_root := is_root_path mem
  let (path_lst, mem) ← parse_path mem
  if path_lst = [] then return ((false, s), mem)
  else
    let (cur_dir, last, s) ← walk_to_last (start_dir_checked s cwd is_root) path_lst
    let r ← lift (create_at s cur_dir last initial_size)
    return (r, mem)

/-- `filesys_remove`. -/
def filesys_remove (s : filesys) (cwd : Option ℕ) (mem : List UInt8) :
    Traced access ((Bool × filesys) × List UInt8) := do
  let is_root := is_root_path mem
  let (path_lst, mem) ← parse_path mem
  if path_lst = [] then return ((false, s), mem)
  else
    let (cur_dir, last, s) ← walk_to_last (start_dir s cwd is_root) path_lst
    let r ← lift (remove_at s cwd cur_dir last)
    return (r, mem)

/-- `sys_mkdir`. -/
def sys_mkdir (s : filesys) (cwd : Option ℕ) (mem : List UInt8) :
    Traced access ((Bool × filesys) × List UInt8) := do
  let is_root := is_root_path mem
  let (path_lst, mem) ← parse_path mem
  if path_lst = [] then return ((false, s), mem)
  else
    let (cur_dir, last, s) ← walk_to_last (start_dir s cwd is_root) path_lst
    let r ← lift (mkdir_at s cur_dir last)
    return (r, mem)

/-- `sys_chdir`. -/
def sys_chdir (s : filesys) (cwd : Option ℕ) (mem : List UInt8) :
    Traced access ((Bool × Option ℕ × filesys) × List UInt8) := do
  let is_root := is_root_path mem
  let (path_lst, mem) ← parse_path mem
  if is_root ∧ path_lst = [] then
    let s ← lift (dir_close s cwd)
    let (root, s) ← lift (dir_open_root s)
    return ((true, some root, s), mem)
  else
    let (cur_dir, s) ← lift (start_dir s cwd is_root)
    let (cur_dir, s) ← lift (dir_walk path_lst s cur_dir)
    let r ← lift (chdir_to s cwd cur_dir)
    return (r, mem)

/-- `sys_create`, which exits for the empty name. -/
def sys_create (s : filesys) (cwd : Option ℕ) (mem : List UInt8) (initial_size : ℤ) :
    Traced access (Option ((Bool × filesys) × List UInt8)) :=
  if c_string_at mem 0 = [] then pure none
  else do
    let r ← filesys_create s cwd mem initial_size
    return some r

/-- `filesys_open`. -/
def filesys_open (s : filesys) (cwd : Option ℕ) (mem : List UInt8) :
    Traced access (opened × filesys) := do
  let is_root := is_root_path mem
  let name := c_string_at mem 0
  fill .cp_name 0 (name.length + 1)
  let (path_lst, _) ← parse_path (name ++ [0])
  if is_root ∧ path_lst = [] then
    let (dir, s) ← lift (dir_open_root s)
    return (.root_dir dir, s)
  else
    let (cur_dir, last, s) ← walk_to_last (start_dir_checked s cwd is_root) path_lst
    let (f, s) ← lift (open_at s cur_dir last)
    return (.of_file f, s)

/-- `sys_open`, which fails for the empty name. -/
def sys_open (s : filesys) (cwd : Option ℕ) (mem : List UInt8) :
    Traced access (Option (opened × filesys)) :=
  if c_string_at mem 0 = [] then pure none
  else do
    let r ← filesys_open s cwd mem
    return some r

/-! ## `sys_exec` -/

/-- The loop of `process_exec` that copies the first word, from index `i` on, and the null byte
behind it. -/
def copy_first_word : List UInt8 → ℕ → Traced access c_string
  | [], _ => lift .undefined
  | c :: cs, i =>
      if c ≠ 0 ∧ c ≠ SPACE ∧ i < MAX_BUF - 1 then do
        touch .first_word i
        let word ← copy_first_word cs (i + 1)
        return c :: word
      else do
        touch .first_word i
        return []

/-- `process_exec`. `load` calls `parse_args` first of all. -/
def process_exec (load_image : image_loader) (s : vm) (t : ℕ) (cwd running_file : Option ℕ)
    (mem : List UInt8) : Traced access (exec_result × vm) := do
  let file_name := c_string_at mem 0
  fill .cp_file_name 0 (file_name.length + 1)
  let word ← copy_first_word (file_name ++ [0]) 0
  let fs ← lift (programs.drop_running_file s.files running_file)
  let (new_file, fs) ← filesys_open fs cwd (word ++ [0])
  let new_inode := new_file.inode fs
  let s ← lift (process_cleanup (s.set_files fs) t)
  let _ ← store_tokens .argv arguments.ARGS_DELIMITERS (file_name.length + 2)
    (file_name ++ [0]) 0 []
  let (r, s) ← lift (load load_image (s.set_spt t ∅) t cwd file_name)
  lift (exec_loaded s new_file new_inode r)

/-- `sys_exec`. Without a page it exits. -/
def sys_exec (load_image : image_loader) (s : vm) (t : ℕ) (cwd running_file : Option ℕ)
    (page : Bool) (mem : List UInt8) : Traced access (Option (exec_result × vm)) :=
  if page then do
    let file_name := c_string_at mem 0
    fill .fn_copy 0 (file_name.length + 1)
    let r ← process_exec load_image s t cwd running_file (file_name ++ [0])
    return some r
  else pure none

/-! ## Every call -/

/-- A process, and how its programs are loaded. -/
structure caller where
  s : vm
  t : ℕ
  cwd : Option ℕ
  running_file : Option ℕ
  load_image : image_loader

/-- The calls that take a string. -/
inductive string_call
  | open
  | create (initial_size : ℤ)
  | remove
  | mkdir
  | chdir
  /-- `palloc_get_page` has a page, or has none. -/
  | exec (page : Bool)
  deriving DecidableEq, Repr

/-- The elements that a call writes and reads. -/
def string_call.log (x : caller) (mem : List UInt8) : string_call → List access
  | .open => (sys_open x.s.files x.cwd mem).log
  | .create initial_size => (sys_create x.s.files x.cwd mem initial_size).log
  | .remove => (filesys_remove x.s.files x.cwd mem).log
  | .mkdir => (sys_mkdir x.s.files x.cwd mem).log
  | .chdir => (sys_chdir x.s.files x.cwd mem).log
  | .exec page => (sys_exec x.load_image x.s x.t x.cwd x.running_file page mem).log

/-- `filesys_open` of the empty name comes to a directory. -/
def OpensDirectory (x : caller) : Prop :=
  ∃ fs r, programs.drop_running_file x.s.files x.running_file = .ok fs
    ∧ start_dir_checked fs x.cwd false = .ok r

/-- **When a call stays within its arrays**: a path that is copied has less than 128 bytes, one that
is not has less than 128 components; a command line has less than 128 bytes, and there is a word at
its front, or else the look-up of that word is not reached. -/
def string_call.Fits (x : caller) (path : c_string) : string_call → Prop
  | .open => path.length < 128
  | .create _ | .remove | .mkdir | .chdir => (path_components path).length < 128
  | .exec page => page = true → path.length < 128
      ∧ (Pintos.first_word path = [] → ¬ OpensDirectory x)

/-! ## Filling an array -/

section Fill

variable {a : array}

@[simp] theorem safe_touch {i : ℤ} : Safe access.Ok (touch a i) ↔ 0 ≤ i ∧ i < a.size := by
  simp [Safe, touch, access.Ok]

theorem touch_result {i : ℤ} (h : 0 ≤ i ∧ i < a.size) : (touch a i).result = .ok () := if_pos h

theorem touch_undefined {i : ℤ} (h : ¬ (0 ≤ i ∧ i < a.size)) : (touch a i).result = .undefined :=
  if_neg h

theorem fill_ok {n : ℕ} : ∀ {i : ℕ}, i + n ≤ a.size →
    Safe access.Ok (fill a i n) ∧ (fill a i n).result = .ok () := by
  induction n with
  | zero =>
      intro i _
      exact ⟨safe_pure _, rfl⟩
  | succ n ih =>
      intro i h
      have hi : 0 ≤ (i : ℤ) ∧ (i : ℤ) < a.size := by omega
      obtain ⟨hsafe, hret⟩ := ih (show i + 1 + n ≤ a.size by omega)
      rw [fill, safe_bind, bind_result, touch_result hi]
      exact ⟨⟨safe_touch.mpr hi, fun _ _ => hsafe⟩, hret⟩

/-- More than the array holds does not go well. -/
theorem not_safe_fill {n : ℕ} : ∀ {i : ℕ}, i ≤ a.size → a.size < i + n →
    ¬ Safe access.Ok (fill a i n) := by
  induction n with
  | zero =>
      intro i hi h
      omega
  | succ n ih =>
      intro i hi h hsafe
      rw [fill, safe_bind, safe_touch] at hsafe
      have hlt : i < a.size := by omega
      have hrest := hsafe.2 () (touch_result hsafe.1)
      exact ih (show i + 1 ≤ a.size by omega) (by omega) hrest

theorem safe_fill {n : ℕ} : Safe access.Ok (fill a 0 n) ↔ n ≤ a.size := by
  constructor
  · intro hsafe
    by_contra h
    exact not_safe_fill (Nat.zero_le _) (by omega) hsafe
  · intro h
    exact (fill_ok (show 0 + n ≤ a.size by omega)).1

/-- A string is copied if its null byte has room too. -/
theorem safe_fill_bind {β : Type} {n : ℕ} {f : Unit → Traced access β} :
    Safe access.Ok (fill a 0 n >>= f) ↔ n ≤ a.size ∧ Safe access.Ok (f ()) := by
  rw [safe_bind, safe_fill]
  refine and_congr_right fun h => ?_
  rw [(fill_ok (show 0 + n ≤ a.size by omega)).2]
  exact ⟨fun hf => hf () rfl, fun hf _ _ => hf⟩

end Fill

/-! ## Storing tokens -/

section Tokens

variable {a : array} {delimiters path rest l : c_string}

/-- Without the log, in an array of 128. -/
theorem store_tokens_result (ha : a.size = 128) (fuel : ℕ) : ∀ (mem : List UInt8) (s : ℕ)
    (argv : List ℕ), (store_tokens a delimiters fuel mem s argv).result
      = strtok_loop delimiters fuel mem s argv := by
  induction fuel with
  | zero => exact fun _ _ _ => rfl
  | succ fuel ih =>
      intro mem s argv
      rw [store_tokens, strtok_loop, bind_result, lift_result]
      apply Outcome.bind_congr
      rintro ⟨token, save_ptr, mem'⟩ -
      dsimp only
      rw [bind_result]
      by_cases hfit : argv.length < 128
      · rw [touch_result (by omega), if_pos hfit, Outcome.ok_bind]
        cases token with
        | none => rfl
        | some t => exact ih mem' save_ptr (argv ++ [t])
      · rw [touch_undefined (by omega), if_neg hfit]
        rfl

/-- One turn: the token is stored, and then the rest. -/
theorem safe_store_tokens_turn {fuel s save_ptr : ℕ} {mem mem' : List UInt8} {token : Option ℕ}
    {argv : List ℕ} (htok : strtok_r mem s delimiters = .ok (token, save_ptr, mem')) :
    Safe access.Ok (store_tokens a delimiters (fuel + 1) mem s argv) ↔ argv.length < a.size
      ∧ ∀ t, token = some t →
        Safe access.Ok (store_tokens a delimiters fuel mem' save_ptr (argv ++ [t])) := by
  rw [store_tokens, safe_bind, lift_result, htok]
  simp only [safe_lift, true_and, Outcome.ok.injEq, forall_eq', safe_bind, safe_touch]
  constructor
  · rintro ⟨hfit, hrest⟩
    refine ⟨by omega, fun t ht => ?_⟩
    have := hrest () (touch_result hfit)
    rwa [ht] at this
  · rintro ⟨hfit, hrest⟩
    refine ⟨by omega, fun _ _ => ?_⟩
    cases token with
    | none => exact safe_pure _
    | some t => exact hrest t rfl

/-- **The loop stays in the array** exactly if there is room for the tokens and a null pointer. -/
theorem safe_store_tokens (rest l : c_string) :
    ∀ (pre : c_string) (fuel : ℕ) (argv : List ℕ), 0 ∉ l → l.length < fuel →
      (Safe access.Ok (store_tokens a delimiters fuel (pre ++ (l ++ 0 :: rest)) pre.length argv) ↔
        argv.length + (tokens (is_delimiter delimiters) l).length < a.size) := by
  have hnone : ∀ (sl pre : c_string) (fuel : ℕ) (argv : List ℕ),
      Seps (is_delimiter delimiters) sl → 0 ∉ sl →
      (Safe access.Ok (store_tokens a delimiters (fuel + 1)
        (pre ++ (sl ++ 0 :: rest)) pre.length argv) ↔ argv.length < a.size) := by
    intro sl pre fuel argv hsl hz
    rw [safe_store_tokens_turn (strtok_r_seps hsl hz pre rest)]
    simp
  induction l using token_induction (is_delimiter delimiters) with
  | seps sl hsl =>
      intro pre fuel argv hz hf
      obtain ⟨fuel, rfl⟩ : ∃ k, fuel = k + 1 := ⟨fuel - 1, by omega⟩
      rw [hnone sl pre fuel argv hsl hz, tokens_seps hsl]
      rfl
  | last sl t hsl ht =>
      intro pre fuel argv hz hf
      have hzs : 0 ∉ sl := fun h => hz (List.mem_append_left t h)
      have hzt : 0 ∉ t := fun h => hz (List.mem_append_right sl h)
      have htpos := List.length_pos_of_ne_nil ht.ne_nil
      obtain ⟨fuel, rfl⟩ : ∃ k, fuel = k + 2 :=
        ⟨fuel - 2, by rw [List.length_append] at hf; omega⟩
      -- the next turn starts at the null byte
      have hend := hnone [] (pre ++ (sl ++ t)) fuel (argv ++ [pre.length + sl.length])
        (fun _ h => absurd h List.not_mem_nil) List.not_mem_nil
      have hpre : (pre ++ (sl ++ t)).length = pre.length + sl.length + t.length := by
        rw [List.length_append, List.length_append, Nat.add_assoc]
      rw [hpre, List.nil_append, List.append_assoc, List.append_assoc] at hend
      rw [List.append_assoc, safe_store_tokens_turn (strtok_r_last hsl hzs ht hzt pre rest),
        tokens_seps_append hsl, tokens_token ht]
      simp only [Option.some.injEq, forall_eq', hend, List.length_append, List.length_singleton]
      omega
  | more sl t d l hsl ht hd ih =>
      intro pre fuel argv hz hf
      obtain ⟨hzs, hzt, hzd, hzl⟩ := notMem_parts hz
      obtain ⟨fuel, rfl⟩ : ∃ k, fuel = k + 1 := ⟨fuel - 1, by omega⟩
      have hlen : l.length < fuel := by
        simp only [List.length_append, List.length_cons] at hf
        omega
      have hrest := ih (pre ++ (sl ++ (t ++ [0]))) fuel (argv ++ [pre.length + sl.length]) hzl hlen
      rw [closed_length, closed_append] at hrest
      rw [List.append_assoc, List.append_assoc, List.cons_append,
        safe_store_tokens_turn (strtok_r_more hsl hzs ht hzt hd hzd pre _),
        tokens_seps_append hsl, tokens_token_sep ht hd]
      simp only [Option.some.injEq, forall_eq', hrest, List.length_append, List.length_cons,
        List.length_nil]
      omega

/-- **`parse_path`** stays in `path_lst` exactly if it has less than 128 components. -/
theorem safe_parse_path (hz : 0 ∉ path) :
    Safe access.Ok (parse_path (path ++ 0 :: rest)) ↔ (path_components path).length < 128 := by
  have h : Safe access.Ok (store_tokens .path_lst PATH_DELIMITERS ((path ++ 0 :: rest).length + 1)
      (path ++ 0 :: rest) 0 []) ↔ 0 + (tokens (is_delimiter PATH_DELIMITERS) path).length < 128 :=
    safe_store_tokens rest path [] _ [] hz (by rw [List.length_append]; omega)
  rw [Nat.zero_add, ← path_components_eq] at h
  rw [parse_path, safe_bind, h]
  simp only [safe_pure, implies_true, and_true]

/-- Then it finds them. -/
theorem parse_path_result (hz : 0 ∉ path) (hfit : (path_components path).length < 128) :
    (parse_path (path ++ 0 :: rest)).result
      = .ok (path_components path, closed_path path ++ 0 :: rest) := by
  have hnames : (parse_path (path ++ 0 :: rest)).result
      = path_buffer.parse_names (path ++ 0 :: rest) := by
    rw [parse_path, bind_result, store_tokens_result rfl, path_buffer.parse_names,
      path_buffer.parse_path, path_buffer.parse_path_loop_strtok]
    rfl
  rw [hnames, path_buffer.parse_names_eq hz, Pintos.parse_path, if_pos hfit]
  rfl

/-- What comes behind `parse_path`. -/
theorem safe_parse_path_bind {β : Type} (hz : 0 ∉ path)
    {f : List c_string × List UInt8 → Traced access β} :
    Safe access.Ok (parse_path (path ++ 0 :: rest) >>= f) ↔ (path_components path).length < 128
      ∧ Safe access.Ok (f (path_components path, closed_path path ++ 0 :: rest)) := by
  rw [safe_bind, safe_parse_path hz]
  refine and_congr_right fun hfit => ?_
  rw [parse_path_result hz hfit]
  simp

/-- A path of less than 128 bytes has no more than 64 components. -/
theorem few_components (h : path.length < 128) : (path_components path).length < 128 := by
  have := two_mul_length_tokens_le (is_delimiter PATH_DELIMITERS) path
  rw [path_components_eq]
  omega

/-- A path without components is empty, or starts at the root. -/
theorem components_eq_nil (h : path_components path = []) :
    path = [] ∨ is_root_path path = true := by
  rw [path_components_eq] at h
  cases path with
  | nil => exact .inl rfl
  | cons c path =>
      right
      have hc := seps_of_tokens_eq_nil h c List.mem_cons_self
      rw [is_path_delimiter, decide_eq_true_eq] at hc
      simp [is_root_path, hc]

/-- The last of some components is there. -/
theorem safe_last_component {cur_dir : Option ℕ} {path_lst : List c_string} (hne : path_lst ≠ [])
    (hfit : path_lst.length < 128) : Safe access.Ok (last_component cur_dir path_lst) := by
  cases cur_dir with
  | none => exact safe_pure _
  | some dir =>
      have hpos := List.length_pos_of_ne_nil hne
      rw [last_component, safe_bind, safe_touch]
      simp only [array.size]
      refine ⟨by omega, fun _ _ => ?_⟩
      cases path_lst.getLast? with
      | none => exact safe_lift _
      | some name => exact safe_pure _

end Tokens

/-- A walk to the last of some components. -/
theorem safe_walk_to_last {start : Outcome (ℕ × filesys)} {path_lst : List c_string}
    (hne : path_lst ≠ []) (hfit : path_lst.length < 128) :
    Safe access.Ok (walk_to_last start path_lst) := by
  unfold walk_to_last
  simp only [safe_bind, safe_lift, safe_pure, true_and, implies_true, and_true]
  intro _ _ _ _
  exact safe_last_component hne hfit

/-- Without components it reads in front of the array, if it can start at all. -/
theorem safe_walk_to_none {start : Outcome (ℕ × filesys)} :
    Safe access.Ok (walk_to_last start []) ↔ ∀ r, start ≠ .ok r := by
  have hstop : ∀ dir, ¬ Safe access.Ok (last_component (some dir) []) := by
    intro dir h
    rw [last_component, safe_bind, safe_touch] at h
    exact absurd h.1.1 (by decide)
  unfold walk_to_last
  rw [safe_bind, lift_result]
  constructor
  · rintro ⟨-, h⟩ ⟨dir, s⟩ hstart
    have hwalk := (safe_bind.mp (h _ hstart)).2 (some dir, s) rfl
    exact hstop dir (safe_bind.mp hwalk).1
  · intro h
    exact ⟨safe_lift _, fun r hstart => absurd hstart (h r)⟩

/-! ## The calls -/

section Calls

variable {s : filesys} {cwd : Option ℕ} {path rest : c_string}

theorem string_at_front (hz : 0 ∉ path) (rest : c_string) :
    c_string_at (path ++ 0 :: rest) 0 = path := by
  rw [c_string_at, List.drop_zero, takeWhile_null hz]

/-- **`filesys_open`** copies the path, and reads the last component of the empty path. -/
theorem safe_filesys_open (hz : 0 ∉ path) :
    Safe access.Ok (filesys_open s cwd (path ++ 0 :: rest)) ↔ path.length < 128
      ∧ (path = [] → ∀ r, start_dir_checked s cwd false ≠ .ok r) := by
  unfold filesys_open
  have hcopy : path.length + 1 ≤ array.cp_name.size ↔ path.length < 128 := Nat.succ_le_iff
  rw [string_at_front hz, is_root_path_append, safe_fill_bind, hcopy]
  refine and_congr_right fun hlen => ?_
  rw [safe_parse_path_bind hz]
  simp only [few_components hlen, true_and]
  by_cases hnil : path_components path = []
  · rcases components_eq_nil hnil with rfl | hroot
    · rw [if_neg (by simp [is_root_path]), hnil, safe_bind, safe_walk_to_none]
      simp [safe_bind, is_root_path]
    · rw [if_pos ⟨hroot, hnil⟩]
      refine iff_of_true (by simp [safe_bind]) ?_
      rintro rfl
      cases hroot
  · rw [if_neg fun h => hnil h.2]
    refine iff_of_true ?_ ?_
    · simp [safe_bind, safe_walk_to_last hnil (few_components hlen)]
    · rintro rfl
      exact absurd rfl hnil

theorem safe_sys_open (hz : 0 ∉ path) :
    Safe access.Ok (sys_open s cwd (path ++ 0 :: rest)) ↔ path.length < 128 := by
  unfold sys_open
  rw [string_at_front hz]
  by_cases hnil : path = []
  · rw [if_pos hnil, hnil]
    exact iff_of_true (safe_pure _) (by decide)
  · rw [if_neg hnil, safe_bind, safe_filesys_open hz]
    simp [hnil]

theorem safe_filesys_create {initial_size : ℤ} (hz : 0 ∉ path) :
    Safe access.Ok (filesys_create s cwd (path ++ 0 :: rest) initial_size)
      ↔ (path_components path).length < 128 := by
  unfold filesys_create
  rw [safe_parse_path_bind hz]
  refine and_iff_left_of_imp fun hfit => ?_
  rw [safe_ite]
  refine ⟨fun _ => safe_pure _, fun hne => ?_⟩
  simp [safe_bind, safe_walk_to_last hne hfit]

theorem safe_sys_create {initial_size : ℤ} (hz : 0 ∉ path) :
    Safe access.Ok (sys_create s cwd (path ++ 0 :: rest) initial_size)
      ↔ (path_components path).length < 128 := by
  unfold sys_create
  rw [string_at_front hz]
  by_cases hnil : path = []
  · rw [if_pos hnil, hnil]
    exact iff_of_true (safe_pure _) (by decide)
  · rw [if_neg hnil, safe_bind, safe_filesys_create hz]
    simp

theorem safe_filesys_remove (hz : 0 ∉ path) :
    Safe access.Ok (filesys_remove s cwd (path ++ 0 :: rest))
      ↔ (path_components path).length < 128 := by
  unfold filesys_remove
  rw [safe_parse_path_bind hz]
  refine and_iff_left_of_imp fun hfit => ?_
  rw [safe_ite]
  refine ⟨fun _ => safe_pure _, fun hne => ?_⟩
  simp [safe_bind, safe_walk_to_last hne hfit]

theorem safe_sys_mkdir (hz : 0 ∉ path) :
    Safe access.Ok (sys_mkdir s cwd (path ++ 0 :: rest))
      ↔ (path_components path).length < 128 := by
  unfold sys_mkdir
  rw [safe_parse_path_bind hz]
  refine and_iff_left_of_imp fun hfit => ?_
  rw [safe_ite]
  refine ⟨fun _ => safe_pure _, fun hne => ?_⟩
  simp [safe_bind, safe_walk_to_last hne hfit]

/-- `sys_chdir` reads no last component. -/
theorem safe_sys_chdir (hz : 0 ∉ path) :
    Safe access.Ok (sys_chdir s cwd (path ++ 0 :: rest))
      ↔ (path_components path).length < 128 := by
  unfold sys_chdir
  rw [safe_parse_path_bind hz]
  refine and_iff_left_of_imp fun hfit => ?_
  simp only [safe_ite, safe_bind, safe_lift, safe_pure, implies_true, and_self]

/-! ### Without the log -/

/-- A walk to the last component, and what is done there. A walk that has failed has no name to go
on with. -/
theorem walk_to_last_bind {α : Type} {start : Outcome (ℕ × filesys)} {path_lst : List c_string}
    {last : c_string} {k : Option ℕ → c_string → filesys → Outcome α}
    (hlast : path_lst.getLast? = some last) (hfit : path_lst.length < 128)
    (hk : ∀ name s, k none name s = k none last s) :
    ((walk_to_last start path_lst).result >>= fun r => k r.1 r.2.1 r.2.2)
      = start >>= fun r => dir_walk path_lst.dropLast r.2 r.1 >>= fun r => k r.1 last r.2 := by
  have hpos : 0 < path_lst.length := by
    cases path_lst with
    | nil => cases hlast
    | cons name names => simp
  simp only [walk_to_last, bind_result, lift_result, Outcome.bind_assoc]
  apply Outcome.bind_congr
  rintro ⟨dir, s⟩ -
  apply Outcome.bind_congr
  rintro ⟨cur_dir, s'⟩ -
  cases cur_dir with
  | none => exact hk [] s'
  | some dir =>
      have hin : 0 ≤ (path_lst.length : ℤ) - 1
          ∧ (path_lst.length : ℤ) - 1 < array.path_lst.size := by
        simp only [array.size]
        omega
      simp only [last_component, bind_result, touch_result hin, Outcome.ok_bind, hlast]
      rfl

theorem components_last (h : path_components path ≠ []) :
    ∃ last, (path_components path).getLast? = some last :=
  ⟨_, List.getLast?_eq_some_getLast h⟩

/-- `filesys_create` is the one on the buffer. -/
theorem filesys_create_result {initial_size : ℤ} (hz : 0 ∉ path)
    (hfit : (path_components path).length < 128) :
    (filesys_create s cwd (path ++ 0 :: rest) initial_size).result
      = path_buffer.filesys_create s cwd (path ++ 0 :: rest) initial_size := by
  rw [path_buffer.filesys_create_eq hz, Pintos.filesys_create, Pintos.parse_path, if_pos hfit,
    filesys_create, bind_result, parse_path_result hz hfit, Outcome.ok_bind, Outcome.ok_bind]
  by_cases hnil : path_components path = []
  · simp [hnil]
  · obtain ⟨last, hlast⟩ := components_last hnil
    simp only [if_neg hnil, bind_result, lift_result, hlast, is_root_path_append,
      Outcome.bind_assoc]
    exact walk_to_last_bind (k := fun cur_dir name s =>
      create_at s cur_dir name initial_size >>= fun r =>
      .ok (r, closed_path path ++ 0 :: rest)) hlast hfit fun _ _ => rfl

theorem filesys_remove_result (hz : 0 ∉ path)
    (hfit : (path_components path).length < 128) :
    (filesys_remove s cwd (path ++ 0 :: rest)).result
      = path_buffer.filesys_remove s cwd (path ++ 0 :: rest) := by
  rw [path_buffer.filesys_remove_eq hz, Pintos.filesys_remove, Pintos.parse_path, if_pos hfit,
    filesys_remove, bind_result, parse_path_result hz hfit, Outcome.ok_bind, Outcome.ok_bind]
  by_cases hnil : path_components path = []
  · simp [hnil]
  · obtain ⟨last, hlast⟩ := components_last hnil
    simp only [if_neg hnil, bind_result, lift_result, hlast, is_root_path_append,
      Outcome.bind_assoc]
    exact walk_to_last_bind (k := fun cur_dir name s => remove_at s cwd cur_dir name >>= fun r =>
      .ok (r, closed_path path ++ 0 :: rest)) hlast hfit fun _ _ => rfl

theorem sys_mkdir_result (hz : 0 ∉ path)
    (hfit : (path_components path).length < 128) :
    (sys_mkdir s cwd (path ++ 0 :: rest)).result
      = path_buffer.sys_mkdir s cwd (path ++ 0 :: rest) := by
  rw [path_buffer.sys_mkdir_eq hz, Pintos.sys_mkdir, Pintos.parse_path, if_pos hfit,
    sys_mkdir, bind_result, parse_path_result hz hfit, Outcome.ok_bind, Outcome.ok_bind]
  by_cases hnil : path_components path = []
  · simp [hnil]
  · obtain ⟨last, hlast⟩ := components_last hnil
    simp only [if_neg hnil, bind_result, lift_result, hlast, is_root_path_append,
      Outcome.bind_assoc]
    exact walk_to_last_bind (k := fun cur_dir name s => mkdir_at s cur_dir name >>= fun r =>
      .ok (r, closed_path path ++ 0 :: rest)) hlast hfit fun _ _ => rfl

theorem sys_chdir_result (hz : 0 ∉ path) (hfit : (path_components path).length < 128) :
    (sys_chdir s cwd (path ++ 0 :: rest)).result
      = path_buffer.sys_chdir s cwd (path ++ 0 :: rest) := by
  rw [path_buffer.sys_chdir_eq hz, Pintos.sys_chdir, Pintos.parse_path, if_pos hfit,
    sys_chdir, bind_result, parse_path_result hz hfit, Outcome.ok_bind, Outcome.ok_bind]
  simp only [is_root_path_append]
  split_ifs
  · simp only [bind_result, lift_result, Outcome.bind_assoc]
    rfl
  · simp only [bind_result, lift_result, Outcome.bind_assoc]
    rfl

/-- `filesys_open` is the one on strings, for a path that is not empty. -/
theorem filesys_open_result (hz : 0 ∉ path) (hne : path ≠ []) (hlen : path.length < 128) :
    (filesys_open s cwd (path ++ 0 :: rest)).result = Pintos.filesys_open s cwd path := by
  have hfit := few_components hlen
  have hcopy : 0 + (path.length + 1) ≤ array.cp_name.size := by
    simp only [array.size]
    omega
  rw [Pintos.filesys_open, if_neg (by omega), Pintos.parse_path, if_pos hfit, filesys_open,
    string_at_front hz, is_root_path_append, bind_result, (fill_ok hcopy).2, Outcome.ok_bind,
    bind_result, parse_path_result hz hfit, Outcome.ok_bind, Outcome.ok_bind]
  by_cases hnil : path_components path = []
  · have hroot := (components_eq_nil hnil).resolve_left hne
    simp [hnil, hroot]
  · obtain ⟨last, hlast⟩ := components_last hnil
    simp only [hnil, and_false, if_false, bind_result, lift_result, hlast]
    exact walk_to_last_bind (k := fun cur_dir name s => open_at s cur_dir name >>= fun r =>
      .ok (opened.of_file r.1, r.2)) hlast hfit fun _ _ => rfl

end Calls

/-! ## `sys_exec` -/

section Exec

variable {load_image : image_loader} {s : vm} {t : ℕ} {cwd running_file : Option ℕ}
  {line rest : c_string}

/-- The first word of a short line fits, with its null byte. -/
theorem copy_first_word_ok (rest : c_string) (hz : 0 ∉ line) : ∀ {i : ℕ}, i + line.length < 128 →
    Safe access.Ok (copy_first_word (line ++ 0 :: rest) i)
      ∧ (copy_first_word (line ++ 0 :: rest) i).result = .ok (Pintos.first_word line) := by
  induction line with
  | nil =>
      intro i h
      have hi : 0 ≤ (i : ℤ) ∧ (i : ℤ) < array.first_word.size := by
        simp only [array.size, List.length_nil] at h ⊢
        omega
      rw [List.nil_append, copy_first_word, if_neg (by simp), safe_bind, bind_result,
        touch_result hi]
      exact ⟨⟨safe_touch.mpr hi, fun _ _ => safe_pure _⟩, rfl⟩
  | cons c line ih =>
      intro i h
      rw [List.length_cons] at h
      have hi : 0 ≤ (i : ℤ) ∧ (i : ℤ) < array.first_word.size := by
        simp only [array.size]
        omega
      have hc : c ≠ 0 := fun h => hz (h ▸ List.mem_cons_self)
      rw [List.cons_append, copy_first_word]
      by_cases hspace : c = SPACE
      · rw [if_neg (by simp [hspace]), safe_bind, bind_result, touch_result hi]
        refine ⟨⟨safe_touch.mpr hi, fun _ _ => safe_pure _⟩, ?_⟩
        simp [Pintos.first_word, hspace]
      · obtain ⟨hsafe, hret⟩ := ih (fun h => hz (List.mem_cons_of_mem c h))
          (show i + 1 + line.length < 128 by omega)
        have hroom : c ≠ 0 ∧ c ≠ SPACE ∧ i < MAX_BUF - 1 := ⟨hc, hspace, by unfold MAX_BUF; omega⟩
        rw [if_pos hroom, safe_bind, bind_result, touch_result hi, Outcome.ok_bind,
          bind_result, hret]
        refine ⟨⟨safe_touch.mpr hi, fun _ _ => ?_⟩, ?_⟩
        · rw [safe_bind]
          exact ⟨hsafe, fun _ _ => safe_pure _⟩
        · simp [Pintos.first_word, hspace]

theorem first_word_length_le (line : c_string) : (Pintos.first_word line).length ≤ line.length :=
  (List.takeWhile_prefix _).length_le

theorem first_word_null_free (hz : 0 ∉ line) : 0 ∉ Pintos.first_word line :=
  fun h => hz ((List.takeWhile_prefix _).subset h)

/-- A short line has no more than 64 words. -/
theorem safe_parse_args (hz : 0 ∉ line) (hlen : line.length < 128) :
    Safe access.Ok (store_tokens .argv arguments.ARGS_DELIMITERS (line.length + 2)
      (line ++ [0]) 0 []) := by
  have h : Safe access.Ok (store_tokens .argv arguments.ARGS_DELIMITERS (line.length + 2)
      (line ++ [0]) 0 []) ↔ 0 + (tokens (is_delimiter arguments.ARGS_DELIMITERS)
      line).length < 128 :=
    safe_store_tokens [] line [] _ [] hz (by omega)
  have hfew := two_mul_length_tokens_le (is_delimiter arguments.ARGS_DELIMITERS) line
  rw [h]
  omega

/-- **`process_exec`** copies the line, and opens the first word whatever it is. -/
theorem safe_process_exec (hz : 0 ∉ line) :
    Safe access.Ok (process_exec load_image s t cwd running_file (line ++ 0 :: rest)) ↔
      line.length < 128 ∧ (Pintos.first_word line = [] →
        ∀ fs r, programs.drop_running_file s.files running_file = .ok fs →
          start_dir_checked fs cwd false ≠ .ok r) := by
  unfold process_exec
  have hcopy : line.length + 1 ≤ array.cp_file_name.size ↔ line.length < 128 := Nat.succ_le_iff
  rw [string_at_front hz, safe_fill_bind, hcopy]
  refine and_congr_right fun hlen => ?_
  obtain ⟨hword, hret⟩ := copy_first_word_ok [] hz (show 0 + line.length < 128 by omega)
  have hshort : (Pintos.first_word line).length < 128 :=
    Nat.lt_of_le_of_lt (first_word_length_le line) hlen
  rw [safe_bind, hret]
  simp only [hword, true_and, Outcome.ok.injEq, forall_eq', safe_bind, safe_lift, lift_result,
    safe_filesys_open (first_word_null_free hz), hshort, implies_true, and_true,
    safe_parse_args hz hlen]
  exact ⟨fun h hnil fs r hfs => h fs hfs hnil r, fun h fs hfs hnil r => h hnil fs r hfs⟩

/-- A command with a word in front is executed as in `Userprog/Program.lean`. -/
theorem process_exec_result (hz : 0 ∉ line) (hlen : line.length < 128)
    (hne : Pintos.first_word line ≠ []) :
    (process_exec load_image s t cwd running_file (line ++ 0 :: rest)).result
      = Pintos.process_exec load_image s t cwd running_file line := by
  have hcopy : 0 + (line.length + 1) ≤ array.cp_file_name.size := by
    simp only [array.size]
    omega
  have hword := (copy_first_word_ok [] hz (show 0 + line.length < 128 by omega)).2
  have hshort : (Pintos.first_word line).length < 128 :=
    Nat.lt_of_le_of_lt (first_word_length_le line) hlen
  have hfew := two_mul_length_tokens_le (is_delimiter arguments.ARGS_DELIMITERS) line
  have hwords : (arguments.words line).length < 128 := by
    unfold arguments.words
    omega
  obtain ⟨argv, buffer, hargs, -⟩ := arguments.parse_args_eq [] hz hwords
  have hstore : (store_tokens .argv arguments.ARGS_DELIMITERS (line.length + 2)
      (line ++ [0]) 0 []).result = .ok (argv, buffer) := by
    rw [arguments.parse_args, List.length_append, List.length_singleton] at hargs
    rw [store_tokens_result rfl, hargs]
  rw [process_exec, Pintos.process_exec, if_neg (by unfold MAX_BUF; omega), string_at_front hz]
  simp only [bind_result, (fill_ok hcopy).2, hword, lift_result, Outcome.ok_bind,
    filesys_open_result (first_word_null_free hz) hne hshort, hstore]

theorem safe_sys_exec {page : Bool} (hz : 0 ∉ line) :
    Safe access.Ok (sys_exec load_image s t cwd running_file page (line ++ 0 :: rest)) ↔
      (page = true → line.length < 128 ∧ (Pintos.first_word line = [] →
        ∀ fs r, programs.drop_running_file s.files running_file = .ok fs →
          start_dir_checked fs cwd false ≠ .ok r)) := by
  cases page with
  | false => exact iff_of_true (safe_pure _) (fun h => by cases h)
  | true =>
      have hpage : line.length + 1 ≤ array.fn_copy.size ↔ line.length < PGSIZE := Nat.succ_le_iff
      simp only [sys_exec, if_true, true_implies]
      rw [string_at_front hz, safe_fill_bind, hpage, safe_bind, safe_process_exec hz]
      simp only [safe_pure, implies_true, and_true]
      refine and_iff_right_of_imp fun h => ?_
      exact Nat.lt_of_lt_of_le h.1 (by decide)

end Exec

/-! ## Every call -/

section Every

variable {x : caller} {path rest : c_string}

theorem open_in_arrays (hz : 0 ∉ path) :
    (∀ a ∈ string_call.open.log x (path ++ 0 :: rest), a.Ok) ↔ string_call.open.Fits x path :=
  safe_sys_open hz

theorem mkdir_in_arrays (hz : 0 ∉ path) :
    (∀ a ∈ string_call.mkdir.log x (path ++ 0 :: rest), a.Ok) ↔ string_call.mkdir.Fits x path :=
  safe_sys_mkdir hz

theorem exec_in_arrays {page : Bool} (hz : 0 ∉ path) :
    (∀ a ∈ (string_call.exec page).log x (path ++ 0 :: rest), a.Ok)
      ↔ (string_call.exec page).Fits x path := by
  refine Iff.trans (safe_sys_exec hz) ?_
  simp only [string_call.Fits, OpensDirectory, not_exists, not_and]

/-- **The kernel stays within its arrays** exactly if the call fits. -/
theorem string_call_in_arrays_iff (x : caller) (c : string_call) (path rest : c_string)
    (hz : 0 ∉ path) : (∀ a ∈ c.log x (path ++ 0 :: rest), a.Ok) ↔ c.Fits x path := by
  cases c with
  | «open» => exact open_in_arrays hz
  | create initial_size => exact safe_sys_create hz
  | remove => exact safe_filesys_remove hz
  | mkdir => exact mkdir_in_arrays hz
  | chdir => exact safe_sys_chdir hz
  | exec page => exact exec_in_arrays hz

end Every

/-- A process that has opened nothing. -/
def shell : caller where
  s := program_vm
  t := 0
  cwd := none
  running_file := none
  load_image := load_nothing

/-- `open ("a/b")`. -/
theorem short_path_in_arrays : string_call.open.log shell ([97, SLASH, 98] ++ 0 :: []) ≠ []
    ∧ ∀ a ∈ string_call.open.log shell ([97, SLASH, 98] ++ 0 :: []), a.Ok :=
  ⟨by decide +kernel, (string_call_in_arrays_iff shell .open [97, SLASH, 98] [] (by decide)).mpr
    (show [97, SLASH, 98].length < 128 by decide)⟩

/-- `a/`, `n` times, has `n` components. -/
theorem components_replicate (n : ℕ) :
    (path_components (List.replicate n [97, SLASH]).flatten).length = n := by
  have ha : Token (is_delimiter PATH_DELIMITERS) [97] := by
    refine ⟨List.cons_ne_nil _ _, fun c hc => ?_⟩
    rw [List.mem_singleton.mp hc]
    rfl
  rw [path_components_eq]
  induction n with
  | zero => rfl
  | succ n ih =>
      have hstep := tokens_token_sep ha (show is_delimiter PATH_DELIMITERS SLASH = true by decide)
        (List.replicate n [97, SLASH]).flatten
      rw [List.replicate_succ, List.flatten_cons]
      exact (congrArg List.length hstep).trans (congrArg (· + 1) ih)

/-- `open` of 128 letters writes behind `cp_name`, `mkdir` of 128 components behind `path_lst`, and
`exec` of the empty string reads in front of `path_lst`. -/
theorem arrays_overrun :
    (¬ ∀ a ∈ string_call.open.log shell (List.replicate 128 97 ++ 0 :: []), a.Ok)
      ∧ (¬ ∀ a ∈ string_call.mkdir.log shell
          ((List.replicate 128 [97, SLASH]).flatten ++ 0 :: []), a.Ok)
      ∧ ¬ ∀ a ∈ (string_call.exec true).log shell ([] ++ 0 :: []), a.Ok := by
  refine ⟨fun h => ?_, fun h => ?_, fun h => ?_⟩
  · have hnull : 0 ∉ List.replicate 128 (97 : UInt8) := by
      intro hmem
      exact absurd (List.eq_of_mem_replicate hmem) (by decide)
    have hlen : (List.replicate 128 (97 : UInt8)).length < 128 := (open_in_arrays hnull).mp h
    rw [List.length_replicate] at hlen
    omega
  · have hnull : 0 ∉ (List.replicate 128 [97, SLASH]).flatten := by
      intro hmem
      obtain ⟨l, hl, h0⟩ := List.mem_flatten.mp hmem
      rw [List.eq_of_mem_replicate hl] at h0
      exact absurd h0 (by decide)
    have hcomps : (path_components (List.replicate 128 [97, SLASH]).flatten).length < 128 :=
      (mkdir_in_arrays hnull).mp h
    rw [components_replicate] at hcomps
    omega
  · have hopens := ((exec_in_arrays (by decide)).mp h rfl).2 rfl
    have hroot : (start_dir_checked program_vm.files none false).satisfies
        (fun _ => true) = true := by
      decide +kernel
    obtain ⟨r, hr, -⟩ := Outcome.satisfies_iff.mp hroot
    exact hopens ⟨program_vm.files, r, rfl, hr⟩

end kernel_arrays

end Pintos
