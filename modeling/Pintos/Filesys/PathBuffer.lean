/-
`strtok_r` of `lib/string.c`, and the path calls on the caller's own bytes.

`Filesys/Filesys.lean` takes a path as a string. In the source it is a pointer, and
`parse_path` hands it to `strtok_r`, which closes every component by a null byte over
the slash behind it. `filesys_open` gives it a copy; the other four give it the
caller's buffer. Here the buffer is the list of bytes from the caller's pointer on,
and a call returns it beside its result.

The calls compute what their string versions compute (`path_call.run_eq`), and the
buffer they leave is `close_tokens` of the path.
-/
import Pintos.Filesys.Remove
import Pintos.Lib.Tokens

set_option autoImplicit false

namespace Pintos

/-! ## `strtok_r` -/

/-- Whether `c` is one of the delimiters. -/
def is_delimiter (delimiters : c_string) (c : UInt8) : Bool := delimiters.contains c

/-- `strchr (delimiters, c) != NULL`. The null byte at the end of `delimiters` is found as well. -/
def strchr (delimiters : c_string) (c : UInt8) : Bool := c = 0 || is_delimiter delimiters c

/-- The first loop of `strtok_r`, on the bytes from `s` on: where it ends, and whether a
token starts there. -/
def skip_delimiters (delimiters : c_string) : List UInt8 → ℕ → Outcome (Bool × ℕ)
  | [], _ => .undefined
  | c :: cs, s =>
      if strchr delimiters c then
        if c = 0 then .ok (false, s) else skip_delimiters delimiters cs (s + 1)
      else .ok (true, s)

/-- The second loop: the byte behind the token. -/
def token_end (delimiters : c_string) : List UInt8 → ℕ → Outcome ℕ
  | [], _ => .undefined
  | c :: cs, s => if strchr delimiters c then .ok s else token_end delimiters cs (s + 1)

/-- `strtok_r` from position `s` of the buffer: the token, the saved position, the buffer. -/
def strtok_r (mem : List UInt8) (s : ℕ) (delimiters : c_string) :
    Outcome (Option ℕ × ℕ × List UInt8) := do
  let (found, token) ← skip_delimiters delimiters (mem.drop s) s
  if found then
    let s ← token_end delimiters (mem.drop token) token
    if mem[s]? = some 0 then return (some token, s, mem)
    else return (some token, s + 1, mem.set s 0)
  else return (none, token, mem)

section Strtok

variable {delimiters sl t l pre rest : c_string} {d : UInt8}

theorem strchr_of_delimiter {c : UInt8} (h : is_delimiter delimiters c = true) :
    strchr delimiters c = true := by
  rw [strchr, h, Bool.or_true]

theorem strchr_of_char {c : UInt8} (h : is_delimiter delimiters c = false) (hc : c ≠ 0) :
    strchr delimiters c = false := by
  rw [strchr, h, Bool.or_false]
  exact decide_eq_false hc

theorem skip_delimiters_append (hsl : Seps (is_delimiter delimiters) sl) (hz : 0 ∉ sl)
    (l : c_string) (s : ℕ) :
    skip_delimiters delimiters (sl ++ l) s = skip_delimiters delimiters l (s + sl.length) := by
  induction sl generalizing s with
  | nil => rfl
  | cons c sl ih =>
      have hc : c ≠ 0 := fun h => hz (h ▸ List.mem_cons_self)
      rw [List.cons_append, skip_delimiters,
        if_pos (strchr_of_delimiter (hsl c List.mem_cons_self)), if_neg hc,
        ih (fun x hx => hsl x (List.mem_cons_of_mem c hx)) (fun h => hz (List.mem_cons_of_mem c h)),
        List.length_cons]
      congr 1
      omega

theorem token_end_append (ht : ∀ c ∈ t, is_delimiter delimiters c = false) (hz : 0 ∉ t)
    (l : c_string) (s : ℕ) :
    token_end delimiters (t ++ l) s = token_end delimiters l (s + t.length) := by
  induction t generalizing s with
  | nil => rfl
  | cons c t ih =>
      have hc : c ≠ 0 := fun h => hz (h ▸ List.mem_cons_self)
      rw [List.cons_append, token_end, strchr_of_char (ht c List.mem_cons_self) hc,
        if_neg Bool.false_ne_true,
        ih (fun x hx => ht x (List.mem_cons_of_mem c hx)) (fun h => hz (List.mem_cons_of_mem c h)),
        List.length_cons]
      congr 1
      omega

/-- The first loop stops in front of a token. -/
theorem skip_delimiters_token (hsl : Seps (is_delimiter delimiters) sl) (hzs : 0 ∉ sl)
    (ht : Token (is_delimiter delimiters) t) (hz : 0 ∉ t) (l : c_string) (s : ℕ) :
    skip_delimiters delimiters (sl ++ (t ++ l)) s = .ok (true, s + sl.length) := by
  obtain ⟨c, t, rfl⟩ := List.exists_cons_of_ne_nil ht.ne_nil
  have hc : c ≠ 0 := fun h => hz (h ▸ List.mem_cons_self)
  rw [skip_delimiters_append hsl hzs, List.cons_append, skip_delimiters,
    strchr_of_char (ht.no_sep c List.mem_cons_self) hc]
  rfl

/-- Only delimiters: there is no token. -/
theorem strtok_r_seps (hsl : Seps (is_delimiter delimiters) sl) (hz : 0 ∉ sl)
    (pre rest : c_string) :
    strtok_r (pre ++ (sl ++ 0 :: rest)) pre.length delimiters
      = .ok (none, pre.length + sl.length, pre ++ (sl ++ 0 :: rest)) := by
  rw [strtok_r, List.drop_left, skip_delimiters_append hsl hz]
  rfl

/-- The bytes at the start and at the end of a token. -/
theorem token_places (pre sl t l : c_string) :
    (pre ++ (sl ++ (t ++ l))).drop (pre.length + sl.length) = t ++ l
      ∧ (pre ++ (sl ++ (t ++ l)))[pre.length + sl.length + t.length]? = l[0]? := by
  constructor
  · rw [← List.append_assoc, ← List.length_append, List.drop_left]
  · rw [← List.append_assoc, ← List.append_assoc, ← List.length_append, ← List.length_append,
      List.getElem?_append_right le_rfl, Nat.sub_self]

/-- A token at the end of the string. -/
theorem strtok_r_last (hsl : Seps (is_delimiter delimiters) sl) (hzs : 0 ∉ sl)
    (ht : Token (is_delimiter delimiters) t) (hz : 0 ∉ t) (pre rest : c_string) :
    strtok_r (pre ++ (sl ++ (t ++ 0 :: rest))) pre.length delimiters
      = .ok (some (pre.length + sl.length), pre.length + sl.length + t.length,
          pre ++ (sl ++ (t ++ 0 :: rest))) := by
  obtain ⟨hdrop, hget⟩ := token_places pre sl t (0 :: rest)
  have hend : token_end delimiters (t ++ 0 :: rest) (pre.length + sl.length)
      = .ok (pre.length + sl.length + t.length) := by
    rw [token_end_append ht.no_sep hz]
    rfl
  rw [strtok_r, List.drop_left, skip_delimiters_token hsl hzs ht hz, Outcome.ok_bind]
  dsimp only
  rw [if_pos rfl, hdrop, hend, Outcome.ok_bind, hget, if_pos List.getElem?_cons_zero]
  rfl

/-- A token with a delimiter behind it: the delimiter is overwritten. -/
theorem strtok_r_more (hsl : Seps (is_delimiter delimiters) sl) (hzs : 0 ∉ sl)
    (ht : Token (is_delimiter delimiters) t) (hz : 0 ∉ t) (hd : is_delimiter delimiters d = true)
    (hd0 : d ≠ 0) (pre l : c_string) :
    strtok_r (pre ++ (sl ++ (t ++ d :: l))) pre.length delimiters
      = .ok (some (pre.length + sl.length), pre.length + sl.length + t.length + 1,
          pre ++ (sl ++ (t ++ 0 :: l))) := by
  obtain ⟨hdrop, hget⟩ := token_places pre sl t (d :: l)
  have hend : token_end delimiters (t ++ d :: l) (pre.length + sl.length)
      = .ok (pre.length + sl.length + t.length) := by
    rw [token_end_append ht.no_sep hz, token_end, if_pos (strchr_of_delimiter hd)]
  have hset : (pre ++ (sl ++ (t ++ d :: l))).set (pre.length + sl.length + t.length) 0
      = pre ++ (sl ++ (t ++ 0 :: l)) := by
    rw [← List.append_assoc, ← List.append_assoc, ← List.length_append, ← List.length_append,
      List.set_append_right _ _ le_rfl, Nat.sub_self, List.set_cons_zero, List.append_assoc,
      List.append_assoc]
  rw [strtok_r, List.drop_left, skip_delimiters_token hsl hzs ht hz, Outcome.ok_bind]
  dsimp only
  rw [if_pos rfl, hdrop, hend, Outcome.ok_bind, hget, List.getElem?_cons_zero,
    if_neg (fun h => hd0 (Option.some.inj h)), hset]
  rfl

end Strtok

/-- A loop over the tokens of a buffer: `argv` are the pointers that are stored. The array has 128
places, and the null pointer at the end takes one. -/
def strtok_loop (delimiters : c_string) :
    ℕ → List UInt8 → ℕ → List ℕ → Outcome (List ℕ × List UInt8)
  | 0, _, _, _ => .diverge
  | fuel + 1, mem, s, argv => do
      let (token, save_ptr, mem) ← strtok_r mem s delimiters
      if argv.length < 128 then
        match token with
        | none => .ok (argv, mem)
        | some t => strtok_loop delimiters fuel mem save_ptr (argv ++ [t])
      else .undefined

/-! ## `parse_path` on the buffer -/

/-- The delimiters of `parse_path`. -/
def PATH_DELIMITERS : c_string := [SLASH]

/-- The string at a pointer into the buffer. -/
def c_string_at (mem : List UInt8) (p : ℕ) : c_string := (mem.drop p).takeWhile (· ≠ 0)

namespace path_buffer

/-- The loop of `parse_path`; `argv` are the pointers that are stored. The array has 128
places, and the null pointer at the end takes one. -/
def parse_path_loop : ℕ → List UInt8 → ℕ → List ℕ → Outcome (List ℕ × List UInt8)
  | 0, _, _, _ => .diverge
  | fuel + 1, mem, s, argv => do
      let (token, save_ptr, mem) ← strtok_r mem s PATH_DELIMITERS
      if argv.length < 128 then
        match token with
        | none => .ok (argv, mem)
        | some t => parse_path_loop fuel mem save_ptr (argv ++ [t])
      else .undefined

/-- `parse_path`. A token takes at least one byte of the buffer. -/
def parse_path (mem : List UInt8) : Outcome (List ℕ × List UInt8) :=
  parse_path_loop (mem.length + 1) mem 0 []

/-- The strings that the pointers of `parse_path` point to. Nothing writes to the buffer
after it. -/
def parse_names (mem : List UInt8) : Outcome (List c_string × List UInt8) := do
  let (path_lst, mem) ← parse_path mem
  return (path_lst.map (c_string_at mem), mem)

end path_buffer

/-- What the tokenizer leaves of a path. -/
def closed_path (path : c_string) : c_string :=
  close_tokens (is_delimiter PATH_DELIMITERS) 0 false path

section ParsePath

variable {path pre rest l : c_string}

theorem is_path_delimiter (c : UInt8) : is_delimiter PATH_DELIMITERS c = decide (c = SLASH) := by
  simp [is_delimiter, PATH_DELIMITERS]

/-- The components are the tokens. -/
theorem parse_path_loop_eq (path acc : c_string)
    (hacc : ∀ c ∈ acc, is_delimiter PATH_DELIMITERS c = false) :
    parse_path_loop acc path = tokens (is_delimiter PATH_DELIMITERS) (acc.reverse ++ path) := by
  have htok : acc ≠ [] → Token (is_delimiter PATH_DELIMITERS) acc.reverse := fun hne =>
    ⟨fun h => hne (List.reverse_eq_nil_iff.mp h), fun c hc => hacc c (List.mem_reverse.mp hc)⟩
  induction path generalizing acc with
  | nil =>
      rw [parse_path_loop, List.append_nil]
      split
      · next hnil => rw [hnil]; rfl
      · next hne => exact (tokens_token (htok hne)).symm
  | cons c path ih =>
      have hc := is_path_delimiter c
      rw [parse_path_loop]
      by_cases hs : c = SLASH
      · have hsep : is_delimiter PATH_DELIMITERS c = true := hc.trans (decide_eq_true hs)
        have hrest := ih [] (fun _ h => absurd h List.not_mem_nil) (fun h => absurd rfl h)
        rw [if_pos hs, hrest]
        split
        · next hnil =>
            rw [hnil]
            exact (tokens_cons_sep hsep path).symm
        · next hne => exact (tokens_token_sep (htok hne) hsep path).symm
      · have hchar : is_delimiter PATH_DELIMITERS c = false := hc.trans (decide_eq_false hs)
        have hacc' : ∀ x ∈ c :: acc, is_delimiter PATH_DELIMITERS x = false := by
          intro x hx
          rcases List.mem_cons.mp hx with rfl | hx
          · exact hchar
          · exact hacc x hx
        rw [if_neg hs, ih (c :: acc) hacc' fun _ =>
          ⟨by simp, fun x hx => hacc' x (List.mem_reverse.mp hx)⟩]
        congr 1
        simp

theorem path_components_eq (path : c_string) :
    path_components path = tokens (is_delimiter PATH_DELIMITERS) path :=
  parse_path_loop_eq path [] fun _ h => absurd h List.not_mem_nil

theorem takeWhile_null {t : c_string} (ht : 0 ∉ t) (l : c_string) :
    (t ++ 0 :: l).takeWhile (· ≠ 0) = t := by
  rw [List.takeWhile_append_of_pos fun c hc => ?_]
  · simp
  · exact decide_eq_true fun h => ht (h ▸ hc)

/-- The string at the start of a token that has been closed. -/
theorem c_string_at_token {t : c_string} (hz : 0 ∉ t) (pre sl l : c_string) :
    c_string_at (pre ++ (sl ++ (t ++ 0 :: l))) (pre.length + sl.length) = t := by
  rw [c_string_at, (token_places pre sl t (0 :: l)).1, takeWhile_null hz]

/-- The loop, entered with `argv` stored, comes to the end with pointers to `names` behind them,
and with `final` in the buffer; or the array is too short. -/
def ParsesTo (x : Outcome (List ℕ × List UInt8)) (argv : List ℕ) (final : List UInt8)
    (names : List c_string) : Prop :=
  if argv.length + names.length < 128 then
    ∃ ptrs : List ℕ, x = .ok (argv ++ ptrs, final) ∧ ptrs.map (c_string_at final) = names
  else x = .undefined

theorem ParsesTo.nil (argv : List ℕ) (final : List UInt8) :
    ParsesTo (if argv.length < 128 then .ok (argv, final) else .undefined) argv final [] := by
  unfold ParsesTo
  rw [List.length_nil, Nat.add_zero]
  split
  · exact ⟨[], by rw [List.append_nil], rfl⟩
  · rfl

/-- One more pointer. -/
theorem ParsesTo.cons {x : Outcome (List ℕ × List UInt8)} {argv : List ℕ} {final : List UInt8}
    {names : List c_string} {p : ℕ} {t : c_string} (h : ParsesTo x (argv ++ [p]) final names)
    (hp : c_string_at final p = t) :
    ParsesTo (if argv.length < 128 then x else .undefined) argv final (t :: names) := by
  unfold ParsesTo at h ⊢
  have hlen : (argv ++ [p]).length + names.length = argv.length + (t :: names).length := by
    simp only [List.length_append, List.length_cons, List.length_nil]
    omega
  rw [hlen] at h
  by_cases hfit : argv.length + (t :: names).length < 128
  · rw [if_pos hfit] at h
    obtain ⟨ptrs, hx, hmap⟩ := h
    rw [if_pos hfit, if_pos (by omega)]
    refine ⟨p :: ptrs, ?_, ?_⟩
    · rw [hx, List.append_assoc]
      rfl
    · rw [List.map_cons, hp, hmap]
  · rw [if_neg hfit] at h
    rw [if_neg hfit, h, ite_self]

/-- **The loop** goes through the tokens of what is left of the string. What it leaves in
front of it stays, so the tokens that are stored can be read at the end. -/
theorem strtok_loop_eq (delimiters rest l : c_string) :
    ∀ (pre : c_string) (fuel : ℕ) (argv : List ℕ), 0 ∉ l → l.length < fuel →
      ParsesTo (strtok_loop delimiters fuel (pre ++ (l ++ 0 :: rest)) pre.length argv) argv
        (pre ++ (close_tokens (is_delimiter delimiters) 0 false l ++ 0 :: rest))
        (tokens (is_delimiter delimiters) l) := by
  have hnone : ∀ (sl pre : c_string) (fuel : ℕ) (argv : List ℕ),
      Seps (is_delimiter delimiters) sl → 0 ∉ sl →
      strtok_loop delimiters (fuel + 1) (pre ++ (sl ++ 0 :: rest)) pre.length argv
        = if argv.length < 128 then .ok (argv, pre ++ (sl ++ 0 :: rest)) else .undefined := by
    intro sl pre fuel argv hsl hz
    rw [strtok_loop, strtok_r_seps hsl hz]
    rfl
  induction l using token_induction (is_delimiter delimiters) with
  | seps sl hsl =>
      intro pre fuel argv hz hf
      obtain ⟨fuel, rfl⟩ : ∃ k, fuel = k + 1 := ⟨fuel - 1, by omega⟩
      rw [tokens_seps hsl, hnone sl pre fuel argv hsl hz, close_tokens_seps hsl]
      exact ParsesTo.nil argv _
  | last sl t hsl ht =>
      intro pre fuel argv hz hf
      have hzs : 0 ∉ sl := fun h => hz (List.mem_append_left t h)
      have hzt : 0 ∉ t := fun h => hz (List.mem_append_right sl h)
      have htpos := List.length_pos_of_ne_nil ht.ne_nil
      obtain ⟨fuel, rfl⟩ : ∃ k, fuel = k + 2 :=
        ⟨fuel - 2, by rw [List.length_append] at hf; omega⟩
      -- the next round starts at the null byte
      have hend := hnone [] (pre ++ (sl ++ t)) fuel (argv ++ [pre.length + sl.length])
        (fun _ h => absurd h List.not_mem_nil) List.not_mem_nil
      have hpre : (pre ++ (sl ++ t)).length = pre.length + sl.length + t.length := by
        rw [List.length_append, List.length_append, Nat.add_assoc]
      rw [hpre, List.nil_append, List.append_assoc, List.append_assoc] at hend
      rw [tokens_seps_append hsl, tokens_token ht, close_tokens_seps_append hsl,
        close_tokens_token ht, strtok_loop, List.append_assoc,
        strtok_r_last hsl hzs ht hzt, Outcome.ok_bind]
      dsimp only
      rw [hend]
      exact (ParsesTo.nil _ _).cons (c_string_at_token hzt pre sl rest)
  | more sl t d l hsl ht hd ih =>
      intro pre fuel argv hz hf
      obtain ⟨hzs, hzt, hzd, hzl⟩ := notMem_parts hz
      obtain ⟨fuel, rfl⟩ : ∃ k, fuel = k + 1 := ⟨fuel - 1, by omega⟩
      have hlen : l.length < fuel := by
        simp only [List.length_append, List.length_cons] at hf
        omega
      have hrest := ih (pre ++ (sl ++ (t ++ [0]))) fuel (argv ++ [pre.length + sl.length]) hzl hlen
      rw [closed_length, closed_append, closed_append] at hrest
      rw [tokens_seps_append hsl, tokens_token_sep ht hd, close_tokens_seps_append hsl,
        close_tokens_token_sep ht hd, strtok_loop, List.append_assoc,
        List.append_assoc, List.cons_append, strtok_r_more hsl hzs ht hzt hd hzd, Outcome.ok_bind]
      dsimp only
      simp only [List.append_assoc, List.cons_append]
      exact hrest.cons (c_string_at_token hzt pre sl _)

theorem path_buffer.parse_path_loop_strtok (fuel : ℕ) : ∀ (mem : List UInt8) (s : ℕ)
    (argv : List ℕ),
    path_buffer.parse_path_loop fuel mem s argv = strtok_loop PATH_DELIMITERS fuel mem s argv := by
  induction fuel with
  | zero => exact fun _ _ _ => rfl
  | succ fuel ih =>
      intro mem s argv
      rw [path_buffer.parse_path_loop, strtok_loop]
      simp only [ih]

theorem path_buffer.parse_path_loop_eq (rest l : c_string) :
    ∀ (pre : c_string) (fuel : ℕ) (argv : List ℕ), 0 ∉ l → l.length < fuel →
      ParsesTo (path_buffer.parse_path_loop fuel (pre ++ (l ++ 0 :: rest)) pre.length argv) argv
        (pre ++ (closed_path l ++ 0 :: rest)) (tokens (is_delimiter PATH_DELIMITERS) l) := by
  intro pre fuel argv hz hf
  rw [path_buffer.parse_path_loop_strtok]
  exact strtok_loop_eq PATH_DELIMITERS rest l pre fuel argv hz hf

/-- **`parse_path` on the buffer** finds the components, and leaves the closed path. -/
theorem path_buffer.parse_names_eq (hz : 0 ∉ path) (rest : c_string) :
    path_buffer.parse_names (path ++ 0 :: rest)
      = Pintos.parse_path path >>= fun l => .ok (l, closed_path path ++ 0 :: rest) := by
  have h := path_buffer.parse_path_loop_eq rest path [] ((path ++ 0 :: rest).length + 1) [] hz
    (by rw [List.length_append]; omega)
  unfold ParsesTo at h
  rw [← path_components_eq, List.length_nil, Nat.zero_add] at h
  rw [path_buffer.parse_names, path_buffer.parse_path, Pintos.parse_path]
  by_cases hfit : (path_components path).length < 128
  · rw [if_pos hfit] at h ⊢
    obtain ⟨ptrs, hx, hmap⟩ := h
    simp only [List.nil_append, List.length_nil] at hx hmap
    rw [← hmap, hx]
    rfl
  · rw [if_neg hfit] at h ⊢
    simp only [List.nil_append, List.length_nil] at h
    rw [h]
    rfl

theorem is_root_path_append (path rest : c_string) :
    is_root_path (path ++ 0 :: rest) = is_root_path path := by
  cases path with
  | nil => rfl
  | cons c path => rfl

end ParsePath

/-! ## The calls on the buffer -/

namespace path_buffer

/-- `filesys_create`. -/
def filesys_create (s : filesys) (cwd : Option ℕ) (mem : List UInt8) (initial_size : ℤ) :
    Outcome ((Bool × filesys) × List UInt8) := do
  let is_root := is_root_path mem
  let (path_lst, mem) ← parse_names mem
  match path_lst.getLast? with
  | none => .ok ((false, s), mem)
  | some last => do
      let (cur_dir, s) ← start_dir_checked s cwd is_root
      let (cur_dir, s) ← dir_walk path_lst.dropLast s cur_dir
      let r ← create_at s cur_dir last initial_size
      return (r, mem)

/-- `filesys_remove`. -/
def filesys_remove (s : filesys) (cwd : Option ℕ) (mem : List UInt8) :
    Outcome ((Bool × filesys) × List UInt8) := do
  let is_root := is_root_path mem
  let (path_lst, mem) ← parse_names mem
  match path_lst.getLast? with
  | none => .ok ((false, s), mem)
  | some last => do
      let (cur_dir, s) ← start_dir s cwd is_root
      let (cur_dir, s) ← dir_walk path_lst.dropLast s cur_dir
      let r ← remove_at s cwd cur_dir last
      return (r, mem)

/-- `sys_mkdir`. -/
def sys_mkdir (s : filesys) (cwd : Option ℕ) (mem : List UInt8) :
    Outcome ((Bool × filesys) × List UInt8) := do
  let is_root := is_root_path mem
  let (path_lst, mem) ← parse_names mem
  match path_lst.getLast? with
  | none => .ok ((false, s), mem)
  | some last => do
      let (cur_dir, s) ← start_dir s cwd is_root
      let (cur_dir, s) ← dir_walk path_lst.dropLast s cur_dir
      let r ← mkdir_at s cur_dir last
      return (r, mem)

/-- `sys_chdir`. -/
def sys_chdir (s : filesys) (cwd : Option ℕ) (mem : List UInt8) :
    Outcome ((Bool × Option ℕ × filesys) × List UInt8) := do
  let is_root := is_root_path mem
  let (path_lst, mem) ← parse_names mem
  if is_root ∧ path_lst = [] then
    let s ← dir_close s cwd
    let (root, s) ← dir_open_root s
    return ((true, some root, s), mem)
  else
    let (cur_dir, s) ← start_dir s cwd is_root
    let (cur_dir, s) ← dir_walk path_lst s cur_dir
    let r ← chdir_to s cwd cur_dir
    return (r, mem)

end path_buffer

/-- The calls that take the caller's path. -/
inductive path_call
  | create (initial_size : ℤ)
  | remove
  | mkdir
  | chdir

namespace path_call

/-- The result, the new `cwd` and the file system, for a path that is a string. -/
def resolve (s : filesys) (cwd : Option ℕ) (path : c_string) :
    path_call → Outcome (Bool × Option ℕ × filesys)
  | create initial_size => filesys_create s cwd path initial_size >>= fun r => .ok (r.1, cwd, r.2)
  | remove => filesys_remove s cwd path >>= fun r => .ok (r.1, cwd, r.2)
  | mkdir => sys_mkdir s cwd path >>= fun r => .ok (r.1, cwd, r.2)
  | chdir => sys_chdir s cwd path

/-- The same on the bytes from the caller's pointer on, with the bytes that the call leaves. -/
def run (s : filesys) (cwd : Option ℕ) (mem : List UInt8) :
    path_call → Outcome ((Bool × Option ℕ × filesys) × List UInt8)
  | create initial_size =>
      path_buffer.filesys_create s cwd mem initial_size >>= fun r => .ok ((r.1.1, cwd, r.1.2), r.2)
  | remove => path_buffer.filesys_remove s cwd mem >>= fun r => .ok ((r.1.1, cwd, r.1.2), r.2)
  | mkdir => path_buffer.sys_mkdir s cwd mem >>= fun r => .ok ((r.1.1, cwd, r.1.2), r.2)
  | chdir => path_buffer.sys_chdir s cwd mem

end path_call

section Calls

variable {s : filesys} {cwd : Option ℕ} {path rest : c_string}

theorem path_buffer.filesys_create_eq (hz : 0 ∉ path) (rest : c_string) (initial_size : ℤ) :
    path_buffer.filesys_create s cwd (path ++ 0 :: rest) initial_size
      = Pintos.filesys_create s cwd path initial_size >>= fun r =>
          .ok (r, closed_path path ++ 0 :: rest) := by
  rw [path_buffer.filesys_create, path_buffer.parse_names_eq hz, is_root_path_append,
    Pintos.filesys_create, Outcome.bind_assoc, Outcome.bind_assoc]
  refine Outcome.bind_congr fun path_lst _ => ?_
  rw [Outcome.ok_bind]
  dsimp only
  cases path_lst.getLast? with
  | none => rfl
  | some last =>
      simp only [Outcome.bind_assoc]
      rfl

theorem path_buffer.filesys_remove_eq (hz : 0 ∉ path) (rest : c_string) :
    path_buffer.filesys_remove s cwd (path ++ 0 :: rest)
      = Pintos.filesys_remove s cwd path >>= fun r => .ok (r, closed_path path ++ 0 :: rest) := by
  rw [path_buffer.filesys_remove, path_buffer.parse_names_eq hz, is_root_path_append,
    Pintos.filesys_remove, Outcome.bind_assoc, Outcome.bind_assoc]
  refine Outcome.bind_congr fun path_lst _ => ?_
  rw [Outcome.ok_bind]
  dsimp only
  cases path_lst.getLast? with
  | none => rfl
  | some last =>
      simp only [Outcome.bind_assoc]
      rfl

theorem path_buffer.sys_mkdir_eq (hz : 0 ∉ path) (rest : c_string) :
    path_buffer.sys_mkdir s cwd (path ++ 0 :: rest)
      = Pintos.sys_mkdir s cwd path >>= fun r => .ok (r, closed_path path ++ 0 :: rest) := by
  rw [path_buffer.sys_mkdir, path_buffer.parse_names_eq hz, is_root_path_append,
    Pintos.sys_mkdir, Outcome.bind_assoc, Outcome.bind_assoc]
  refine Outcome.bind_congr fun path_lst _ => ?_
  rw [Outcome.ok_bind]
  dsimp only
  cases path_lst.getLast? with
  | none => rfl
  | some last =>
      simp only [Outcome.bind_assoc]
      rfl

theorem path_buffer.sys_chdir_eq (hz : 0 ∉ path) (rest : c_string) :
    path_buffer.sys_chdir s cwd (path ++ 0 :: rest)
      = Pintos.sys_chdir s cwd path >>= fun r => .ok (r, closed_path path ++ 0 :: rest) := by
  rw [path_buffer.sys_chdir, path_buffer.parse_names_eq hz, is_root_path_append,
    Pintos.sys_chdir, Outcome.bind_assoc, Outcome.bind_assoc]
  refine Outcome.bind_congr fun path_lst _ => ?_
  rw [Outcome.ok_bind]
  dsimp only
  split
  · simp only [Outcome.bind_assoc]
    rfl
  · simp only [Outcome.bind_assoc]
    rfl

/-- **The calls on the buffer** do what they do with the string, and leave the closed path. -/
theorem path_call.run_eq (c : path_call) (s : filesys) (cwd : Option ℕ) (hz : 0 ∉ path)
    (rest : c_string) :
    c.run s cwd (path ++ 0 :: rest)
      = c.resolve s cwd path >>= fun r => .ok (r, closed_path path ++ 0 :: rest) := by
  cases c with
  | create initial_size =>
      rw [run, resolve, path_buffer.filesys_create_eq hz, Outcome.bind_assoc, Outcome.bind_assoc]
      rfl
  | remove =>
      rw [run, resolve, path_buffer.filesys_remove_eq hz, Outcome.bind_assoc, Outcome.bind_assoc]
      rfl
  | mkdir =>
      rw [run, resolve, path_buffer.sys_mkdir_eq hz, Outcome.bind_assoc, Outcome.bind_assoc]
      rfl
  | chdir => exact path_buffer.sys_chdir_eq hz rest

/-- The closed path is the path exactly if no component has a slash behind it. -/
theorem closed_path_eq_iff (path : c_string) :
    closed_path path = path ↔ SLASH ∉ path.dropWhile (· = SLASH) := by
  have hsep : is_delimiter PATH_DELIMITERS = fun c => decide (c = SLASH) := funext is_path_delimiter
  have hz : is_delimiter PATH_DELIMITERS 0 = false := by decide
  rw [closed_path, close_tokens_eq_self_iff hz, hsep]
  simp only [decide_eq_false_iff_not]
  exact ⟨fun h hmem => h SLASH hmem rfl, fun h c hc hs => h (hs ▸ hc)⟩

/-- What is left as a string is the path up to the end of its first component. -/
theorem components_left (hz : 0 ∉ path) (rest : c_string) :
    path_components (c_string_at (closed_path path ++ 0 :: rest) 0)
      = (path_components path).take 1 := by
  rw [c_string_at, List.drop_zero, path_components_eq, path_components_eq]
  rcases token_cases (is_delimiter PATH_DELIMITERS) path with
    hsl | ⟨sl, t, rfl, hsl, ht⟩ | ⟨sl, t, d, l, rfl, hsl, ht, hd⟩
  · rw [closed_path, close_tokens_seps hsl, takeWhile_null hz, tokens_seps hsl]
    rfl
  · rw [closed_path, close_tokens_seps_append hsl, close_tokens_token ht, takeWhile_null hz,
      tokens_seps_append hsl, tokens_token ht]
    rfl
  · have hpre : 0 ∉ sl ++ t := fun h => hz (by
      rw [← List.append_assoc]
      exact List.mem_append_left _ h)
    rw [closed_path, close_tokens_seps_append hsl, close_tokens_token_sep ht hd,
      tokens_seps_append hsl, tokens_token_sep ht hd, List.append_assoc, List.append_assoc,
      List.cons_append, ← List.append_assoc, takeWhile_null hpre, tokens_seps_append hsl,
        tokens_token ht]
    rfl

/-- **The next call** with the same buffer finds the same components exactly if there is at
most one. -/
theorem next_call_components_iff (c : path_call) {r : Bool × Option ℕ × filesys}
    {mem' : List UInt8} (hz : 0 ∉ path)
    (h : c.run s cwd (path ++ 0 :: rest) = .ok (r, mem')) :
    path_components (c_string_at mem' 0) = path_components path
      ↔ (path_components path).length ≤ 1 := by
  rw [path_call.run_eq c s cwd hz] at h
  obtain ⟨r', -, hr⟩ := Outcome.bind_eq_ok.mp h
  rw [← (Outcome.ok_pair hr).2, components_left hz rest, List.take_eq_self_iff]

/-- **The caller's bytes** are what they were exactly if no component has a slash behind it. -/
theorem path_call_keeps_bytes_iff (c : path_call) {r : Bool × Option ℕ × filesys}
    {mem' : List UInt8} (hz : 0 ∉ path)
    (h : c.run s cwd (path ++ 0 :: rest) = .ok (r, mem')) :
    mem' = path ++ 0 :: rest ↔ SLASH ∉ path.dropWhile (· = SLASH) := by
  rw [path_call.run_eq c s cwd hz] at h
  obtain ⟨r', -, hr⟩ := Outcome.bind_eq_ok.mp h
  have hmem : mem' = closed_path path ++ 0 :: rest := (Outcome.ok_pair hr).2.symm
  rw [hmem, ← closed_path_eq_iff, List.append_left_inj]

end Calls

/-- The theorem at a path with slashes in front only. -/
theorem remove_keeps_bytes : ∃ r mem',
    path_call.remove.run dir_d (some 0) ([SLASH, SLASH, 97] ++ 0 :: []) = .ok (r, mem')
    ∧ (mem' = [SLASH, SLASH, 97] ++ 0 :: []
      ↔ SLASH ∉ [SLASH, SLASH, 97].dropWhile (· = SLASH)) := by
  have hrun : (path_call.remove.run dir_d (some 0) ([SLASH, SLASH, 97] ++ 0 :: [])).satisfies
      (fun _ => true) = true := by
    decide +kernel
  obtain ⟨⟨r, mem'⟩, hret, -⟩ := Outcome.satisfies_iff.mp hrun
  exact ⟨r, mem', hret, path_call_keeps_bytes_iff .remove (by decide) hret⟩

/-- Creating `/d/a` succeeds, and `/d` is left in the buffer. -/
theorem create_shortens_path : ¬ ∀ (c : path_call) (s : filesys) (cwd : Option ℕ)
    (path rest : c_string) (r : Bool × Option ℕ × filesys) (mem' : List UInt8), 0 ∉ path →
    c.run s cwd (path ++ 0 :: rest) = .ok (r, mem') → mem' = path ++ 0 :: rest := by
  intro hall
  have hrun : ((path_call.create 0).run dir_d (some 0)
      ([SLASH, 100, SLASH, 97] ++ 0 :: [])).satisfies
      (fun x => x.1.1 && decide (x.2 ≠ [SLASH, 100, SLASH, 97] ++ 0 :: [])) = true := by
    decide +kernel
  obtain ⟨⟨r, mem'⟩, hret, hobs⟩ := Outcome.satisfies_iff.mp hrun
  rw [Bool.and_eq_true, decide_eq_true_iff] at hobs
  exact hobs.2 (hall _ _ _ _ _ _ _ (by decide) hret)

end Pintos
