/-
`parse_path` and `parse_args`, byte by byte.

Both are one loop over `strtok_r`, which scans the string in place and keeps where it is
between the calls. Here every byte that is read or written leaves an event, `argv` is an
array of pointers with a length of its own, and a pointer is a position in the buffer.

What is stored are the starts of the maximal runs without a delimiter (`MaximalRun`), in
order, and a null pointer; and no event lies behind the null byte of the string.
-/
import Pintos.Filesys.PathBuffer
import Pintos.Lib.Traced

set_option autoImplicit false

namespace Pintos.tokenise

/-! ## `strtok_r` -/

/-- A byte of the buffer that is read or written. -/
inductive byte_event
  | read (a : ℕ)
  | write (a : ℕ)
  deriving DecidableEq, Repr

/-- Where. -/
def byte_event.addr : byte_event → ℕ
  | .read a => a
  | .write a => a

/-- `*s`. -/
def load (mem : List UInt8) (s : ℕ) : Traced byte_event UInt8 := do
  Traced.note (.read s)
  match mem[s]? with
  | some c => return c
  | none => Traced.lift .undefined

/-- `*s = c`. -/
def store (mem : List UInt8) (s : ℕ) (c : UInt8) : Traced byte_event (List UInt8) := do
  Traced.note (.write s)
  if s < mem.length then return mem.set s c
  else Traced.lift .undefined

/-- The first loop of `strtok_r`: where it ends, and whether a token starts there. -/
def skip_loop (delimiters : c_string) (mem : List UInt8) : ℕ → ℕ → Traced byte_event (Bool × ℕ)
  | 0, _ => Traced.lift .diverge
  | n + 1, s => do
      let c ← load mem s
      if strchr delimiters c then do
        let c ← load mem s
        if c = 0 then return (false, s)
        else skip_loop delimiters mem n (s + 1)
      else return (true, s)

/-- The second loop: the byte behind the token. -/
def token_loop (delimiters : c_string) (mem : List UInt8) : ℕ → ℕ → Traced byte_event ℕ
  | 0, _ => Traced.lift .diverge
  | n + 1, s => do
      let c ← load mem s
      if strchr delimiters c then return s
      else token_loop delimiters mem n (s + 1)

/-- `strtok_r`: the token, `*save_ptr`, and the buffer. Each turn of its loops is at one
byte of the buffer or behind it. -/
def strtok_r (mem : List UInt8) (s : Option ℕ) (delimiters : c_string) (save_ptr : Option ℕ) :
    Traced byte_event (Option ℕ × ℕ × List UInt8) := do
  match s.or save_ptr with
  | none => Traced.lift .panic
  | some s => do
      let (found, s) ← skip_loop delimiters mem (mem.length + 1) s
      if found then do
        let token := s
        let s ← token_loop delimiters mem (mem.length + 1) s
        let c ← load mem s
        if c ≠ 0 then do
          let mem ← store mem s 0
          return (some token, s + 1, mem)
        else return (some token, s, mem)
      else return (none, s, mem)

/-! ## `parse_path` and `parse_args` -/

/-- `argv[argc] = p`. -/
def store_arg (argv : List (Option ℕ)) (argc : ℕ) (p : Option ℕ) : Outcome (List (Option ℕ)) :=
  if argc < argv.length then .ok (argv.set argc p) else .undefined

/-- The loop of both functions, and the null pointer they store last: `argc`, `argv` and the
buffer. -/
def parse_loop (delimiters : c_string) : ℕ → List UInt8 → Option ℕ → Option ℕ → ℕ →
    List (Option ℕ) → Traced byte_event (ℕ × List (Option ℕ) × List UInt8)
  | 0, _, _, _, _, _ => Traced.lift .diverge
  | n + 1, mem, s, save_ptr, argc, argv => do
      let (token, save_ptr, mem) ← strtok_r mem s delimiters save_ptr
      match token with
      | some token => do
          let argv ← Traced.lift (store_arg argv argc (some token))
          parse_loop delimiters n mem none (some save_ptr) (argc + 1) argv
      | none => do
          let argv ← Traced.lift (store_arg argv argc none)
          return (argc, argv, mem)

/-- A function of the two. Each token takes a byte of the buffer. -/
def parse (delimiters : c_string) (mem : List UInt8) (argv : List (Option ℕ)) :
    Traced byte_event (ℕ × List (Option ℕ) × List UInt8) :=
  parse_loop delimiters (mem.length + 1) mem (some 0) none 0 argv

/-- `parse_path`. -/
def parse_path (target : List UInt8) (argv : List (Option ℕ)) :
    Traced byte_event (ℕ × List (Option ℕ) × List UInt8) := parse PATH_DELIMITERS target argv

/-- `parse_args`, with a space for the delimiter. -/
def parse_args (target : List UInt8) (argv : List (Option ℕ)) :
    Traced byte_event (ℕ × List (Option ℕ) × List UInt8) := parse [32] target argv

/-! ## One call of `strtok_r` -/

section Strtok

variable {delimiters sl t l pre rest : c_string} {mem : List UInt8} {c d : UInt8} {s n N : ℕ}

/-- Nothing behind the byte `N` is touched. -/
def Within (N : ℕ) (e : byte_event) : Prop := e.addr ≤ N

theorem load_gives (hc : mem[s]? = some c) (hs : s ≤ N) :
    Traced.Gives (Within N) (load mem s) c := by
  unfold load
  refine .bind (.note hs) ?_
  rw [hc]
  exact .pure c

theorem store_gives (hlt : s < mem.length) (hs : s ≤ N) :
    Traced.Gives (Within N) (store mem s c) (mem.set s c) := by
  unfold store
  refine .bind (.note hs) ?_
  rw [if_pos hlt]
  exact .pure _

/-- The bytes `l` are in the buffer from `s` on. -/
def At (mem : List UInt8) (s : ℕ) (l : c_string) : Prop :=
  ∀ k c, l[k]? = some c → mem[s + k]? = some c

theorem At.head (h : At mem s (c :: l)) : mem[s]? = some c := h 0 c rfl

theorem At.tail (h : At mem s (c :: l)) : At mem (s + 1) l := by
  intro k x hx
  have hnext := h (k + 1) x hx
  rwa [Nat.add_comm k 1, ← Nat.add_assoc] at hnext

theorem at_append (pre l rest : c_string) : At (pre ++ (l ++ rest)) pre.length l := by
  intro k c hc
  have hlt : k < l.length := (List.getElem?_eq_some_iff.mp hc).1
  rw [List.getElem?_append_right (by omega), Nat.add_sub_cancel_left,
    List.getElem?_append_left hlt, hc]

theorem at_string (pre l rest : c_string) : At (pre ++ (l ++ 0 :: rest)) pre.length (l ++ [0]) := by
  have h := at_append pre (l ++ [0]) rest
  rwa [List.append_assoc, List.singleton_append] at h

/-- The first loop passes delimiters. -/
theorem skip_loop_gives (hsl : Seps (is_delimiter delimiters) sl) (hz : 0 ∉ sl)
    (hat : At mem s (sl ++ [c])) (hc : c = 0 ∨ strchr delimiters c = false)
    (hN : s + sl.length ≤ N) (hn : sl.length < n) :
    Traced.Gives (Within N) (skip_loop delimiters mem n s)
      (!strchr delimiters c, s + sl.length) := by
  induction sl generalizing s n with
  | nil =>
      obtain ⟨n, rfl⟩ : ∃ k, n = k + 1 := ⟨n - 1, by omega⟩
      have hload : Traced.Gives (Within N) (load mem s) c := load_gives hat.head hN
      unfold skip_loop
      refine .bind hload ?_
      rcases hc with rfl | hc
      · rw [if_pos (by simp [strchr])]
        refine .bind hload ?_
        rw [if_pos rfl]
        exact .pure _
      · rw [hc]
        exact .pure _
  | cons x sl ih =>
      obtain ⟨n, rfl⟩ : ∃ k, n = k + 1 := ⟨n - 1, by omega⟩
      rw [List.length_cons] at hN hn
      have hx : x ≠ 0 := fun h => hz (h ▸ List.mem_cons_self)
      have hload : Traced.Gives (Within N) (load mem s) x := load_gives hat.head (by omega)
      unfold skip_loop
      refine .bind hload ?_
      rw [if_pos (strchr_of_delimiter (hsl x List.mem_cons_self))]
      refine .bind hload ?_
      rw [if_neg hx, List.length_cons, Nat.add_comm sl.length 1, ← Nat.add_assoc]
      exact ih (fun y hy => hsl y (List.mem_cons_of_mem x hy))
        (fun h => hz (List.mem_cons_of_mem x h)) hat.tail (by omega) (by omega)

/-- The second loop passes the characters of a token. -/
theorem token_loop_gives (ht : ∀ x ∈ t, is_delimiter delimiters x = false) (hz : 0 ∉ t)
    (hat : At mem s (t ++ [c])) (hc : strchr delimiters c = true) (hN : s + t.length ≤ N)
    (hn : t.length < n) :
    Traced.Gives (Within N) (token_loop delimiters mem n s) (s + t.length) := by
  induction t generalizing s n with
  | nil =>
      obtain ⟨n, rfl⟩ : ∃ k, n = k + 1 := ⟨n - 1, by omega⟩
      unfold token_loop
      refine .bind (load_gives hat.head hN) ?_
      rw [if_pos hc]
      exact .pure _
  | cons x t ih =>
      obtain ⟨n, rfl⟩ : ∃ k, n = k + 1 := ⟨n - 1, by omega⟩
      rw [List.length_cons] at hN hn
      have hx : x ≠ 0 := fun h => hz (h ▸ List.mem_cons_self)
      unfold token_loop
      refine .bind (load_gives hat.head (by omega)) ?_
      rw [strchr_of_char (ht x List.mem_cons_self) hx, if_neg Bool.false_ne_true, List.length_cons,
        Nat.add_comm t.length 1, ← Nat.add_assoc]
      exact ih (fun y hy => ht y (List.mem_cons_of_mem x hy))
        (fun h => hz (List.mem_cons_of_mem x h)) hat.tail (by omega) (by omega)

variable {start save_ptr : Option ℕ}

/-- Only delimiters: there is no token. -/
theorem strtok_r_none (hsl : Seps (is_delimiter delimiters) sl) (hz : 0 ∉ sl)
    (hat : At mem s (sl ++ [0])) (hstart : start.or save_ptr = some s) (hN : s + sl.length ≤ N) :
    Traced.Gives (Within N) (strtok_r mem start delimiters save_ptr)
      (none, s + sl.length, mem) := by
  have hnull : mem[s + sl.length]? = some 0 := hat sl.length 0 (by simp)
  have hlen := (List.getElem?_eq_some_iff.mp hnull).1
  unfold strtok_r
  rw [hstart]
  refine .bind (skip_loop_gives hsl hz hat (.inl rfl) hN (by omega)) ?_
  exact .pure _

/-- A token, up to the byte `c` behind it. -/
theorem strtok_r_some (hsl : Seps (is_delimiter delimiters) sl) (hzs : 0 ∉ sl)
    (ht : Token (is_delimiter delimiters) t) (hzt : 0 ∉ t) (hc : strchr delimiters c = true)
    (hstart : start.or save_ptr = some pre.length) (hN : pre.length + sl.length + t.length ≤ N) :
    Traced.Gives (Within N) (strtok_r (pre ++ (sl ++ (t ++ c :: l))) start delimiters save_ptr)
      (some (pre.length + sl.length),
        if c = 0 then pre.length + sl.length + t.length else pre.length + sl.length + t.length + 1,
        pre ++ (sl ++ (t ++ 0 :: l))) := by
  obtain ⟨x, t', rfl⟩ := List.exists_cons_of_ne_nil ht.ne_nil
  have hx0 : x ≠ 0 := fun h => hzt (h ▸ List.mem_cons_self)
  have hx : strchr delimiters x = false := strchr_of_char (ht.no_sep x List.mem_cons_self) hx0
  have hskip : At (pre ++ (sl ++ (x :: t' ++ c :: l))) pre.length (sl ++ [x]) := by
    have h := at_append pre (sl ++ [x]) (t' ++ c :: l)
    simpa using h
  have htoken : At (pre ++ (sl ++ (x :: t' ++ c :: l))) (pre.length + sl.length)
      (x :: t' ++ [c]) := by
    have h := at_append (pre ++ sl) (x :: t' ++ [c]) l
    simpa using h
  have hlen : (pre ++ (sl ++ (x :: t' ++ c :: l))).length
      = pre.length + sl.length + (x :: t').length + 1 + l.length := by
    simp
    omega
  obtain ⟨e, he⟩ : ∃ e, e = pre.length + sl.length + (x :: t').length := ⟨_, rfl⟩
  have hget : (pre ++ (sl ++ (x :: t' ++ c :: l)))[e]? = some c := by
    rw [he]
    exact htoken (x :: t').length c (by simp)
  unfold strtok_r
  rw [hstart]
  refine .bind (skip_loop_gives hsl hzs hskip (.inr hx) (by omega) (by omega)) ?_
  rw [hx]
  refine .bind (token_loop_gives ht.no_sep hzt htoken hc hN (by omega)) ?_
  rw [← he]
  refine .bind (load_gives hget (by omega)) ?_
  by_cases hc0 : c = 0
  · rw [if_neg (by simpa using hc0), if_pos hc0, hc0]
    exact .pure _
  · have hset : (pre ++ (sl ++ (x :: t' ++ c :: l))).set e 0
        = pre ++ (sl ++ (x :: t' ++ 0 :: l)) := by
      rw [he, ← List.append_assoc, ← List.append_assoc, ← List.length_append, ← List.length_append,
        List.set_append_right _ _ le_rfl, Nat.sub_self, List.set_cons_zero, List.append_assoc,
        List.append_assoc]
    rw [if_pos hc0, if_neg hc0]
    refine .bind (store_gives (by omega) (by omega)) ?_
    rw [hset]
    exact .pure _

end Strtok

/-! ## The loop -/

/-- `rs` are the maximal runs of `l`, in order, and each of them is the string at its start in
the buffer `final`, where `l` starts at `off`. -/
structure Lists (delimiters l final : c_string) (off : ℕ) (rs : List (ℕ × ℕ)) : Prop where
  order : rs.Pairwise fun r r' => r.1 < r'.1
  runs : ∀ a b, (a, b) ∈ rs ↔ MaximalRun (is_delimiter delimiters) l a b
  strings : ∀ r ∈ rs, c_string_at final (off + r.1) = (l.take r.2).drop r.1
  count : rs.length = (tokens (is_delimiter delimiters) l).length

section Loop

variable {delimiters sl t l pre rest final : c_string} {mem : List UInt8} {d : UInt8}
  {n s N off : ℕ}
  {start save_ptr : Option ℕ}

theorem store_arg_eq {done free : List (Option ℕ)} (f p : Option ℕ) :
    store_arg (done ++ f :: free) done.length p = .ok (done ++ p :: free) := by
  unfold store_arg
  rw [if_pos (by simp)]
  congr 1
  rw [List.set_append_right _ _ le_rfl, Nat.sub_self, List.set_cons_zero]

/-- Without a token, the null pointer is stored. -/
theorem parse_loop_none (hsl : Seps (is_delimiter delimiters) sl) (hz : 0 ∉ sl)
    (hat : At mem s (sl ++ [0])) (hstart : start.or save_ptr = some s) (hN : s + sl.length ≤ N)
    (done : List (Option ℕ)) (f : Option ℕ) (free : List (Option ℕ)) :
    Traced.Gives (Within N)
      (parse_loop delimiters (n + 1) mem start save_ptr done.length (done ++ f :: free))
      (done.length, done ++ none :: free, mem) := by
  unfold parse_loop
  refine .bind (strtok_r_none hsl hz hat hstart hN) ?_
  refine .bind (.lift (store_arg_eq f none)) ?_
  exact .pure _

/-- A token is stored, and the loop goes on behind it. -/
theorem parse_loop_some {c : UInt8} {r : ℕ × List (Option ℕ) × List UInt8}
    (hsl : Seps (is_delimiter delimiters) sl) (hzs : 0 ∉ sl)
    (ht : Token (is_delimiter delimiters) t) (hzt : 0 ∉ t) (hc : strchr delimiters c = true)
    (hstart : start.or save_ptr = some pre.length) (hN : pre.length + sl.length + t.length ≤ N)
    (done : List (Option ℕ)) (f : Option ℕ) (free : List (Option ℕ))
    (hrest : Traced.Gives (Within N) (parse_loop delimiters n (pre ++ (sl ++ (t ++ 0 :: l))) none
      (some (if c = 0 then pre.length + sl.length + t.length
        else pre.length + sl.length + t.length + 1))
      (done ++ [some (pre.length + sl.length)]).length
      ((done ++ [some (pre.length + sl.length)]) ++ free)) r) :
    Traced.Gives (Within N) (parse_loop delimiters (n + 1) (pre ++ (sl ++ (t ++ c :: l))) start
      save_ptr done.length (done ++ f :: free)) r := by
  unfold parse_loop
  refine .bind (strtok_r_some hsl hzs ht hzt hc hstart hN) ?_
  refine .bind (.lift (store_arg_eq f _)) ?_
  rw [List.length_append, List.length_singleton, List.append_assoc, List.singleton_append] at hrest
  exact hrest

/-- The part of a list between two places. -/
theorem part_token (sl t l : c_string) :
    ((sl ++ (t ++ l)).take (sl.length + t.length)).drop sl.length = t := by
  rw [← List.append_assoc, ← List.length_append, List.take_left, List.drop_left]

theorem part_behind (sl t l : c_string) (d : UInt8) (a b : ℕ) :
    ((sl ++ (t ++ d :: l)).take (sl.length + t.length + 1 + b)).drop (sl.length + t.length + 1 + a)
      = (l.take b).drop a := by
  have hlist : sl ++ (t ++ d :: l) = (sl ++ (t ++ [d])) ++ l := by simp
  have hlen : sl.length + t.length + 1 = (sl ++ (t ++ [d])).length := by
    simp
    omega
  rw [hlist, hlen, List.take_length_add_append, List.drop_length_add_append]

/-- No run in delimiters. -/
theorem lists_nil (hsl : Seps (is_delimiter delimiters) sl) : Lists delimiters sl final off [] := by
  refine ⟨.nil, ?_, by simp, by simp [tokens_seps hsl]⟩
  intro a b
  simp [not_maximalRun_seps hsl]

theorem lists_last (hsl : Seps (is_delimiter delimiters) sl)
    (ht : Token (is_delimiter delimiters) t) (hstring : c_string_at final (off + sl.length) = t) :
    Lists delimiters (sl ++ t) final off [(sl.length, sl.length + t.length)] := by
  refine ⟨List.pairwise_singleton _ _, ?_, ?_, ?_⟩
  · intro a b
    rw [maximalRun_last hsl ht]
    simp
  · intro r hr
    obtain rfl := List.mem_singleton.mp hr
    have hpart := part_token sl t []
    rw [List.append_nil] at hpart
    rw [hstring, hpart]
  · rw [tokens_seps_append hsl, tokens_token ht]
    rfl

theorem Lists.more {rs : List (ℕ × ℕ)} (hsl : Seps (is_delimiter delimiters) sl)
    (ht : Token (is_delimiter delimiters) t) (hd : is_delimiter delimiters d = true)
    (hstring : c_string_at final (off + sl.length) = t)
    (h : Lists delimiters l final (off + sl.length + t.length + 1) rs) :
    Lists delimiters (sl ++ (t ++ d :: l)) final off ((sl.length, sl.length + t.length)
      :: rs.map fun r => (sl.length + t.length + 1 + r.1, sl.length + t.length + 1 + r.2)) := by
  refine ⟨?_, ?_, ?_, ?_⟩
  · refine List.pairwise_cons.mpr ⟨?_, ?_⟩
    · intro r hr
      obtain ⟨r', -, rfl⟩ := List.mem_map.mp hr
      dsimp only
      omega
    · rw [List.pairwise_map]
      exact h.order.imp fun hlt => by dsimp only; omega
  · intro a b
    rw [maximalRun_more hsl ht hd, List.mem_cons, List.mem_map, Prod.mk.injEq]
    refine or_congr_right ⟨?_, ?_⟩
    · rintro ⟨⟨a', b'⟩, hmem, heq⟩
      cases heq
      exact ⟨a', b', rfl, rfl, (h.runs a' b').mp hmem⟩
    · rintro ⟨a', b', rfl, rfl, hrun⟩
      exact ⟨(a', b'), (h.runs a' b').mpr hrun, rfl⟩
  · intro r hr
    rcases List.mem_cons.mp hr with rfl | hmem
    · rw [hstring, part_token]
    · obtain ⟨r', hr', rfl⟩ := List.mem_map.mp hmem
      dsimp only
      rw [part_behind, ← h.strings r' hr']
      congr 1
      omega
  · rw [tokens_seps_append hsl, tokens_token_sep ht hd, List.length_cons, List.length_cons,
      List.length_map, h.count]

/-- **The loop** stores the starts of the runs, and the null pointer behind them. -/
theorem parse_loop_gives (delimiters rest l : c_string) :
    ∀ (pre : c_string) (n : ℕ) (start save_ptr : Option ℕ) (done free : List (Option ℕ)),
      start.or save_ptr = some pre.length → 0 ∉ l → l.length < n → pre.length + l.length ≤ N →
      (tokens (is_delimiter delimiters) l).length < free.length →
      ∃ rs, Lists delimiters l
          (pre ++ (close_tokens (is_delimiter delimiters) 0 false l ++ 0 :: rest)) pre.length rs
        ∧ Traced.Gives (Within N) (parse_loop delimiters n (pre ++ (l ++ 0 :: rest)) start save_ptr
            done.length (done ++ free))
          (done.length + rs.length,
            done ++ ((rs.map fun r => some (pre.length + r.1)) ++ none :: free.drop
              (rs.length + 1)),
            pre ++ (close_tokens (is_delimiter delimiters) 0 false l ++ 0 :: rest)) := by
  induction l using token_induction (is_delimiter delimiters) with
  | seps sl hsl =>
      intro pre n start save_ptr done free hstart hz hn hN hfree
      obtain ⟨n, rfl⟩ : ∃ k, n = k + 1 := ⟨n - 1, by omega⟩
      have hne : free ≠ [] := List.ne_nil_of_length_pos (by omega)
      obtain ⟨f, free, rfl⟩ := List.exists_cons_of_ne_nil hne
      rw [close_tokens_seps hsl]
      exact ⟨[], lists_nil hsl, parse_loop_none hsl hz (at_string pre sl rest) hstart
        hN done f free⟩
  | last sl t hsl ht =>
      intro pre n start save_ptr done free hstart hz hn hN hfree
      have hzs : 0 ∉ sl := fun h => hz (List.mem_append_left t h)
      have hzt : 0 ∉ t := fun h => hz (List.mem_append_right sl h)
      have htpos := List.length_pos_of_ne_nil ht.ne_nil
      rw [List.length_append] at hn hN
      rw [tokens_seps_append hsl, tokens_token ht, List.length_singleton] at hfree
      obtain ⟨n, rfl⟩ : ∃ k, n = k + 2 := ⟨n - 2, by omega⟩
      have hne : free ≠ [] := List.ne_nil_of_length_pos (by omega)
      obtain ⟨f, free, rfl⟩ := List.exists_cons_of_ne_nil hne
      rw [List.length_cons] at hfree
      have hne : free ≠ [] := List.ne_nil_of_length_pos (by omega)
      obtain ⟨g, free, rfl⟩ := List.exists_cons_of_ne_nil hne
      rw [close_tokens_seps_append hsl, close_tokens_token ht, List.append_assoc]
      refine ⟨_, lists_last hsl ht (c_string_at_token hzt pre sl rest), ?_⟩
      -- the next turn starts at the null byte
      have hnull : At (pre ++ (sl ++ (t ++ 0 :: rest)))
          (pre.length + sl.length + t.length) [0] := by
        have h := at_string (pre ++ (sl ++ t)) [] rest
        simpa [Nat.add_assoc] using h
      have hnone : Seps (is_delimiter delimiters) [] := fun _ h => absurd h List.not_mem_nil
      have hbound : pre.length + sl.length + t.length ≤ N := by omega
      have hnext := parse_loop_some hsl hzs ht hzt (c := 0) (l := rest) rfl hstart hbound done f
        (g :: free) (parse_loop_none (n := n) hnone List.not_mem_nil hnull rfl hbound _ g free)
      simpa using hnext
  | more sl t d l hsl ht hd ih =>
      intro pre n start save_ptr done free hstart hz hn hN hfree
      obtain ⟨hzs, hzt, hzd, hzl⟩ := notMem_parts hz
      simp only [List.length_append, List.length_cons] at hn hN
      rw [tokens_seps_append hsl, tokens_token_sep ht hd, List.length_cons] at hfree
      obtain ⟨n, rfl⟩ : ∃ k, n = k + 1 := ⟨n - 1, by omega⟩
      have hne : free ≠ [] := List.ne_nil_of_length_pos (by omega)
      obtain ⟨f, free, rfl⟩ := List.exists_cons_of_ne_nil hne
      rw [List.length_cons] at hfree
      obtain ⟨rs, hrs, hrest⟩ := ih (pre ++ (sl ++ (t ++ [0]))) n none
        (some (pre.length + sl.length + t.length + 1))
        (done ++ [some (pre.length + sl.length)]) free
        (by rw [closed_length]; rfl) hzl (by omega) (by rw [closed_length]; omega) (by omega)
      rw [closed_length, closed_append, closed_append] at hrest
      rw [closed_length, closed_append] at hrs
      have hbound : pre.length + sl.length + t.length ≤ N := by omega
      have hnext := parse_loop_some hsl hzs ht hzt (strchr_of_delimiter hd) hstart
        hbound done f free (by rw [if_neg hzd]; exact hrest)
      rw [close_tokens_seps_append hsl, close_tokens_token_sep ht hd]
      simp only [List.append_assoc, List.cons_append]
      refine ⟨_, hrs.more hsl ht hd (c_string_at_token hzt pre sl _), ?_⟩
      have hptrs : (rs.map fun r => (sl.length + t.length + 1 + r.1,
          sl.length + t.length + 1 + r.2)).map (fun r => some (pre.length + r.1))
          = rs.map fun r => some (pre.length + sl.length + t.length + 1 + r.1) := by
        rw [List.map_map]
        apply List.map_congr_left
        intro r _
        simp only [Function.comp_apply, Option.some.injEq]
        omega
      rw [List.map_cons, hptrs, List.length_cons, List.length_map]
      have hcount : (done ++ [some (pre.length + sl.length)]).length + rs.length
          = done.length + (rs.length + 1) := by
        simp only [List.length_append, List.length_singleton]
        omega
      rw [hcount, List.append_assoc, List.singleton_append] at hnext
      exact hnext

end Loop

/-! ## The two functions -/

/-- What a call leaves of a string: `argv` gets the starts of the maximal parts without a
delimiter, in order, and a null pointer; the strings there are these parts; `argc` is their
number; and no byte behind the null byte of the string is read or written. -/
def Tokenised (x : Traced byte_event (ℕ × List (Option ℕ) × List UInt8)) (delimiter : UInt8)
    (target : c_string) (argv : List (Option ℕ)) : Prop :=
  ∃ (log : List byte_event) (rs : List (ℕ × ℕ)) (final : List UInt8),
    x = ⟨log, .ok (rs.length,
      (rs.map fun r => some r.1) ++ none :: argv.drop (rs.length + 1), final)⟩
    ∧ rs.Pairwise (fun r r' => r.1 < r'.1)
    ∧ (∀ a b, (a, b) ∈ rs ↔ MaximalRun (fun c => decide (c = delimiter)) target a b)
    ∧ (∀ r ∈ rs, c_string_at final r.1 = (target.take r.2).drop r.1)
    ∧ ∀ e ∈ log, e.addr ≤ target.length

section Functions

variable {target : c_string}

theorem parse_tokenised (hz : 0 ∉ target) (rest : c_string) (argv : List (Option ℕ))
    (delimiter : UInt8)
    (hfit : (tokens (fun c => decide (c = delimiter)) target).length < argv.length) :
    Tokenised (parse [delimiter] (target ++ 0 :: rest) argv) delimiter target argv := by
  have hdelim : is_delimiter [delimiter] = fun c => decide (c = delimiter) := by
    funext c
    simp [is_delimiter]
  unfold Tokenised
  rw [← hdelim] at hfit ⊢
  obtain ⟨rs, hrs, hgives⟩ := parse_loop_gives (N := target.length) [delimiter] rest target []
    ((target ++ 0 :: rest).length + 1) (some 0) none [] argv rfl hz
    (by rw [List.length_append, List.length_cons]; omega) (by simp) hfit
  simp only [List.length_nil, Nat.zero_add, List.nil_append] at hrs hgives
  have hstrings := hrs.strings
  simp only [Nat.zero_add] at hstrings
  have hsafe := hgives.safe
  have hresult := hgives.result
  cases hrun : parse_loop [delimiter] ((target ++ 0 :: rest).length + 1) (target ++ 0 :: rest)
      (some 0) none 0 argv with
  | mk log result =>
      rw [hrun] at hsafe hresult
      change result = _ at hresult
      subst hresult
      exact ⟨log, rs, _, hrun, hrs.order, hrs.runs, hstrings, hsafe⟩

/-- **Both functions cut a string into its components**, whatever is behind it in memory, if
`argv` has room for them. -/
theorem parse_path_and_args_tokenise (hz : 0 ∉ target) (rest : c_string) (argv : List (Option ℕ)) :
    ((tokens (fun c => decide (c = SLASH)) target).length < argv.length →
      Tokenised (parse_path (target ++ 0 :: rest) argv) SLASH target argv)
    ∧ ((tokens (fun c => decide (c = 32)) target).length < argv.length →
      Tokenised (parse_args (target ++ 0 :: rest) argv) 32 target argv) :=
  ⟨parse_tokenised hz rest argv SLASH, parse_tokenised hz rest argv 32⟩

/-- The path `/a//bc` has the components at 1 and at 4, also as a command line without spaces. -/
theorem slashes_tokenised :
    Tokenised (parse_path [47, 97, 47, 47, 98, 99, 0, 7] [none, none, none]) SLASH
      [47, 97, 47, 47, 98, 99] [none, none, none]
    ∧ (parse_path [47, 97, 47, 47, 98, 99, 0, 7] [none, none, none]).result
      = .ok (2, [some 1, some 4, none], [47, 97, 0, 47, 98, 99, 0, 7])
    ∧ Tokenised (parse_args [47, 97, 47, 47, 98, 99, 0, 7] [none, none, none]) 32
      [47, 97, 47, 47, 98, 99] [none, none, none] := by
  have hz : (0 : UInt8) ∉ ([47, 97, 47, 47, 98, 99] : c_string) := by decide
  have h := parse_path_and_args_tokenise hz [7] [none, none, none]
  exact ⟨h.1 (by decide), by decide, h.2 (by decide)⟩

end Functions

end Pintos.tokenise
