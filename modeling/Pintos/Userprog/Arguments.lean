/-
Argument passing: the first stack of a program.

`parse_args` cuts the command line into words, in place. When the image is set up, `load` claims
one page below `USER_STACK` and fills it from above: the words, zeros up to a multiple of 8, a null
pointer, the addresses of the words, and a return address. `Holds` says what the page holds from
the stack pointer on; every store puts its bytes in front of that.
-/
import Pintos.Filesys.PathBuffer
import Pintos.Vm.Permissions
import Pintos.Vm.StackGrowth

set_option autoImplicit false

namespace Pintos

namespace arguments

/-! ## The code -/

/-- The delimiters of `parse_args`. -/
def ARGS_DELIMITERS : c_string := [32]

/-- `parse_args`, with the pointers it stores in `argv`. -/
def parse_args (target : List UInt8) : Outcome (List ℕ × List UInt8) :=
  strtok_loop ARGS_DELIMITERS (target.length + 1) target 0 []

/-- The bottom of the first page of the stack. -/
def STACK_BOTTOM : ℕ := USER_STACK - PGSIZE

/-- `setup_stack`, without the assignment to `rsp`. -/
def setup_stack (s : vm) (t : ℕ) : Outcome (Bool × vm) := do
  let (done, s) := vm_alloc_page_with_initializer s t .VM_ANON STACK_BOTTOM true none .null
  if done then vm_claim_page s t STACK_BOTTOM else return (false, s)

/-- A store by the kernel to user memory that the page table lets through. -/
def store_byte (s : vm) (t addr : ℕ) (b : UInt8) : Outcome vm :=
  match pte_allows s t addr true with
  | some e => .ok ((s.set_mem e.kva (Function.update (s.mem e.kva) (pg_ofs addr) b)).set_pte t
      (pg_round_down addr) { e with accessed := true, dirty := true })
  | none => .undefined

/-- `memcpy` and `memset` to user memory. -/
def store_bytes (t : ℕ) : List UInt8 → vm → ℕ → Outcome vm
  | [], s, _ => .ok s
  | b :: bs, s, addr => do
      let s ← store_byte s t addr b
      store_bytes t bs s (addr + 1)

/-- A word of 64 bits in memory. -/
def word_bytes (w : ℕ) : List UInt8 := (List.range 8).map (byteOf w)

/-- The first loop of the argument passing, over the words from the last on. -/
def push_strings (t : ℕ) : List c_string → vm → ℕ → List ℕ → Outcome (ℕ × List ℕ × vm)
  | [], s, rsp, rsp_arr => .ok (rsp, rsp_arr, s)
  | w :: ws, s, rsp, rsp_arr => do
      let rsp := rsp - (w.length + 1)
      let s ← store_bytes t (w ++ [0]) s rsp
      push_strings t ws s rsp (rsp :: rsp_arr)

/-- `while (rsp % 8 != 0)`. -/
def align_stack (t : ℕ) : ℕ → vm → ℕ → Outcome (ℕ × vm)
  | 0, _, _ => .diverge
  | fuel + 1, s, rsp =>
      if rsp % 8 ≠ 0 then do
        let rsp := rsp - 1
        let s ← store_byte s t rsp 0
        align_stack t fuel s rsp
      else .ok (rsp, s)

/-- The last loop, over the addresses from the last on. -/
def push_pointers (t : ℕ) : List ℕ → vm → ℕ → Outcome (ℕ × vm)
  | [], s, rsp => .ok (rsp, s)
  | p :: ps, s, rsp => do
      let rsp := rsp - 8
      let s ← store_bytes t (word_bytes p) s rsp
      push_pointers t ps s rsp

/-- The registers that `load` sets. -/
structure intr_frame where
  rsp : ℕ
  rdi : ℕ
  rsi : ℕ
  deriving DecidableEq, Repr

/-- The end of `load`. -/
def pass_arguments (s : vm) (t : ℕ) (argv : List c_string) : Outcome (intr_frame × vm) := do
  let (rsp, rsp_arr, s) ← push_strings t argv.reverse s USER_STACK []
  let (rsp, s) ← align_stack t 8 s rsp
  let rsp := rsp - 8
  let s ← store_bytes t (List.replicate 8 0) s rsp
  let (rsp, s) ← push_pointers t rsp_arr.reverse s rsp
  let rsp := rsp - 8
  let s ← store_bytes t (List.replicate 8 0) s rsp
  return ({ rsp := rsp, rdi := argv.length, rsi := rsp + 8 }, s)

/-- `load`, with `image` for what lies between `parse_args` and `setup_stack`: opening the file and
entering the segments. The buffer is not written to in between. -/
def load (image : List UInt8 → vm → Outcome (Bool × vm)) (s : vm) (t : ℕ) (file_name : List UInt8) :
    Outcome (Option intr_frame × vm) := do
  let (argv, file_name) ← parse_args file_name
  let (done, s) ← image file_name s
  if done then
    let (done, s) ← setup_stack s t
    if done then
      let (if_, s) ← pass_arguments s t (argv.map (c_string_at file_name))
      return (some if_, s)
    else return (none, s)
  else return (none, s)

/-! ## The words -/

section Words

/-- The words of a command line. -/
def words (line : c_string) : List c_string := tokens (is_delimiter ARGS_DELIMITERS) line

/-- The strings one after the other, each with its null byte. -/
def strings (argv : List c_string) : List UInt8 := argv.flatMap fun w => w ++ [0]

@[simp] theorem strings_nil : strings [] = [] := rfl

@[simp] theorem strings_cons (w : c_string) (argv : List c_string) :
    strings (w :: argv) = w ++ 0 :: strings argv := by
  simp [strings]

theorem strings_append (argv argv' : List c_string) :
    strings (argv ++ argv') = strings argv ++ strings argv' := List.flatMap_append

/-- The words and their null bytes take no more room than the line and its null byte. -/
theorem strings_length_le (line : c_string) :
    (strings (words line)).length ≤ line.length + 1 := by
  unfold words
  induction line using token_induction (is_delimiter ARGS_DELIMITERS) with
  | seps sl hsl =>
      rw [tokens_seps hsl]
      exact Nat.zero_le _
  | last sl t hsl ht =>
      rw [tokens_seps_append hsl, tokens_token ht]
      simp
  | more sl t d l hsl ht hd ih =>
      rw [tokens_seps_append hsl, tokens_token_sep ht hd]
      simp only [strings_cons, List.length_append, List.length_cons] at ih ⊢
      omega

/-- At least one byte and a null byte for every word. -/
theorem two_words_le {argv : List c_string} (h : ∀ w ∈ argv, w ≠ []) :
    2 * argv.length ≤ (strings argv).length := by
  induction argv with
  | nil => exact le_rfl
  | cons w argv ih =>
      have hw := List.length_pos_of_ne_nil (h w List.mem_cons_self)
      have hrest := ih fun x hx => h x (List.mem_cons_of_mem _ hx)
      simp only [strings_cons, List.length_append, List.length_cons]
      omega

theorem word_ne_nil {line w : c_string} (h : w ∈ words line) : w ≠ [] := by
  unfold words tokens at h
  have hne := (List.mem_filter.mp h).2
  rintro rfl
  cases hne

theorem word_null_free {line : c_string} (hz : 0 ∉ line) {w : c_string}
    (h : w ∈ words line) : 0 ∉ w := by
  unfold words at h
  induction line using token_induction (is_delimiter ARGS_DELIMITERS) with
  | seps sl hsl =>
      rw [tokens_seps hsl] at h
      cases h
  | last sl t hsl ht =>
      rw [tokens_seps_append hsl, tokens_token ht, List.mem_singleton] at h
      rw [h]
      exact fun hmem => hz (List.mem_append_right sl hmem)
  | more sl t d l hsl ht hd ih =>
      rw [tokens_seps_append hsl, tokens_token_sep ht hd, List.mem_cons] at h
      rcases h with rfl | h
      · exact fun hmem => hz (by simp [hmem])
      · exact ih (fun hmem => hz (by simp [hmem])) h

/-- `parse_args` finds the words. -/
theorem parse_args_eq {line : c_string} (rest : c_string) (hz : 0 ∉ line)
    (hwords : (words line).length < 128) :
    ∃ argv buffer, parse_args (line ++ 0 :: rest) = .ok (argv, buffer)
      ∧ argv.map (c_string_at buffer) = words line := by
  have h := strtok_loop_eq ARGS_DELIMITERS rest line [] ((line ++ 0 :: rest).length + 1) [] hz
    (by rw [List.length_append]; omega)
  unfold ParsesTo at h
  have hfit : ([] : List ℕ).length + (tokens (is_delimiter ARGS_DELIMITERS) line).length < 128 := by
    rw [List.length_nil, Nat.zero_add]
    exact hwords
  rw [if_pos hfit] at h
  obtain ⟨ptrs, hrun, hmap⟩ := h
  exact ⟨_, _, hrun, hmap⟩

end Words

/-! ## Stores -/

section Stack

variable {s s' : vm} {t kva : ℕ} {l : List UInt8}

/-- The page of the stack is in the frame at `kva`, and may be written. -/
def StackPage (s : vm) (t kva : ℕ) : Prop :=
  ∃ e, s.pte_at t STACK_BOTTOM = some e ∧ e.present = true ∧ e.writable = true ∧ e.kva = kva

/-- From `USER_STACK - l.length` on, the page of the stack holds `l`. -/
structure Holds (s : vm) (t kva : ℕ) (l : List UInt8) : Prop where
  page : StackPage s t kva
  fits : l.length ≤ PGSIZE
  bytes : ∀ {k b}, l[k]? = some b → s.mem kva (PGSIZE - l.length + k) = b

/-- An address in the page. -/
theorem stack_address {n : ℕ} (hpos : 0 < n) (hn : n ≤ PGSIZE) :
    pg_round_down (USER_STACK - n) = STACK_BOTTOM ∧ pg_ofs (USER_STACK - n) = PGSIZE - n := by
  unfold pg_round_down pg_ofs STACK_BOTTOM USER_STACK PGSIZE at *
  omega

/-- One byte. -/
theorem store_byte_ok (h : StackPage s t kva) {n : ℕ} (hpos : 0 < n) (hn : n ≤ PGSIZE) (b : UInt8) :
    ∃ s', store_byte s t (USER_STACK - n) b = .ok s' ∧ StackPage s' t kva
      ∧ s'.mem kva = Function.update (s.mem kva) (PGSIZE - n) b := by
  obtain ⟨e, he, hpresent, hwritable, rfl⟩ := h
  obtain ⟨hround, hofs⟩ := stack_address hpos hn
  have hallows : pte_allows s t (USER_STACK - n) true = some e := by
    unfold pte_allows
    rw [hround, he]
    simp [hpresent, hwritable]
  have hrun : store_byte s t (USER_STACK - n) b
      = .ok ((s.set_mem e.kva (Function.update (s.mem e.kva) (PGSIZE - n) b)).set_pte t STACK_BOTTOM
          { e with accessed := true, dirty := true }) := by
    unfold store_byte
    rw [hallows, hround, hofs]
  refine ⟨_, hrun, ⟨{ e with accessed := true, dirty := true }, ?_, hpresent, hwritable, rfl⟩, ?_⟩
  · rw [vm.pte_at_set_pte, if_pos ⟨rfl, rfl⟩]
  · exact Function.update_self _ _ _

/-- A row of bytes, from the lowest address on. -/
theorem store_bytes_ok (bs : List UInt8) : ∀ {s : vm} {n : ℕ}, StackPage s t kva → bs.length ≤ n →
    n ≤ PGSIZE → ∃ s', store_bytes t bs s (USER_STACK - n) = .ok s' ∧ StackPage s' t kva
      ∧ (∀ {k b}, bs[k]? = some b → s'.mem kva (PGSIZE - n + k) = b)
      ∧ ∀ o, o < PGSIZE - n ∨ PGSIZE - n + bs.length ≤ o → s'.mem kva o = s.mem kva o := by
  induction bs with
  | nil =>
      intro s n h _ _
      refine ⟨s, rfl, h, fun {k b} hk => ?_, fun _ _ => rfl⟩
      cases hk
  | cons b bs ih =>
      intro s n h hlen hn
      rw [List.length_cons] at hlen
      obtain ⟨s₁, hs₁, h₁, hmem₁⟩ := store_byte_ok h (by omega) hn b
      have hnext : USER_STACK - n + 1 = USER_STACK - (n - 1) := by
        unfold USER_STACK PGSIZE at *
        omega
      have hofs : PGSIZE - (n - 1) = PGSIZE - n + 1 := by omega
      obtain ⟨s', hs', h', hin, hout⟩ := ih (n := n - 1) h₁ (by omega) (by omega)
      rw [hofs] at hin hout
      refine ⟨s', ?_, h', fun {k b'} hk => ?_, fun o ho => ?_⟩
      · rw [store_bytes, hs₁, Outcome.ok_bind, hnext]
        exact hs'
      · cases k with
        | zero =>
            obtain rfl := Option.some.inj hk
            rw [Nat.add_zero, hout _ (.inl (Nat.lt_succ_self _)), hmem₁, Function.update_self]
        | succ k =>
            have hk' : s'.mem kva (PGSIZE - n + 1 + k) = b' := hin hk
            rw [← hk']
            congr 1
            omega
      · rw [List.length_cons] at ho
        rw [hout o (by omega), hmem₁, Function.update_of_ne (by omega)]

/-- **A push.** What was stored before stays behind it. -/
theorem Holds.push (h : Holds s t kva l) (bs : List UInt8) (hfit : bs.length + l.length ≤ PGSIZE) :
    ∃ s', store_bytes t bs s (USER_STACK - (bs ++ l).length) = .ok s'
      ∧ Holds s' t kva (bs ++ l) := by
  have hlen : (bs ++ l).length = bs.length + l.length := List.length_append
  obtain ⟨s', hs', h', hin, hout⟩ := store_bytes_ok bs h.page (Nat.le_add_right _ l.length) hfit
  rw [hlen]
  refine ⟨s', hs', h', by rw [hlen]; exact hfit, fun {k b} hk => ?_⟩
  rw [hlen]
  by_cases hlt : k < bs.length
  · rw [List.getElem?_append_left hlt] at hk
    exact hin hk
  · rw [List.getElem?_append_right (by omega)] at hk
    have hold := h.bytes hk
    rw [hout _ (by omega), ← hold]
    congr 1
    omega

/-- The stack pointer after a push. -/
theorem pushed_rsp (n : ℕ) (l : List UInt8) :
    USER_STACK - l.length - n = USER_STACK - (n + l.length) := by
  rw [Nat.sub_sub, Nat.add_comm]

/-! ## The loops -/

/-- Where the strings are: each at the end of what lies above it. -/
def places : List c_string → List ℕ
  | [] => []
  | w :: ws => (USER_STACK - (strings (w :: ws)).length) :: places ws

/-- **The strings** are pushed from the last on. -/
theorem push_strings_ok (todo : List c_string) : ∀ {s : vm} {ready : List c_string},
    Holds s t kva (strings ready) → (strings (todo.reverse ++ ready)).length ≤ PGSIZE →
    ∃ s', push_strings t todo s (USER_STACK - (strings ready).length) (places ready)
        = .ok (USER_STACK - (strings (todo.reverse ++ ready)).length,
          places (todo.reverse ++ ready), s')
      ∧ Holds s' t kva (strings (todo.reverse ++ ready)) := by
  induction todo with
  | nil =>
      intro s ready h _
      exact ⟨s, rfl, h⟩
  | cons w ws ih =>
      intro s ready h hfit
      have hcat : (w :: ws).reverse ++ ready = ws.reverse ++ w :: ready := by simp
      have hblock : (w ++ [0]) ++ strings ready = strings (w :: ready) := by simp
      have hlen : (w ++ [0]).length = w.length + 1 := by simp
      rw [hcat] at hfit ⊢
      have hroom : (w ++ [0]).length + (strings ready).length ≤ PGSIZE := by
        rw [strings_append, List.length_append, ← hblock, List.length_append] at hfit
        omega
      obtain ⟨s₁, hs₁, h₁⟩ := h.push (w ++ [0]) hroom
      rw [hblock] at hs₁ h₁
      have hrsp : USER_STACK - (strings ready).length - (w.length + 1)
          = USER_STACK - (strings (w :: ready)).length := by
        rw [pushed_rsp, ← hblock, List.length_append, hlen]
      rw [push_strings, hrsp, hs₁, Outcome.ok_bind]
      exact ih h₁ hfit

/-- The padding. -/
theorem align_stack_ok (fuel : ℕ) : ∀ {s : vm} {l : List UInt8}, Holds s t kva l →
    (8 - l.length % 8) % 8 < fuel → l.length + fuel ≤ PGSIZE →
    ∃ n s', align_stack t fuel s (USER_STACK - l.length)
        = .ok (USER_STACK - (List.replicate n 0 ++ l).length, s')
      ∧ Holds s' t kva (List.replicate n 0 ++ l)
      ∧ (List.replicate n (0 : UInt8) ++ l).length % 8 = 0
      ∧ n < fuel := by
  induction fuel with
  | zero =>
      intro s l _ hpad
      exact absurd hpad (Nat.not_lt_zero _)
  | succ fuel ih =>
      intro s l h hpad hroom
      rw [align_stack]
      have hmod : (USER_STACK - l.length) % 8 = 0 ↔ l.length % 8 = 0 := by
        have := h.fits
        unfold USER_STACK PGSIZE at *
        omega
      by_cases hal : l.length % 8 = 0
      · rw [if_neg (not_not.mpr (hmod.mpr hal))]
        exact ⟨0, s, rfl, h, hal, Nat.succ_pos fuel⟩
      · rw [if_pos fun hzero => hal (hmod.mp hzero)]
        obtain ⟨s₁, hs₁, h₁⟩ := h.push [0] (by rw [List.length_singleton]; omega)
        have hrsp : USER_STACK - l.length - 1 = USER_STACK - ([0] ++ l : List UInt8).length := by
          rw [pushed_rsp, List.length_append, List.length_singleton]
        have hone : store_byte s t (USER_STACK - ([0] ++ l : List UInt8).length) 0 = .ok s₁ := by
          rw [store_bytes] at hs₁
          obtain ⟨s₂, hs₂, hend⟩ := Outcome.bind_eq_ok.mp hs₁
          obtain rfl := Outcome.ok.inj hend
          exact hs₂
        have hlen : ([0] ++ l : List UInt8).length = l.length + 1 := by simp
        obtain ⟨n, s', hrun, h', hzero, hn⟩ := ih h₁ (by rw [hlen]; omega) (by rw [hlen]; omega)
        have hcat : List.replicate n (0 : UInt8) ++ ([0] ++ l) = List.replicate (n + 1) 0 ++ l := by
          rw [List.replicate_succ', List.append_assoc]
        rw [hcat] at hrun h' hzero
        refine ⟨n + 1, s', ?_, h', hzero, Nat.succ_lt_succ hn⟩
        dsimp only
        rw [hrsp, hone, Outcome.ok_bind]
        exact hrun

@[simp] theorem length_word_bytes (w : ℕ) : (word_bytes w).length = 8 := by
  simp [word_bytes]

/-- The words of 64 bits one after the other. -/
def pointers (ps : List ℕ) : List UInt8 := ps.flatMap word_bytes

@[simp] theorem pointers_nil : pointers [] = [] := rfl

@[simp] theorem pointers_cons (p : ℕ) (ps : List ℕ) : pointers (p :: ps)
    = word_bytes p ++ pointers ps := by
  simp [pointers]

theorem pointers_append (ps qs : List ℕ) : pointers (ps ++ qs) = pointers ps ++ pointers qs :=
  List.flatMap_append

@[simp] theorem length_pointers (ps : List ℕ) : (pointers ps).length = 8 * ps.length := by
  induction ps with
  | nil => rfl
  | cons p ps ih =>
      rw [pointers_cons, List.length_append, ih, length_word_bytes, List.length_cons]
      omega

/-- **The addresses** are pushed from the last on. -/
theorem push_pointers_ok (ps : List ℕ) : ∀ {s : vm} {l : List UInt8}, Holds s t kva l →
    8 * ps.length + l.length ≤ PGSIZE →
    ∃ s', push_pointers t ps s (USER_STACK - l.length)
        = .ok (USER_STACK - (pointers ps.reverse ++ l).length, s')
      ∧ Holds s' t kva (pointers ps.reverse ++ l) := by
  induction ps with
  | nil =>
      intro s l h _
      exact ⟨s, rfl, h⟩
  | cons p ps ih =>
      intro s l h hfit
      rw [List.length_cons] at hfit
      obtain ⟨s₁, hs₁, h₁⟩ := h.push (word_bytes p) (by rw [length_word_bytes]; omega)
      have hrsp : USER_STACK - l.length - 8 = USER_STACK - (word_bytes p ++ l).length := by
        rw [pushed_rsp, List.length_append, length_word_bytes]
      obtain ⟨s', hrun, h'⟩ := ih h₁ (by rw [List.length_append, length_word_bytes]; omega)
      have hcat : pointers ps.reverse ++ (word_bytes p ++ l) = pointers (p :: ps).reverse ++ l := by
        rw [List.reverse_cons, pointers_append, pointers_cons, pointers_nil, List.append_nil,
          List.append_assoc]
      rw [hcat] at hrun h'
      refine ⟨s', ?_, h'⟩
      rw [push_pointers, hrsp, hs₁, Outcome.ok_bind]
      exact hrun

/-! ## The end of `load` -/

/-- What user code reads from `a` on. -/
def Reads (s : vm) (t a : ℕ) (l : List UInt8) : Prop :=
  ∀ {k b}, l[k]? = some b → ∃ e, pte_allows s t (a + k) false = some e
    ∧ s.mem e.kva (pg_ofs (a + k)) = b

/-- A part of the stack, by what lies above it. -/
theorem Holds.reads {pre post : List UInt8} (h : Holds s t kva (pre ++ (l ++ post))) :
    Reads s t (USER_STACK - (l ++ post).length) l := by
  intro k b hk
  have hfits := h.fits
  have hlt : k < l.length := (List.getElem?_eq_some_iff.mp hk).1
  obtain ⟨e, he, hpresent, -, rfl⟩ := h.page
  have hat : (pre ++ (l ++ post))[pre.length + k]? = some b := by
    rw [List.getElem?_append_right (Nat.le_add_right _ _), Nat.add_sub_cancel_left,
      List.getElem?_append_left hlt]
    exact hk
  have hbyte := h.bytes hat
  simp only [List.length_append] at hfits hbyte ⊢
  have haddr : USER_STACK - (l.length + post.length) + k
      = USER_STACK - (l.length + post.length - k) := by
    unfold USER_STACK PGSIZE at *
    omega
  obtain ⟨hround, hofs⟩ := stack_address (n := l.length + post.length - k) (by omega) (by omega)
  refine ⟨e, ?_, ?_⟩
  · unfold pte_allows
    rw [haddr, hround, he]
    simp [hpresent]
  · rw [haddr, hofs, ← hbyte]
    congr 1
    omega

/-- **The first stack**: the words, apart from each other and from the array of their addresses, all
between the stack pointer and `USER_STACK`, in the one page. -/
structure Passed (s : vm) (t : ℕ) (if_ : intr_frame) (argv : List c_string) : Prop where
  argc : if_.rdi = argv.length
  array : if_.rsi = if_.rsp + 8
  aligned : if_.rsp % 8 = 0
  in_page : STACK_BOTTOM ≤ if_.rsp
  null : Reads s t (if_.rsi + 8 * argv.length) (List.replicate 8 0)
  pointers : ∃ ptrs : List ℕ, ptrs.length = argv.length
    ∧ (∀ {i p : ℕ}, ptrs[i]? = some p → Reads s t (if_.rsi + 8 * i) (word_bytes p))
    ∧ (∀ {i p : ℕ} {w : c_string}, ptrs[i]? = some p → argv[i]? = some w → 0 ∉ w
      ∧ Reads s t p (w ++ [0])
      ∧ if_.rsi + 8 * (argv.length + 1) ≤ p ∧ p + (w.length + 1) ≤ USER_STACK)
    ∧ ∀ {i j p q : ℕ} {w : c_string}, i < j → ptrs[i]? = some p → argv[i]? = some w
      → ptrs[j]? = some q → p + (w.length + 1) ≤ q

@[simp] theorem length_places (argv : List c_string) : (places argv).length = argv.length := by
  induction argv with
  | nil => rfl
  | cons w argv ih => rw [places, List.length_cons, List.length_cons, ih]

/-- Where one address of the array lies. -/
theorem pointers_split (ps : List ℕ) : ∀ {i p : ℕ}, ps[i]? = some p →
    ∃ pre post, pointers ps = pre ++ (word_bytes p ++ post) ∧ pre.length = 8 * i := by
  induction ps with
  | nil =>
      intro i p h
      cases h
  | cons q ps ih =>
      intro i p h
      cases i with
      | zero =>
          obtain rfl := Option.some.inj h
          exact ⟨[], pointers ps, pointers_cons q ps, rfl⟩
      | succ i =>
          obtain ⟨pre, post, heq, hlen⟩ := ih h
          refine ⟨word_bytes q ++ pre, post, ?_, ?_⟩
          · rw [pointers_cons, heq, List.append_assoc]
          · rw [List.length_append, length_word_bytes, hlen]
            omega

/-- Where one string lies. -/
theorem strings_split (argv : List c_string) : ∀ {i p : ℕ} {w : c_string},
    (places argv)[i]? = some p →
    argv[i]? = some w → ∃ pre post, strings argv = pre ++ ((w ++ [0]) ++ post)
      ∧ p = USER_STACK - ((w ++ [0]) ++ post).length := by
  induction argv with
  | nil =>
      intro i p w h
      cases h
  | cons v argv ih =>
      intro i p w hp hw
      cases i with
      | zero =>
          obtain rfl := Option.some.inj hp
          obtain rfl := Option.some.inj hw
          exact ⟨[], strings argv, by simp, by simp⟩
      | succ i =>
          obtain ⟨pre, post, heq, hplace⟩ := ih hp hw
          refine ⟨v ++ 0 :: pre, post, ?_, hplace⟩
          rw [strings_cons, heq]
          simp

theorem places_ge {argv : List c_string} {q : ℕ} (h : q ∈ places argv) :
    USER_STACK - (strings argv).length ≤ q := by
  induction argv with
  | nil => cases h
  | cons w argv ih =>
      rw [places, List.mem_cons] at h
      rcases h with rfl | h
      · exact le_rfl
      · have hrest := ih h
        simp only [strings_cons, List.length_append, List.length_cons]
        omega

/-- The strings lie apart. -/
theorem places_apart (argv : List c_string) (hfit : (strings argv).length ≤ USER_STACK) :
    ∀ {i j p q : ℕ} {w : c_string}, i < j → (places argv)[i]? = some p → argv[i]? = some w →
      (places argv)[j]? = some q → p + (w.length + 1) ≤ q := by
  induction argv with
  | nil =>
      intro i j p q w _ h
      cases h
  | cons v argv ih =>
      intro i j p q w hij hp hw hq
      simp only [strings_cons, List.length_append, List.length_cons] at hfit
      cases j with
      | zero => exact absurd hij (Nat.not_lt_zero i)
      | succ j =>
          cases i with
          | zero =>
              obtain rfl := Option.some.inj hp
              obtain rfl := Option.some.inj hw
              have hq' : (places argv)[j]? = some q := hq
              have hge := places_ge (List.mem_of_getElem? hq')
              have hlen : (strings (v :: argv)).length
                  = v.length + ((strings argv).length + 1) := by
                simp
              show USER_STACK - (strings (v :: argv)).length + (v.length + 1) ≤ q
              rw [hlen]
              omega
          | succ i => exact ih (by omega) (Nat.lt_of_succ_lt_succ hij) hp hw hq

/-- **`pass_arguments`** on the page of the stack. -/
theorem pass_arguments_ok {argv : List c_string} (h : StackPage s t kva) (hnull : ∀ w ∈ argv, 0 ∉ w)
    (hfit : (strings argv).length + 8 * argv.length + 24 ≤ PGSIZE) :
    ∃ if_ s', pass_arguments s t argv = .ok (if_, s') ∧ Passed s' t if_ argv := by
  have h₀ : Holds s t kva (strings []) := ⟨h, Nat.zero_le _, fun hk => by cases hk⟩
  obtain ⟨s₁, hs₁, h₁⟩ := push_strings_ok argv.reverse h₀ (by
    rw [List.reverse_reverse, List.append_nil]
    omega)
  rw [List.reverse_reverse, List.append_nil, strings_nil, List.length_nil, Nat.sub_zero,
    places] at hs₁
  rw [List.reverse_reverse, List.append_nil] at h₁
  obtain ⟨n, s₂, hs₂, h₂, hzero, hn⟩ := align_stack_ok 8 h₁ (Nat.mod_lt _ (by decide)) (by omega)
  have hlen₂ : (List.replicate n (0 : UInt8) ++ strings argv).length
      = n + (strings argv).length := by
    rw [List.length_append, List.length_replicate]
  generalize hupper : List.replicate n (0 : UInt8) ++ strings argv = upper at hs₂ h₂ hzero hlen₂
  obtain ⟨s₃, hs₃, h₃⟩ := h₂.push (List.replicate 8 0) (by rw [List.length_replicate]; omega)
  obtain ⟨s₄, hs₄, h₄⟩ := push_pointers_ok (places argv).reverse h₃ (by
    rw [List.length_reverse, length_places, List.length_append, List.length_replicate]
    omega)
  rw [List.reverse_reverse] at hs₄ h₄
  obtain ⟨s₅, hs₅, h₅⟩ := h₄.push (List.replicate 8 0) (by
    simp only [List.length_append, List.length_replicate, length_pointers, length_places]
    omega)
  have hrsp : ∀ l : List UInt8, USER_STACK - l.length - 8
      = USER_STACK - (List.replicate 8 (0 : UInt8) ++ l).length := by
    intro l
    rw [pushed_rsp, List.length_append, List.length_replicate]
  have hlen : ∀ l : List UInt8, (List.replicate 8 (0 : UInt8) ++ l).length = 8 + l.length := by
    intro l
    rw [List.length_append, List.length_replicate]
  have hptrs : (pointers (places argv)).length = 8 * argv.length := by
    rw [length_pointers, length_places]
  have htotal : (List.replicate 8 (0 : UInt8) ++ (pointers (places argv)
      ++ (List.replicate 8 0 ++ upper))).length = 16 + 8 * argv.length + upper.length := by
    rw [hlen, List.length_append, hptrs, hlen]
    omega
  have hstack : 16 + 8 * argv.length + upper.length ≤ PGSIZE := htotal ▸ h₅.fits
  refine ⟨{ rsp := USER_STACK - (16 + 8 * argv.length + upper.length), rdi := argv.length
            rsi := USER_STACK - (16 + 8 * argv.length + upper.length) + 8 }, s₅, ?_, rfl,
              rfl, ?_, ?_, ?_,
    places argv, length_places argv, fun {i p} hp => ?_,
    fun {i p w} hp hw => ?_, places_apart argv ?_⟩
  · unfold pass_arguments
    rw [hs₁, Outcome.ok_bind]
    dsimp only
    rw [hs₂, Outcome.ok_bind]
    dsimp only
    rw [hrsp, hs₃, Outcome.ok_bind, hs₄, Outcome.ok_bind]
    dsimp only
    rw [hrsp, hs₅, Outcome.ok_bind, htotal]
    rfl
  · show (USER_STACK - (16 + 8 * argv.length + upper.length)) % 8 = 0
    unfold USER_STACK PGSIZE at *
    omega
  · exact Nat.sub_le_sub_left hstack _
  · -- the null pointer behind the addresses
    have hat : USER_STACK - (16 + 8 * argv.length + upper.length) + 8 + 8 * argv.length
        = USER_STACK - (List.replicate 8 (0 : UInt8) ++ upper).length := by
      rw [hlen]
      unfold USER_STACK PGSIZE at *
      omega
    show Reads s₅ t (USER_STACK - (16 + 8 * argv.length + upper.length) + 8 + 8 * argv.length) _
    rw [hat]
    rw [← List.append_assoc] at h₅
    exact h₅.reads
  · obtain ⟨pre, post, hsplit, hpre⟩ := pointers_split (places argv) hp
    have hpost : pre.length + (8 + post.length) = 8 * argv.length := by
      rw [← hptrs, hsplit, List.length_append, List.length_append, length_word_bytes]
    have hat : USER_STACK - (16 + 8 * argv.length + upper.length) + 8 + 8 * i
        = USER_STACK - (word_bytes p ++ (post ++ (List.replicate 8 0 ++ upper))).length := by
      rw [List.length_append, length_word_bytes, List.length_append, hlen]
      unfold USER_STACK PGSIZE at *
      omega
    show Reads s₅ t (USER_STACK - (16 + 8 * argv.length + upper.length) + 8 + 8 * i) _
    rw [hat]
    rw [hsplit, List.append_assoc, List.append_assoc,
      ← List.append_assoc (List.replicate 8 0)] at h₅
    exact h₅.reads
  · obtain ⟨pre, post, hsplit, hplace⟩ := strings_split argv hp hw
    have hupper' : upper = List.replicate n 0 ++ (pre ++ ((w ++ [0]) ++ post)) := by
      rw [← hupper, hsplit]
    have hlen' : upper.length = n + (pre.length + (w.length + 1 + post.length)) := by
      rw [hupper']
      simp only [List.length_append, List.length_replicate, List.length_singleton]
    have hpost : ((w ++ [0]) ++ post).length = w.length + 1 + post.length := by
      rw [List.length_append, List.length_append, List.length_singleton]
    refine ⟨hnull w (List.mem_of_getElem? hw), ?_, ?_, ?_⟩
    · rw [hplace]
      rw [hupper'] at h₅
      have h₆ : Holds s₅ t kva ((List.replicate 8 0 ++ (pointers (places argv)
          ++ (List.replicate 8 0 ++ (List.replicate n 0 ++ pre)))) ++ ((w ++ [0]) ++ post)) := by
        simpa only [List.append_assoc] using h₅
      intro k b hk
      exact h₆.reads hk
    · show USER_STACK - (16 + 8 * argv.length + upper.length) + 8 + 8 * (argv.length + 1) ≤ p
      rw [hplace, hpost]
      unfold USER_STACK PGSIZE at *
      omega
    · rw [hplace, hpost]
      unfold USER_STACK PGSIZE at *
      omega
  · unfold PGSIZE USER_STACK at *
    omega

/-- **`setup_stack`** claims a page that may be written. -/
theorem setup_stack_page (hrun : setup_stack s t = .ok (true, s')) : ∃ kva, StackPage s' t kva := by
  unfold setup_stack at hrun
  generalize halloc : vm_alloc_page_with_initializer s t .VM_ANON STACK_BOTTOM true none
    .null = x at hrun
  obtain ⟨ready, s₁⟩ := x
  dsimp only at hrun
  rcases vm_alloc_page_cases halloc with ⟨rfl, rfl⟩ | ⟨rfl, -, pi, -, hs₁⟩
  · cases hrun
  · rw [if_pos rfl] at hrun
    have hround : pg_round_down STACK_BOTTOM = STACK_BOTTOM := by decide
    have hp : s₁.page_at t STACK_BOTTOM = some s.next_page := by
      rw [hs₁, page_at_register, if_pos ⟨rfl, rfl⟩]
    unfold vm_claim_page spt_find_page at hrun
    rw [hround, hp] at hrun
    obtain ⟨f, s₂, fr, pg, hget, -, hpg, -, hin⟩ := vm_do_claim_page_cases hrun
    have hnew : s₁.page s.next_page = some (lazy_page STACK_BOTTOM true
        { init := none, type := .VM_ANON, aux := .null, page_initializer := pi }) := by
      rw [hs₁]
      exact Function.update_self _ _ _
    obtain ⟨pg', hpg', hva, hw⟩ := (vm.vm_get_frame_kept hget).fixed hnew
    obtain rfl := Option.some.inj (hpg.symm.trans hpg')
    refine ⟨fr.kva, { kva := fr.kva, present := true, writable := pg.writable, accessed := false
                      dirty := false }, ?_, rfl, hw, rfl⟩
    rw [vm.SwappedIn.pte_at hin]
    unfold vm.attach
    rw [vm.pte_at_set_pte, if_pos ⟨rfl, hva.symm⟩]

/-- **Argument passing.** When `load` succeeds on a command line of at most 127 characters, its
words are on the first stack. -/
theorem arguments_passed {image : List UInt8 → vm → Outcome (Bool × vm)} {line rest : c_string}
    {if_ : intr_frame} (hz : 0 ∉ line) (hlen : line.length ≤ 127)
    (hrun : load image s t (line ++ 0 :: rest) = .ok (some if_, s')) :
    Passed s' t if_ (words line) := by
  have hsize := strings_length_le line
  have hcount := two_words_le fun w (hw : w ∈ words line) => word_ne_nil hw
  obtain ⟨argv, buffer, hparse, hargv⟩ := parse_args_eq rest hz (by omega)
  unfold load at hrun
  rw [hparse, Outcome.ok_bind] at hrun
  obtain ⟨⟨opened, s₁⟩, -, hrun⟩ := Outcome.bind_eq_ok.mp hrun
  cases opened with
  | false => cases (Outcome.ok_pair hrun).1
  | true =>
      obtain ⟨⟨ready, s₂⟩, hstack, hrun⟩ := Outcome.bind_eq_ok.mp hrun
      cases ready with
      | false => cases (Outcome.ok_pair hrun).1
      | true =>
          obtain ⟨⟨frame, s₃⟩, hpass, hrun⟩ := Outcome.bind_eq_ok.mp hrun
          obtain ⟨hif, rfl⟩ := Outcome.ok_pair hrun
          obtain rfl := Option.some.inj hif
          obtain ⟨kva, hpage⟩ := setup_stack_page hstack
          rw [hargv] at hpass
          obtain ⟨frame', s', hpass', hpassed⟩ := pass_arguments_ok hpage
            (fun w hw => word_null_free hz hw) (by unfold PGSIZE; omega)
          rw [hpass] at hpass'
          obtain ⟨rfl, rfl⟩ := Outcome.ok_pair hpass'
          exact hpassed

/-- The command line `a  b`. -/
theorem two_words_passed : ∃ if_ s', load (fun _ s => .ok (true, s))
      (fresh_stack USER_STACK) 0 [97, 32, 32, 98, 0] = .ok (some if_, s')
    ∧ Passed s' 0 if_ [[97], [98]] := by
  have hz : (0 : UInt8) ∉ ([97, 32, 32, 98] : c_string) := by decide
  obtain ⟨argv, buffer, hparse, hargv⟩ := parse_args_eq [] hz (by decide)
  obtain ⟨s₁, hstack⟩ : ∃ s₁, setup_stack (fresh_stack USER_STACK) 0 = .ok (true, s₁) := ⟨_, rfl⟩
  obtain ⟨kva, hpage⟩ := setup_stack_page hstack
  obtain ⟨if_, s', hpass, -⟩ := pass_arguments_ok hpage
    (fun w hw => word_null_free hz hw) (by decide)
  have hrun : load (fun _ s => .ok (true, s))
      (fresh_stack USER_STACK) 0 ([97, 32, 32, 98] ++ 0 :: []) = .ok (some if_, s') := by
    unfold load
    rw [hparse, Outcome.ok_bind]
    dsimp only
    rw [Outcome.ok_bind]
    dsimp only
    rw [if_pos rfl, hstack, Outcome.ok_bind]
    dsimp only
    rw [if_pos rfl, hargv, hpass, Outcome.ok_bind]
    rfl
  exact ⟨if_, s', hrun, arguments_passed hz (by decide) hrun⟩

end Stack

end arguments

end Pintos
