/-
`threads/malloc.c`.

Memory is that of `lib/kernel/list.c`: words of eight bytes by their addresses. Everything
that is read lies in it: the descriptors at `descs`, the arena at the beginning of a page, the
links in the free blocks. `size_t` arithmetic wraps.

Pages come from `palloc_get_multiple`, which is told what to return: `grant` is the address of
the pages, or null. What is held of its pages is kept beside memory, to be given back.

The locks of the descriptors are left out: one call comes after the other.
-/
import Pintos.Kernel.List
import Pintos.Threads.PageAlloc

set_option autoImplicit false

namespace Pintos.heap

open klib (words)

/-! ## Memory -/

/-- Memory, `desc_cnt`, and the pages that `palloc` has given. -/
structure store where
  mem : words
  desc_cnt : ℕ
  pages : List palloc.range

/-- A byte. -/
def load_byte (m : words) (a : ℕ) : ℕ := m (a / 8 * 8) / 256 ^ (a % 8) % 256

/-- A byte is stored; the others of its word stay. -/
def store_byte (m : words) (a value : ℕ) : words :=
  Function.update m (a / 8 * 8)
    (m (a / 8 * 8) - load_byte m a * 256 ^ (a % 8) + value * 256 ^ (a % 8))

/-- The loop of `memset`. -/
def set_bytes (m : words) (dst value : ℕ) : ℕ → words
  | 0 => m
  | size + 1 => set_bytes (store_byte m dst value) (dst + 1) value size

/-- The loop of `memcpy`. -/
def copy_bytes (m : words) (dst src : ℕ) : ℕ → words
  | 0 => m
  | size + 1 => copy_bytes (store_byte m dst (load_byte m src)) (dst + 1) (src + 1) size

/-- `memset`. Behind the last address there is the null page, where it faults. -/
def memset (m : words) (dst value size : ℕ) : Outcome words :=
  if dst + size ≤ 2 ^ 64 then .ok (set_bytes m dst value size) else .panic

/-- `memcpy`. -/
def memcpy (m : words) (dst src size : ℕ) : Outcome words :=
  if dst + size ≤ 2 ^ 64 ∧ src + size ≤ 2 ^ 64 then .ok (copy_bytes m dst src size) else .panic

/-- `palloc_get_multiple (0, page_cnt)`, which returns `grant`. -/
def palloc_get (grant page_cnt : ℕ) (h : store) : store × ℕ :=
  if grant = 0 then (h, 0) else ({ h with pages := ⟨grant, page_cnt⟩ :: h.pages }, grant)

/-- `palloc_free_multiple`, of pages that were given. -/
def palloc_free (pages page_cnt : ℕ) (h : store) : Outcome store := do
  Outcome.assert (pages % PGSIZE = 0)
  if pages = 0 ∨ page_cnt = 0 then return h
  else if ⟨pages, page_cnt⟩ ∈ h.pages then do
    let m ← memset h.mem pages 0xcc (PGSIZE * page_cnt)
    return { h with mem := m, pages := h.pages.erase ⟨pages, page_cnt⟩ }
  else .undefined

/-! ## Descriptors and arenas -/

/-- `sizeof (struct desc)`. -/
def DESC_SIZE : ℕ := 96

/-- `d->block_size`. -/
def desc_block_size (m : words) (d : ℕ) : ℕ := m d

/-- `d->blocks_per_arena`. -/
def blocks_per_arena (m : words) (d : ℕ) : ℕ := m (d + 8)

/-- `&d->free_list`. -/
def free_list (d : ℕ) : ℕ := d + 16

/-- `sizeof (struct arena)`. -/
def ARENA_SIZE : ℕ := 24

/-- `ARENA_MAGIC`. -/
def ARENA_MAGIC : ℕ := 0x9a548eed

/-- `a->magic`, the lower half of a word. -/
def magic (m : words) (a : ℕ) : ℕ := m a % 2 ^ 32

/-- `a->desc`. -/
def arena_desc (m : words) (a : ℕ) : ℕ := m (a + 8)

/-- `a->free_cnt`. -/
def free_cnt (m : words) (a : ℕ) : ℕ := m (a + 16)

/-- The fields of an arena are set. -/
def init_arena (m : words) (a desc cnt : ℕ) : words :=
  let m := Function.update m a (m a - m a % 2 ^ 32 + ARENA_MAGIC)
  let m := Function.update m (a + 8) desc
  Function.update m (a + 16) cnt

/-- `a->free_cnt` is set. -/
def set_free_cnt (m : words) (a cnt : ℕ) : words := Function.update m (a + 16) cnt

/-- `block_to_arena`. -/
def block_to_arena (m : words) (b : ℕ) : Outcome ℕ := do
  let a := b / PGSIZE * PGSIZE
  Outcome.assert (a ≠ 0)
  Outcome.assert (magic m a = ARENA_MAGIC)
  Outcome.assert (arena_desc m a = 0
    ∨ (b % PGSIZE + 2 ^ 64 - ARENA_SIZE) % 2 ^ 64 % desc_block_size m (arena_desc m a) = 0)
  Outcome.assert (arena_desc m a ≠ 0 ∨ b % PGSIZE = ARENA_SIZE)
  return a

/-- `arena_to_block`. -/
def arena_to_block (m : words) (a idx : ℕ) : Outcome ℕ := do
  Outcome.assert (a ≠ 0)
  Outcome.assert (magic m a = ARENA_MAGIC)
  Outcome.assert (idx < blocks_per_arena m (arena_desc m a))
  return a + ARENA_SIZE + idx * desc_block_size m (arena_desc m a)

/-! ## The calls -/

section Calls

variable (descs : ℕ)

/-- `&descs[i]`. -/
def desc (i : ℕ) : ℕ := descs + i * DESC_SIZE

/-- The loop of `malloc_init`. The size is doubled in every turn. -/
def init_loop : ℕ → ℕ → store → Outcome store
  | 0, _, _ => .diverge
  | fuel + 1, block_size, h =>
    if block_size < PGSIZE / 2 then do
      let d := desc descs h.desc_cnt
      Outcome.assert (h.desc_cnt + 1 ≤ 10)
      let m := Function.update h.mem d block_size
      let m := Function.update m (d + 8) ((PGSIZE - ARENA_SIZE) / block_size)
      let m ← klib.list_init m (free_list d)
      init_loop fuel (block_size * 2) { h with mem := m, desc_cnt := h.desc_cnt + 1 }
    else return h

/-- `malloc_init`. -/
def malloc_init (h : store) : Outcome store := init_loop descs PGSIZE 16 h

/-- The first loop of `malloc`, with `n` descriptors to go: the one it stops at, if any. -/
def find_desc (m : words) (size : ℕ) : ℕ → ℕ → Option ℕ
  | 0, _ => none
  | n + 1, i =>
    if desc_block_size m (desc descs i) ≥ size then some (desc descs i)
    else find_desc m size n (i + 1)

/-- The loop of `malloc`, from block `i` on. -/
def fill_loop (a d : ℕ) : ℕ → ℕ → words → Outcome words
  | 0, _, _ => .diverge
  | fuel + 1, i, m =>
    if i < blocks_per_arena m d then do
      let b ← arena_to_block m a i
      let m ← klib.list_push_back m (free_list d) b
      fill_loop a d fuel (i + 1) m
    else return m

/-- The free list gets the blocks of a new arena, if it is empty and there is a page. -/
def refill (grant d : ℕ) (h : store) : Outcome (Option store) := do
  if ← klib.list_empty h.mem (free_list d) then
    let (h, a) := palloc_get grant 1 h
    if a = 0 then return none
    else do
      let m := init_arena h.mem a d (blocks_per_arena h.mem d)
      let m ← fill_loop a d (PGSIZE + 1) 0 m
      return some { h with mem := m }
  else return some h

/-- A block from the front of a free list that is not empty. -/
def take_block (d : ℕ) (h : store) : Outcome (store × ℕ) := do
  let (m, b) ← klib.list_pop_front h.mem (free_list d)
  let a ← block_to_arena m b
  return ({ h with mem := set_free_cnt m a ((free_cnt m a + 2 ^ 64 - 1) % 2 ^ 64) }, b)

/-- `malloc`. -/
def malloc (grant size : ℕ) (h : store) : Outcome (store × ℕ) := do
  if size = 0 then return (h, 0)
  else match find_desc descs h.mem size h.desc_cnt 0 with
    | none =>
      let page_cnt := ((size + ARENA_SIZE) % 2 ^ 64 + PGSIZE - 1) % 2 ^ 64 / PGSIZE
      let (h, a) := palloc_get grant page_cnt h
      if a = 0 then return (h, 0)
      else return ({ h with mem := init_arena h.mem a 0 page_cnt }, a + ARENA_SIZE)
    | some d => do
      match ← refill grant d h with
      | none => return (h, 0)
      | some h => take_block d h

/-- `calloc`. -/
def calloc (grant a b : ℕ) (h : store) : Outcome (store × ℕ) := do
  let size := a * b % 2 ^ 64
  if size < a ∨ size < b then return (h, 0)
  else do
    let (h, p) ← malloc descs grant size h
    if p ≠ 0 then do
      let m ← memset h.mem p 0 size
      return ({ h with mem := m }, p)
    else return (h, p)

/-- `block_size`. -/
def block_size (m : words) (block : ℕ) : Outcome ℕ := do
  let a ← block_to_arena m block
  let d := arena_desc m a
  if d ≠ 0 then return desc_block_size m d
  else return (PGSIZE * free_cnt m a + 2 ^ 64 - block % PGSIZE) % 2 ^ 64

/-- The loop of `free`, from block `i` on. -/
def unlink_loop (a d : ℕ) : ℕ → ℕ → words → Outcome words
  | 0, _, _ => .diverge
  | fuel + 1, i, m =>
    if i < blocks_per_arena m d then do
      let b ← arena_to_block m a i
      let (m, _) ← klib.list_remove m b
      unlink_loop a d fuel (i + 1) m
    else return m

/-- A block goes back to its free list. -/
def put_block (a d p : ℕ) (m : words) : Outcome words := do
  let m ← memset m p 0xcc (desc_block_size m d)
  let m ← klib.list_push_front m (free_list d) p
  return set_free_cnt m a ((free_cnt m a + 1) % 2 ^ 64)

/-- An arena that is entirely unused is freed. -/
def free_arena (a d : ℕ) (h : store) : Outcome store := do
  Outcome.assert (free_cnt h.mem a = blocks_per_arena h.mem d)
  let m ← unlink_loop a d (PGSIZE + 1) 0 h.mem
  palloc_free a 1 { h with mem := m }

/-- `free`. -/
def free (p : ℕ) (h : store) : Outcome store := do
  if p = 0 then return h
  else do
    let a ← block_to_arena h.mem p
    let d := arena_desc h.mem a
    if d ≠ 0 then do
      let m ← put_block a d p h.mem
      if free_cnt m a ≥ blocks_per_arena m d then free_arena a d { h with mem := m }
      else return { h with mem := m }
    else palloc_free a (free_cnt h.mem a) h

/-- `realloc`. -/
def realloc (grant old_block new_size : ℕ) (h : store) : Outcome (store × ℕ) := do
  if new_size = 0 then
    let h ← free old_block h
    return (h, 0)
  else do
    let (h, new_block) ← malloc descs grant new_size h
    if old_block ≠ 0 ∧ new_block ≠ 0 then do
      let old_size ← block_size h.mem old_block
      let min_size := if new_size < old_size then new_size else old_size
      let m ← memcpy h.mem new_block old_block min_size
      let h ← free old_block { h with mem := m }
      return (h, new_block)
    else return (h, new_block)

end Calls

end Pintos.heap
