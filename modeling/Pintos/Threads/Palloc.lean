/-
`threads/palloc.c`: `resolve_area_info` and `populate_pools`.

Addresses are 64-bit words and sums wrap, except in a bitmap's own size, which is that of
fewer than 2^52 bits. A bitmap is its length and its bits; the bytes it is laid out in are
not modelled, only how many of them there are and whether `bitmap_create_in_buf` accepts
the block. A pool whose `used_map` is null is one that `init_pool` has not seen, and
`bitmap_size` of a null pointer faults.

The lines of the map that `populate_pools` prints, and the lock of a pool, have no effect here.
-/
import Pintos.Lib.Outcome
import Pintos.Lib.Spans
import Pintos.Vm.Page

set_option autoImplicit false

namespace Pintos.palloc

/-! ## Addresses -/

/-- `ptov`. -/
def ptov (paddr : ℕ) : ℕ := (paddr + KERN_BASE) % 2 ^ 64

/-- `pg_no`. -/
def pg_no (va : ℕ) : ℕ := va / PGSIZE

/-- `pg_round_up`, in 64-bit arithmetic. -/
def pg_round_up (va : ℕ) : ℕ := (va + PGSIZE - 1) % 2 ^ 64 / PGSIZE * PGSIZE

/-- `DIV_ROUND_UP`. -/
def DIV_ROUND_UP (x step : ℕ) : ℕ := (x + step - 1) / step

/-! ## Bitmaps -/

/-- `struct bitmap`. -/
structure bitmap where
  bit_cnt : ℕ
  bits : ℕ → Bool

/-- `bitmap_buf_size`: the header, and eight bytes for every 64 bits. -/
def bitmap_buf_size (bit_cnt : ℕ) : ℕ := 16 + 8 * DIV_ROUND_UP bit_cnt 64

/-- `bitmap_set`. -/
def bitmap_set (b : bitmap) (idx : ℕ) (value : Bool) : Outcome bitmap := do
  Outcome.assert (idx < b.bit_cnt)
  return { b with bits := Function.update b.bits idx value }

/-- The loop of `bitmap_set_multiple`, with `n` bits to go. -/
def bitmap_set_loop (start : ℕ) (value : Bool) : ℕ → ℕ → bitmap → Outcome bitmap
  | 0, _, b => return b
  | n + 1, i, b => do
    let b ← bitmap_set b ((start + i) % 2 ^ 64) value
    bitmap_set_loop start value n (i + 1) b

/-- `bitmap_set_multiple`. -/
def bitmap_set_multiple (b : bitmap) (start cnt : ℕ) (value : Bool) : Outcome bitmap := do
  Outcome.assert (start ≤ b.bit_cnt)
  Outcome.assert ((start + cnt) % 2 ^ 64 ≤ b.bit_cnt)
  bitmap_set_loop start value cnt 0 b

/-- `bitmap_set_all`. -/
def bitmap_set_all (b : bitmap) (value : Bool) : Outcome bitmap :=
  bitmap_set_multiple b 0 b.bit_cnt value

/-- `bitmap_create_in_buf`. -/
def bitmap_create_in_buf (bit_cnt block_size : ℕ) : Outcome bitmap := do
  Outcome.assert (bitmap_buf_size bit_cnt ≤ block_size)
  bitmap_set_all ⟨bit_cnt, fun _ => false⟩ false

/-! ## Pools -/

/-- `struct pool`. -/
structure pool where
  used_map : Option bitmap
  base : ℕ

/-- A pool as it lies in `.bss`. -/
def pool.zero : pool := ⟨none, 0⟩

/-- `*p` for a pointer that may be null. -/
def deref (p : Option bitmap) : Outcome bitmap :=
  match p with
  | some b => return b
  | none => .panic

/-- `init_pool`. The pool, and `*bm_base` after the call. -/
def init_pool (bm_base start end_ : ℕ) : Outcome (pool × ℕ) := do
  let pgcnt := (end_ + 2 ^ 64 - start) % 2 ^ 64 / PGSIZE
  let bm_pages := DIV_ROUND_UP (bitmap_buf_size pgcnt) PGSIZE * PGSIZE
  let used_map ← bitmap_create_in_buf pgcnt bm_pages
  let used_map ← bitmap_set_all used_map true
  return (⟨some used_map, start⟩, (bm_base + bm_pages) % 2 ^ 64)

/-- `page_from_pool`. -/
def page_from_pool (p : pool) (page : ℕ) : Outcome Bool := do
  let used_map ← deref p.used_map
  let start_page := pg_no p.base
  let end_page := start_page + used_map.bit_cnt
  return decide (start_page ≤ pg_no page ∧ pg_no page < end_page)

/-! ## The memory map -/

/-- `struct e820_entry`. -/
structure e820_entry where
  mem_lo : UInt32
  mem_hi : UInt32
  len_lo : UInt32
  len_hi : UInt32
  type : UInt32

/-- `USABLE`. -/
def USABLE : UInt32 := 1

/-- `ACPI_RECLAIMABLE`. -/
def ACPI_RECLAIMABLE : UInt32 := 3

/-- `BASE_MEM_THRESHOLD`. -/
def BASE_MEM_THRESHOLD : ℕ := 0x100000

/-- `APPEND_HILO`. -/
def APPEND_HILO (hi lo : UInt32) : ℕ := hi.toNat * 2 ^ 32 + lo.toNat

/-- The address of an entry. -/
def e820_entry.mem (e : e820_entry) : ℕ := APPEND_HILO e.mem_hi e.mem_lo

/-- The length of an entry. -/
def e820_entry.len (e : e820_entry) : ℕ := APPEND_HILO e.len_hi e.len_lo

/-- The entries that both functions look at. -/
def e820_entry.usable (e : e820_entry) : Bool := e.type == ACPI_RECLAIMABLE || e.type == USABLE

/-- `struct area`. -/
structure area where
  start : ℕ
  end_ : ℕ
  size : ℕ

/-- An entry extends the area it belongs to. -/
def area.extend (a : area) (start size : ℕ) : area :=
  let end_ := (start + size) % 2 ^ 64
  if a.size = 0 then ⟨start, end_, size⟩
  else
    { start := if a.start > start then start else a.start
      end_ := if a.end_ < end_ then end_ else a.end_
      size := (a.size + size) % 2 ^ 64 }

/-- One round of the loop of `resolve_area_info`. -/
def resolve_entry (areas : area × area) (e : e820_entry) : area × area :=
  if e.usable then
    if e.mem < BASE_MEM_THRESHOLD then (areas.1.extend e.mem e.len, areas.2)
    else (areas.1, areas.2.extend e.mem e.len)
  else areas

/-- `resolve_area_info`: base memory and extended memory. -/
def resolve_area_info (entries : List e820_entry) (base_mem ext_mem : area) : area × area :=
  entries.foldl resolve_entry (base_mem, ext_mem)

/-! ## `populate_pools` -/

/-- The `state` of the first loop. -/
inductive parse_state
  | KERN_START
  | KERN
  | USER_START
  | USER
  deriving DecidableEq, Repr

/-- What the first loop works on. -/
structure carving where
  state : parse_state
  rem : ℕ
  region_start : ℕ
  end_ : ℕ
  free_start : ℕ
  kernel_pool : pool

/-- The first loop, at a region that is in reach of the `switch`. -/
def carve_region (user_pages start size : ℕ) (c : carving) : Outcome carving :=
  let size_in_pg := size / PGSIZE
  match c.state with
  | .KERN =>
    if c.rem > size_in_pg then return { c with rem := c.rem - size_in_pg }
    else do
      let region_end := (start + c.rem * PGSIZE) % 2 ^ 64
      let (kernel_pool, free_start) ← init_pool c.free_start c.region_start region_end
      if c.rem = size_in_pg then
        return { c with
          kernel_pool := kernel_pool
          free_start := free_start
          rem := user_pages
          state := .USER_START }
      else
        return { c with
          kernel_pool := kernel_pool
          free_start := free_start
          region_start := region_end
          rem := (user_pages + 2 ^ 64 - size_in_pg + c.rem) % 2 ^ 64
          state := .USER }
  | .USER_START => return { c with region_start := start, state := .USER }
  | .USER =>
    if c.rem > size_in_pg then return { c with rem := c.rem - size_in_pg }
    else do
      -- pages on the left, bytes on the right
      Outcome.assert (c.rem = size)
      return c
  | .KERN_START => .panic

/-- The first loop leaves `KERN_START` at the first region. -/
def carving.enter (c : carving) (start end_ : ℕ) : carving :=
  match c.state with
  | .KERN_START => { c with end_ := end_, region_start := start, state := .KERN }
  | _ => { c with end_ := end_ }

/-- One round of the first loop. -/
def carve_entry (user_pages : ℕ) (c : carving) (e : e820_entry) : Outcome carving :=
  if e.usable then
    let start := ptov e.mem
    carve_region user_pages start e.len (c.enter start ((start + e.len) % 2 ^ 64))
  else return c

/-- The two static pools. -/
inductive pool_id
  | kernel_pool
  | user_pool
  deriving DecidableEq, Repr

/-- The pools by name. -/
abbrev pools := pool_id → pool

/-- Both pools. -/
def both (kernel_pool user_pool : pool) : pools
  | .kernel_pool => kernel_pool
  | .user_pool => user_pool

/-- The pool that `split:` picks for a page. -/
def pool_of (s : pools) (start : ℕ) : Outcome pool_id := do
  if ← page_from_pool (s .kernel_pool) start then return .kernel_pool
  else if ← page_from_pool (s .user_pool) start then return .user_pool
  else .panic

/-- `split:`. A round ends at the end of the pool it began in, so that neither pool comes up
twice and the label is reached at most three times. -/
def split (end_ : ℕ) : ℕ → ℕ → pools → Outcome pools
  | 0, _, _ => .diverge
  | fuel + 1, start, s => do
    let pool ← pool_of s start
    let used_map ← deref (s pool).used_map
    let pool_end := ((s pool).base + used_map.bit_cnt * PGSIZE) % 2 ^ 64
    let page_idx := pg_no start - pg_no (s pool).base
    if pool_end < end_ then do
      let page_cnt := (pool_end + 2 ^ 64 - start) % 2 ^ 64 / PGSIZE
      let used_map ← bitmap_set_multiple used_map page_idx page_cnt false
      split end_ fuel pool_end (Function.update s pool { s pool with used_map := some used_map })
    else do
      let page_cnt := (end_ + 2 ^ 64 - start) % 2 ^ 64 / PGSIZE
      let used_map ← bitmap_set_multiple used_map page_idx page_cnt false
      return Function.update s pool { s pool with used_map := some used_map }

/-- One round of the second loop. -/
def free_entry (usable_bound : ℕ) (s : pools) (e : e820_entry) : Outcome pools :=
  if e.usable then
    let start := ptov e.mem
    let end_ := (start + e.len) % 2 ^ 64
    if end_ < usable_bound then return s
    else split end_ 4 (pg_round_up (if start ≥ usable_bound then start else usable_bound)) s
  else return s

/-- `populate_pools`, where the kernel image ends at `_end`. The pools, and the end of their
bitmaps. -/
def populate_pools (entries : List e820_entry) (_end user_page_limit : ℕ)
    (base_mem ext_mem : area) : Outcome (pools × ℕ) := do
  let free_start := pg_round_up _end
  let total_pages := (base_mem.size + ext_mem.size) % 2 ^ 64 / PGSIZE
  let user_pages := if total_pages / 2 > user_page_limit then user_page_limit else total_pages / 2
  let kern_pages := total_pages - user_pages
  let c ← entries.foldlM (carve_entry user_pages)
    ⟨.KERN_START, kern_pages, 0, 0, free_start, pool.zero⟩
  let (user_pool, usable_bound) ← init_pool c.free_start c.region_start c.end_
  let s ← entries.foldlM (free_entry usable_bound) (both c.kernel_pool user_pool)
  return (s, usable_bound)

/-- `palloc_init`, without the address it returns. -/
def palloc_init (entries : List e820_entry) (_end user_page_limit : ℕ) : Outcome (pools × ℕ) :=
  let (base_mem, ext_mem) := resolve_area_info entries ⟨0, 0, 0⟩ ⟨0, 0, 0⟩
  populate_pools entries _end user_page_limit base_mem ext_mem

end Pintos.palloc
