/-
`threads/mmu.c` over `threads/palloc.c`: page tables as they lie in memory.

A page map is a tree of four levels of tables, each a page of 512 entries, and
`pml4_create` copies only the top one: what is below an entry of `base_pml4` is
shared by every page map. Entries name pages by their number; a pointer to a page
of the kernel is such a number too, because physical memory is mapped linearly
from `KERN_BASE` on. An entry keeps the bits the code reads or writes.

`*pte &= ~(uint32_t) PTE_D` extends its mask with zeros: an entry loses the upper
half of its address with the bit. Translation caches are not modelled.
-/
import Pintos.Vm.Page
import Pintos.Lib.Radix

set_option autoImplicit false

namespace Pintos.mmu

/-! ## `threads/palloc.c` -/

/-- `struct pool`, with the pages by their number. -/
structure pool where
  base : ℕ
  page_cnt : ℕ
  used_map : ℕ → Bool

/-- `page_from_pool`. -/
def page_from_pool (p : pool) (page : ℕ) : Bool := p.base ≤ page && page < p.base + p.page_cnt

/-- The first free page, which `bitmap_scan_and_flip` finds. -/
def pool.scan (p : pool) : Option ℕ :=
  (List.range' p.base p.page_cnt).find? fun page => !p.used_map page

theorem scan_spec {p : pool} {page : ℕ} (h : p.scan = some page) :
    page_from_pool p page = true ∧ p.used_map page = false := by
  have hmem := List.mem_of_find?_eq_some h
  have hfree := List.find?_some h
  rw [List.mem_range'_1] at hmem
  refine ⟨?_, by simpa using hfree⟩
  unfold page_from_pool
  simp [hmem.1, hmem.2]

/-- The bit of a page is stored. -/
@[simps] def pool.mark (p : pool) (page : ℕ) (used : Bool) : pool :=
  { p with used_map := Function.update p.used_map page used }

/-- An entry of a table, of any level. -/
structure entry where
  /-- `PTE_ADDR`, as a page number. -/
  page : ℕ
  /-- `PTE_P`. -/
  present : Bool
  /-- `PTE_W`. -/
  writable : Bool
  /-- `PTE_U`. -/
  user : Bool
  /-- `PTE_A`. -/
  accessed : Bool
  /-- `PTE_D`. -/
  dirty : Bool
  deriving DecidableEq, Repr

/-- The entry of a page of zeros. -/
def entry.zero : entry :=
  { page := 0, present := false, writable := false, user := false, accessed := false, dirty := false }

/-- The entry of a page that was freed: `palloc_free_page` fills it with `0xcc`. -/
def entry.freed : entry :=
  { page := 0xccccccccccccc, present := false, writable := false, user := true, accessed := false
    dirty := true }

/-- The number of entries of a table. -/
instance table_size_neZero : NeZero 512 := ⟨by decide⟩

/-- Physical memory as page tables see it. -/
structure memory where
  kernel_pool : pool
  user_pool : pool
  /-- The words of every page. -/
  word : ℕ → Fin 512 → entry
  base_pml4 : ℕ

/-- A page that was got and not freed. -/
def memory.used (m : memory) (page : ℕ) : Bool :=
  (page_from_pool m.kernel_pool page && m.kernel_pool.used_map page)
    || (page_from_pool m.user_pool page && m.user_pool.used_map page)

/-- `table[idx] = e`. -/
@[simps] def memory.set_entry (m : memory) (table : ℕ) (idx : Fin 512) (e : entry) : memory :=
  { m with word := Function.update m.word table (Function.update (m.word table) idx e) }

/-- Every word of a page is stored. -/
@[simps] def memory.set_page (m : memory) (page : ℕ) (w : Fin 512 → entry) : memory :=
  { m with word := Function.update m.word page w }

/-- `palloc_get_page`, from the user pool with `PAL_USER`. -/
def palloc_get_page (m : memory) (user zero : Bool) : Option ℕ × memory :=
  match (if user then m.user_pool else m.kernel_pool).scan with
  | none => (none, m)
  | some page =>
      let m := if user then { m with user_pool := m.user_pool.mark page true }
        else { m with kernel_pool := m.kernel_pool.mark page true }
      (some page, if zero then m.set_page page fun _ => entry.zero else m)

/-- `palloc_free_page` of a page that is not null. -/
def palloc_free_page (m : memory) (page : ℕ) : Outcome memory :=
  let m' := m.set_page page fun _ => entry.freed
  if page_from_pool m.kernel_pool page then do
    Outcome.assert (m.kernel_pool.used_map page = true)
    return { m' with kernel_pool := m.kernel_pool.mark page false }
  else if page_from_pool m.user_pool page then do
    Outcome.assert (m.user_pool.used_map page = true)
    return { m' with user_pool := m.user_pool.mark page false }
  else .panic

/-! ## Walking -/

/-- `PML4`. -/
def PML4 (la : ℕ) : Fin 512 := ⟨la / 2 ^ 39 % 512, Nat.mod_lt _ (by norm_num)⟩

/-- `PDPE`. -/
def PDPE (la : ℕ) : Fin 512 := ⟨la / 2 ^ 30 % 512, Nat.mod_lt _ (by norm_num)⟩

/-- `PDX`. -/
def PDX (la : ℕ) : Fin 512 := ⟨la / 2 ^ 21 % 512, Nat.mod_lt _ (by norm_num)⟩

/-- `PTX`. -/
def PTX (la : ℕ) : Fin 512 := ⟨la / 2 ^ 12 % 512, Nat.mod_lt _ (by norm_num)⟩

/-- `is_user_vaddr`. -/
def is_user_vaddr (vaddr : ℕ) : Prop := ¬ KERN_BASE ≤ vaddr

instance (vaddr : ℕ) : Decidable (is_user_vaddr vaddr) :=
  inferInstanceAs (Decidable (¬ KERN_BASE ≤ vaddr))

/-- The entry for a new table: `vtop (new_page) | PTE_U | PTE_W | PTE_P`. -/
def entry.table (new_page : ℕ) : entry :=
  { page := new_page, present := true, writable := true, user := true, accessed := false
    dirty := false }

/-- A pointer to an entry: the table, and the index in it. -/
abbrev pte_ptr : Type := ℕ × Fin 512

/-- `pgdir_walk`. -/
def pgdir_walk (m : memory) (pdp va : ℕ) (create : Bool) : Outcome (Option pte_ptr × memory) :=
  if (m.word pdp (PDX va)).present then .ok (some ((m.word pdp (PDX va)).page, PTX va), m)
  else if create then
    match palloc_get_page m false true with
    | (none, m) => .ok (none, m)
    | (some new_page, m) =>
        let m := m.set_entry pdp (PDX va) (entry.table new_page)
        .ok (some ((m.word pdp (PDX va)).page, PTX va), m)
  else .ok (none, m)

/-- One level of `pdpe_walk` and `pml4e_walk`: a table that was allocated in vain is
freed again. -/
def table_walk (next : memory → ℕ → Outcome (Option pte_ptr × memory)) (m : memory) (table : ℕ)
    (idx : Fin 512) (create : Bool) : Outcome (Option pte_ptr × memory) :=
  if (m.word table idx).present then next m (m.word table idx).page
  else if create then
    match palloc_get_page m false true with
    | (none, m) => .ok (none, m)
    | (some new_page, m) => do
        let m := m.set_entry table idx (entry.table new_page)
        let (pte, m) ← next m (m.word table idx).page
        match pte with
        | some pte => return (some pte, m)
        | none => do
            let m ← palloc_free_page m (m.word table idx).page
            return (none, m.set_entry table idx entry.zero)
  else .ok (none, m)

/-- `pdpe_walk`. -/
def pdpe_walk (m : memory) (pdpe va : ℕ) (create : Bool) : Outcome (Option pte_ptr × memory) :=
  table_walk (fun m pdp => pgdir_walk m pdp va create) m pdpe (PDPE va) create

/-- `pml4e_walk`. -/
def pml4e_walk (m : memory) (pml4e va : ℕ) (create : Bool) : Outcome (Option pte_ptr × memory) :=
  table_walk (fun m pdpe => pdpe_walk m pdpe va create) m pml4e (PML4 va) create

/-! ## Page maps -/

/-- `pml4_create`. -/
def pml4_create (m : memory) : Option ℕ × memory :=
  match palloc_get_page m false false with
  | (none, m) => (none, m)
  | (some pml4, m) => (some pml4, m.set_page pml4 (m.word m.base_pml4))

/-- `paging_init` for one page of physical memory. -/
def map_page (start end_kernel_text : ℕ) (m : memory) (pa : ℕ) : Outcome memory := do
  let va := KERN_BASE + pa * PGSIZE
  let (pte, m) ← pml4e_walk m m.base_pml4 va true
  match pte with
  | some (table, idx) =>
      return m.set_entry table idx
        { page := pa, present := true, writable := !(start ≤ va && va < end_kernel_text)
          user := false, accessed := false, dirty := false }
  | none => return m

/-- The loop of `paging_init`. -/
def map_pages (start end_kernel_text : ℕ) : List ℕ → memory → Outcome memory
  | [], m => .ok m
  | pa :: rest, m => do
      let m ← map_page start end_kernel_text m pa
      map_pages start end_kernel_text rest m

/-- `paging_init`, with the kernel text between the two addresses. -/
def paging_init (m : memory) (start end_kernel_text mem_end : ℕ) : Outcome memory :=
  match palloc_get_page m false true with
  | (none, _) => .panic
  | (some pml4, m) =>
      map_pages start end_kernel_text (List.range ((mem_end + PGSIZE - 1) / PGSIZE))
        { m with base_pml4 := pml4 }

/-- `pml4_get_page`. -/
def pml4_get_page (m : memory) (pml4 uaddr : ℕ) : Outcome (Option ℕ) := do
  Outcome.assert (is_user_vaddr uaddr)
  let (pte, m) ← pml4e_walk m pml4 uaddr false
  match pte with
  | some (table, idx) =>
      if (m.word table idx).present then
        return some (KERN_BASE + (m.word table idx).page * PGSIZE + pg_ofs uaddr)
      else return none
  | none => return none

/-- `pml4_set_page`. -/
def pml4_set_page (m : memory) (pml4 upage kpage : ℕ) (rw : Bool) : Outcome (Bool × memory) := do
  Outcome.assert (pg_ofs upage = 0)
  Outcome.assert (pg_ofs kpage = 0)
  Outcome.assert (is_user_vaddr upage)
  Outcome.assert (pml4 ≠ m.base_pml4)
  let (pte, m) ← pml4e_walk m pml4 upage true
  match pte with
  | some (table, idx) => do
      Outcome.assert (¬ is_user_vaddr kpage)
      return (true, m.set_entry table idx
        { page := (kpage - KERN_BASE) / PGSIZE, present := true, writable := rw, user := true
          accessed := false, dirty := false })
  | none => return (false, m)

/-- `pml4_clear_page`. -/
def pml4_clear_page (m : memory) (pml4 upage : ℕ) : Outcome memory := do
  Outcome.assert (pg_ofs upage = 0)
  Outcome.assert (is_user_vaddr upage)
  let (pte, m) ← pml4e_walk m pml4 upage false
  match pte with
  | some (table, idx) =>
      if (m.word table idx).present then
        return m.set_entry table idx { m.word table idx with present := false }
      else return m
  | none => return m

/-- What `pml4_set_dirty` and `pml4_set_accessed` do with the entry. -/
def update_pte (f : entry → entry) (m : memory) (pml4 vpage : ℕ) : Outcome memory := do
  let (pte, m) ← pml4e_walk m pml4 vpage false
  match pte with
  | some (table, idx) => return m.set_entry table idx (f (m.word table idx))
  | none => return m

/-- The mask with a zero upper half: only the lower 32 bits of the address stay. -/
def entry.low (e : entry) : entry := { e with page := e.page % 2 ^ 20 }

/-- `pml4_set_dirty`. -/
def pml4_set_dirty (m : memory) (pml4 vpage : ℕ) (dirty : Bool) : Outcome memory :=
  update_pte (fun e => if dirty then { e with dirty := true } else { e.low with dirty := false })
    m pml4 vpage

/-- `pml4_set_accessed`. -/
def pml4_set_accessed (m : memory) (pml4 vpage : ℕ) (accessed : Bool) : Outcome memory :=
  update_pte
    (fun e => if accessed then { e with accessed := true } else { e.low with accessed := false })
    m pml4 vpage

/-! ## `pml4_destroy` -/

/-- The loop over the entries of a table. -/
def entries_destroy (child : memory → ℕ → Outcome memory) (table : ℕ) :
    List (Fin 512) → memory → Outcome memory
  | [], m => .ok m
  | i :: rest, m => do
      let m ← if (m.word table i).present then child m (m.word table i).page else .ok m
      entries_destroy child table rest m

/-- A table: what its entries point to, then the table. -/
def table_destroy (child : memory → ℕ → Outcome memory) (m : memory) (table : ℕ) :
    Outcome memory := do
  let m ← entries_destroy child table (List.finRange 512) m
  palloc_free_page m table

/-- `pt_destroy`. -/
def pt_destroy : memory → ℕ → Outcome memory := table_destroy palloc_free_page

/-- `pgdir_destroy`. -/
def pgdir_destroy : memory → ℕ → Outcome memory := table_destroy pt_destroy

/-- `pdpe_destroy`. -/
def pdpe_destroy : memory → ℕ → Outcome memory := table_destroy pgdir_destroy

/-- `pml4_destroy`, which goes into the first entry only. -/
def pml4_destroy (m : memory) (pml4 : Option ℕ) : Outcome memory :=
  match pml4 with
  | none => .ok m
  | some pml4 => do
      Outcome.assert (pml4 ≠ m.base_pml4)
      let m ← if (m.word pml4 0).present then pdpe_destroy m (m.word pml4 0).page else .ok m
      palloc_free_page m pml4

/-! ## Runs -/

/-- What the kernel does with page maps, and with pages for other purposes. -/
inductive mmu_call
  | create
  | set_page (pml4 upage kpage : ℕ) (rw : Bool)
  | clear_page (pml4 upage : ℕ)
  | set_dirty (pml4 vpage : ℕ) (dirty : Bool)
  | set_accessed (pml4 vpage : ℕ) (accessed : Bool)
  | destroy (pml4 : ℕ)
  | get_page (user zero : Bool)
  | free_page (page : ℕ)
  deriving DecidableEq, Repr

/-- Memory, and the page maps that were created and not destroyed. -/
structure mmu_state where
  mem : memory
  maps : List ℕ

/-- One call. -/
def mmu_step (s : mmu_state) : mmu_call → Outcome mmu_state
  | .create =>
      match pml4_create s.mem with
      | (some pml4, m) => .ok ⟨m, pml4 :: s.maps⟩
      | (none, m) => .ok ⟨m, s.maps⟩
  | .set_page pml4 upage kpage rw => do
      let (_, m) ← pml4_set_page s.mem pml4 upage kpage rw
      return ⟨m, s.maps⟩
  | .clear_page pml4 upage => do
      let m ← pml4_clear_page s.mem pml4 upage
      return ⟨m, s.maps⟩
  | .set_dirty pml4 vpage dirty => do
      let m ← pml4_set_dirty s.mem pml4 vpage dirty
      return ⟨m, s.maps⟩
  | .set_accessed pml4 vpage accessed => do
      let m ← pml4_set_accessed s.mem pml4 vpage accessed
      return ⟨m, s.maps⟩
  | .destroy pml4 => do
      let m ← pml4_destroy s.mem (some pml4)
      return ⟨m, s.maps.erase pml4⟩
  | .get_page user zero => .ok ⟨(palloc_get_page s.mem user zero).2, s.maps⟩
  | .free_page page => do
      let m ← palloc_free_page s.mem page
      return ⟨m, s.maps⟩

/-- A sequence of calls. -/
def mmu_run : List mmu_call → mmu_state → Outcome mmu_state
  | [], s => .ok s
  | c :: cs, s => do
      let s ← mmu_step s c
      mmu_run cs s

end Pintos.mmu
