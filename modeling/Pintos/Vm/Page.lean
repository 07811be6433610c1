/-
`include/vm/*.h` and `threads/mmu.c`: pages, frames and page tables.

One state holds what the virtual memory system shares between processes: the
`struct page` and `struct frame` objects on the kernel heap, the list
`frame_table` with its clock hand, the user pool of physical pages and their
contents, the swap area, and the file system behind mapped files. Each process
has a supplemental page table and a page table of its own.

A physical page is named by its index in the user pool; that is its kernel
address too (`kva`). A page-table entry keeps the frame and the four bits the
code reads. `pml4_clear_page` drops the present bit only: the others stay, and a
dirty bit outlives its mapping. Table pages come from the kernel pool, which
does not run out here, so `pml4_set_page` succeeds.

The masks with which `pml4_set_accessed` and `pml4_set_dirty` clear a bit have 32 bits,
and clear the upper half of the page number too. Physical memory is taken to end at 4 GB
here, where that half is zero; `vm.LowPool` says so of the user pool, for the results
that depend on it.

Supplemental page tables are finite maps; the order of their hash buckets is the
order of the entries, and nothing here depends on which order that is.
-/
import Pintos.Filesys.File
import Mathlib.Data.List.AList

set_option autoImplicit false

namespace Pintos

/-! ## Addresses -/

/-- `PGSIZE`. -/
def PGSIZE : ℕ := 4096

/-- `KERN_BASE`. -/
def KERN_BASE : ℕ := 0x8004000000

/-- `USER_STACK`. -/
def USER_STACK : ℕ := 0x47480000

/-- `STACK_GROW_RANGE`. -/
def STACK_GROW_RANGE : ℕ := 4192

/-- `pg_ofs`. -/
def pg_ofs (va : ℕ) : ℕ := va % PGSIZE

/-- `pg_round_down`. -/
def pg_round_down (va : ℕ) : ℕ := va - va % PGSIZE

theorem pg_round_down_add_pg_ofs (va : ℕ) : pg_round_down va + pg_ofs va = va := by
  unfold pg_round_down pg_ofs
  have := Nat.mod_le va PGSIZE
  omega

theorem pg_round_down_idem (va : ℕ) : pg_round_down (pg_round_down va) = pg_round_down va := by
  unfold pg_round_down PGSIZE
  omega

theorem pg_ofs_lt (va : ℕ) : pg_ofs va < PGSIZE := Nat.mod_lt _ (by decide)

/-! ## Pages and frames -/

/-- `enum vm_type`. No caller sets a marker bit. -/
inductive vm_type
  | VM_UNINIT
  | VM_ANON
  | VM_FILE
  | VM_PAGE_CACHE
  | VM_MMAP
  deriving DecidableEq, Repr

/-- The number behind a `vm_type`. -/
def vm_type.toNat : vm_type → ℕ
  | VM_UNINIT => 0
  | VM_ANON => 1
  | VM_FILE => 2
  | VM_PAGE_CACHE => 3
  | VM_MMAP => 4

/-- `struct lazy_load_info`. -/
structure lazy_load_info where
  file : ℕ
  offset : ℤ
  readbyte : ℕ
  zerobyte : ℕ
  deriving DecidableEq, Repr

/-- What the `void *aux` of an uninitialised page points to. -/
inductive aux_ptr
  | null
  | info (i : lazy_load_info)
  | mmap (i : lazy_load_info) (mapping_count : ℤ)
  deriving DecidableEq, Repr

/-- The functions of type `vm_initializer`. -/
inductive vm_initializer
  | lazy_load_segment
  deriving DecidableEq, Repr

/-- The functions that turn an uninitialised page into another kind. -/
inductive page_initializer
  | anon_initializer
  | file_backed_initializer
  deriving DecidableEq, Repr

/-- `struct uninit_page`. -/
structure uninit_page where
  init : Option vm_initializer
  type : vm_type
  aux : aux_ptr
  page_initializer : page_initializer
  deriving DecidableEq, Repr

/-- `struct file_page`. -/
structure file_page where
  mapping_count : ℤ
  file : ℕ
  offset : ℤ
  read_byte : ℕ
  zero_byte : ℕ
  deriving DecidableEq, Repr

/-- The union of `struct page`, tagged with the `operations` that go with it. -/
inductive page_kind
  | uninit (u : uninit_page)
  | anon (swap_idx : ℤ)
  | file (fp : file_page)
  deriving DecidableEq, Repr

/-- `struct page`. -/
structure page where
  va : ℕ
  frame : Option ℕ
  writable : Bool
  kind : page_kind
  deriving DecidableEq, Repr

/-- `struct frame`. -/
structure frame where
  kva : ℕ
  ref_cnt : ℤ
  page : Option ℕ
  deriving DecidableEq, Repr

/-- A page-table entry. -/
structure pte where
  kva : ℕ
  /-- `PTE_P`. -/
  present : Bool
  /-- `PTE_W`. -/
  writable : Bool
  /-- `PTE_A`. -/
  accessed : Bool
  /-- `PTE_D`. -/
  dirty : Bool
  deriving DecidableEq, Repr

/-- The memory of one process. -/
structure process where
  spt : AList (fun _ : ℕ => ℕ)
  pml4 : AList (fun _ : ℕ => pte)
  user_rsp : ℕ
  /-- Whether the process exists and has not exited. -/
  alive : Bool

/-- A process with no memory: after `supplemental_page_table_init` and `pml4_create`. -/
def process.empty : process := { spt := ∅, pml4 := ∅, user_rsp := 0, alive := true }

/-- The state of the virtual memory system. -/
structure vm where
  proc : ℕ → process
  next_proc : ℕ
  /-- The heap of `struct page`. -/
  page : ℕ → Option page
  next_page : ℕ
  /-- The heap of `struct frame`. -/
  frame : ℕ → Option frame
  next_frame : ℕ
  frame_table : List ℕ
  /-- The clock hand; `none` is the null pointer, or the end of the list. -/
  clock_start : Option ℕ
  /-- The bitmap of the user pool. -/
  used : ℕ → Bool
  pool_pages : ℕ
  /-- The contents of physical pages. -/
  mem : ℕ → Bytes
  swap_disk : disk
  swap_table : ℕ → Bool
  files : filesys
  /-- The low word of the address of `lazy_load_segment`. -/
  lazy_load_segment_word : ℤ

namespace vm

variable (s : vm)

/-! ## Reading and storing objects -/

/-- The page registered for a virtual page of a process. -/
def page_at (t va : ℕ) : Option ℕ := (s.proc t).spt.lookup va

/-- The page-table entry of a virtual page of a process. -/
def pte_at (t va : ℕ) : Option pte := (s.proc t).pml4.lookup va

/-- Follow a pointer to a `struct page`. -/
def get_page (p : ℕ) : Outcome Pintos.page :=
  match s.page p with
  | some pg => .ok pg
  | none => .undefined

/-- Follow a pointer to a `struct frame` that may be null. -/
def get_frame (f : Option ℕ) : Outcome (ℕ × Pintos.frame) :=
  match f with
  | none => .panic
  | some f =>
      match s.frame f with
      | some fr => .ok (f, fr)
      | none => .undefined

/-- Store into a `struct page`. -/
@[simps] def set_page (p : ℕ) (pg : Pintos.page) : vm :=
  { s with page := Function.update s.page p (some pg) }

/-- Store into a `struct frame`. -/
@[simps] def set_frame (f : ℕ) (fr : Pintos.frame) : vm :=
  { s with frame := Function.update s.frame f (some fr) }

/-- Store into a page table. -/
@[simps] def set_pte (t va : ℕ) (e : pte) : vm :=
  let pr : process := { s.proc t with pml4 := (s.proc t).pml4.insert va e }
  { s with proc := Function.update s.proc t pr }

/-- Change an entry of a page table, if it is there. -/
@[simps] def modify_pte (t va : ℕ) (g : pte → pte) : vm :=
  let pml4 := match (s.proc t).pml4.lookup va with
    | some e => (s.proc t).pml4.insert va (g e)
    | none => (s.proc t).pml4
  let pr : process := { s.proc t with pml4 := pml4 }
  { s with proc := Function.update s.proc t pr }

/-- Store into a supplemental page table. -/
@[simps] def set_spt (t : ℕ) (spt : AList (fun _ : ℕ => ℕ)) : vm :=
  let pr : process := { s.proc t with spt := spt }
  { s with proc := Function.update s.proc t pr }

/-- Store into a physical page. -/
@[simps] def set_mem (kva : ℕ) (b : Bytes) : vm :=
  { s with mem := Function.update s.mem kva b }

/-- The file system has moved on. -/
@[simps] def set_files (fs : filesys) : vm := { s with files := fs }

theorem get_page_eq_ok {s : vm} {p : ℕ} {pg : Pintos.page} :
    s.get_page p = .ok pg ↔ s.page p = some pg := by
  unfold get_page
  cases s.page p with
  | none => simp
  | some x => simp

theorem get_frame_eq_ok {s : vm} {f : Option ℕ} {x : ℕ × Pintos.frame} :
    s.get_frame f = .ok x ↔ f = some x.1 ∧ s.frame x.1 = some x.2 := by
  obtain ⟨g, fr⟩ := x
  cases f with
  | none => simp [get_frame]
  | some f =>
      by_cases hfg : f = g
      · subst hfg
        cases hf : s.frame f with
        | none => simp [get_frame, hf]
        | some y => simp [get_frame, hf]
      · cases hf : s.frame f with
        | none => simp [get_frame, hf, hfg]
        | some y => simp [get_frame, hf, hfg]

section Lookup

variable (t va t' va' : ℕ)

@[simp] theorem page_at_set_pte (e : pte) :
    (s.set_pte t va e).page_at t' va' = s.page_at t' va' := by
  unfold page_at
  by_cases ht : t' = t
  · subst ht
    simp
  · simp [ht]

theorem pte_at_set_pte (e : pte) :
    (s.set_pte t va e).pte_at t' va' = if t' = t ∧ va' = va then some e else s.pte_at t' va' := by
  unfold pte_at
  by_cases ht : t' = t
  · subst ht
    by_cases hva : va' = va
    · subst hva
      simp [AList.lookup_insert]
    · simp [hva, AList.lookup_insert_ne hva]
  · simp [ht]

@[simp] theorem page_at_modify_pte (g : pte → pte) :
    (s.modify_pte t va g).page_at t' va' = s.page_at t' va' := by
  unfold page_at
  by_cases ht : t' = t
  · subst ht
    simp
  · simp [ht]

theorem pte_at_modify_pte (g : pte → pte) :
    (s.modify_pte t va g).pte_at t' va'
      = if t' = t ∧ va' = va then (s.pte_at t va).map g else s.pte_at t' va' := by
  unfold pte_at
  by_cases ht : t' = t
  · subst ht
    by_cases hva : va' = va
    · subst hva
      cases he : (s.proc t').pml4.lookup va' with
      | none => simp [he]
      | some e => simp [he, AList.lookup_insert]
    · cases he : (s.proc t').pml4.lookup va with
      | none => simp [he, hva]
      | some e => simp [he, hva, AList.lookup_insert_ne hva]
  · simp [ht]

@[simp] theorem alive_set_pte (e : pte) :
    ((s.set_pte t va e).proc t').alive = (s.proc t').alive := by
  by_cases ht : t' = t
  · subst ht
    simp
  · simp [ht]

@[simp] theorem alive_modify_pte (g : pte → pte) :
    ((s.modify_pte t va g).proc t').alive = (s.proc t').alive := by
  by_cases ht : t' = t
  · subst ht
    simp
  · simp [ht]

@[simp] theorem alive_set_spt (spt : AList (fun _ : ℕ => ℕ)) :
    ((s.set_spt t spt).proc t').alive = (s.proc t').alive := by
  by_cases ht : t' = t
  · subst ht
    simp
  · simp [ht]

@[simp] theorem pte_at_set_spt (spt : AList (fun _ : ℕ => ℕ)) :
    (s.set_spt t spt).pte_at t' va' = s.pte_at t' va' := by
  unfold pte_at
  by_cases ht : t' = t
  · subst ht
    simp
  · simp [ht]

theorem page_at_set_spt (spt : AList (fun _ : ℕ => ℕ)) :
    (s.set_spt t spt).page_at t' va' = if t' = t then spt.lookup va' else s.page_at t' va' := by
  unfold page_at
  by_cases ht : t' = t
  · subst ht
    simp
  · simp [ht]

end Lookup

end vm

/-! ## `threads/mmu.c` -/

section Mmu

variable (s : vm) (t : ℕ)

/-- `pml4_get_page (pml4, upage) != NULL`. -/
def pml4_present (upage : ℕ) : Bool :=
  match s.pte_at t upage with
  | some e => e.present
  | none => false

/-- `pml4_set_page`. -/
def pml4_set_page (upage kpage : ℕ) (rw : Bool) : Outcome vm := do
  Outcome.assert (pg_ofs upage = 0)
  Outcome.assert (upage < KERN_BASE)
  return s.set_pte t upage
    { kva := kpage, present := true, writable := rw, accessed := false, dirty := false }

/-- The page table after `pml4_clear_page`. -/
def pml4_cleared (upage : ℕ) : vm := s.modify_pte t upage fun e => { e with present := false }

/-- `pml4_clear_page`. -/
def pml4_clear_page (upage : ℕ) : Outcome vm := do
  Outcome.assert (pg_ofs upage = 0)
  Outcome.assert (upage < KERN_BASE)
  return pml4_cleared s t upage

/-- `pml4_is_dirty`. -/
def pml4_is_dirty (vpage : ℕ) : Bool :=
  match s.pte_at t vpage with
  | some e => e.dirty
  | none => false

/-- `pml4_set_dirty`, for an entry that names a page below 4 GB. -/
def pml4_set_dirty (vpage : ℕ) (dirty : Bool) : vm :=
  s.modify_pte t vpage fun e => { e with dirty := dirty }

/-- `pml4_is_accessed`. -/
def pml4_is_accessed (vpage : ℕ) : Bool :=
  match s.pte_at t vpage with
  | some e => e.accessed
  | none => false

/-- `pml4_set_accessed`, for an entry that names a page below 4 GB. -/
def pml4_set_accessed (vpage : ℕ) (accessed : Bool) : vm :=
  s.modify_pte t vpage fun e => { e with accessed := accessed }

/-- Whether the processor lets an access through. -/
def pte_allows (addr : ℕ) (write : Bool) : Option pte :=
  match s.pte_at t (pg_round_down addr) with
  | some e => if e.present && (!write || e.writable) then some e else none
  | none => none

end Mmu

/-! ## The user pool -/

/-- The user pool, which starts at this physical address, ends at 4 GB or below: no mask of `mmu.c`
changes the page that an entry names. -/
def vm.LowPool (s : vm) (start : ℕ) : Prop := start + s.pool_pages * PGSIZE ≤ 0x100000000

/-- `palloc_get_page (PAL_USER)`: the first free page of the pool, if there is one. -/
def palloc_get_page (s : vm) : Option ℕ :=
  (List.range s.pool_pages).find? fun k => !s.used k

/-- The pool after that page is taken, zeroed for `PAL_ZERO`. -/
@[simps] def vm.take_page (s : vm) (kva : ℕ) : vm :=
  { s with used := Function.update s.used kva true, mem := Function.update s.mem kva zeros }

/-- `palloc_free_page`: the page must be in use; it is filled with `0xcc`. -/
def palloc_free_page (s : vm) (kva : ℕ) : Outcome vm := do
  Outcome.assert (s.used kva = true)
  return { s with used := Function.update s.used kva false
                  mem := Function.update s.mem kva fun _ => 0xcc }

/-! ## `frame_table` -/

/-- `frame_table_insert`: `list_push_back` stores into the last element, so that
must still be allocated. -/
def frame_table_insert (s : vm) (f : ℕ) : Outcome vm :=
  match s.frame_table.getLast? with
  | some g =>
      if (s.frame g).isSome then .ok { s with frame_table := s.frame_table ++ [f] }
      else .undefined
  | none => .ok { s with frame_table := [f] }

/-- The elements in front of `f`, and those after it. -/
def frame_table_split (l : List ℕ) (f : ℕ) : List ℕ × List ℕ :=
  (l.takeWhile (· ≠ f), (l.dropWhile (· ≠ f)).tail)

/-- `list_remove` of an element of `frame_table`: it stores into both neighbours. -/
def frame_list_remove (s : vm) (f : ℕ) : Outcome vm :=
  let (before, after) := frame_table_split s.frame_table f
  if (before.getLast?.all fun g => (s.frame g).isSome)
      && (after.head?.all fun g => (s.frame g).isSome) then
    .ok { s with frame_table := before ++ after }
  else .undefined

end Pintos
