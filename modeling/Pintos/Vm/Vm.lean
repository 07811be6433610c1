/-
`vm/*.c`: demand paging, swapping, copy-on-write fork and mapped files.

Every function works on the whole state and on the process `t` that runs it
(`thread_current ()`). A null pointer that the kernel follows is a panic; an
object that has been freed is undefined to touch, and so is one of the wrong
type behind a `void *`. Kernel heap allocation succeeds.

The eviction path is where processes meet. `frame_table` is one list for all of
them, and whichever process faults picks a victim from it; the accessed bit, the
dirty bit and the mapping that goes are looked up in *its* page table
(`vm_get_victim`, `file_backed_swap_out`, `vm_evict_frame`).

`vm_get_victim` opens with `ASSERT (victim != NULL)` on a local that has no
value yet. Nothing else reads that value; the assertion is taken to pass.
-/
import Pintos.Vm.Page

set_option autoImplicit false

namespace Pintos

/-! ## The swap area -/

/-- The number of slots of `swap_table`, eight sectors each. -/
def swap_slots (s : vm) : ℕ := disk_size s.swap_disk / (PGSIZE / DISK_SECTOR_SIZE)

/-- `bitmap_scan` for one clear bit. -/
def swap_scan (s : vm) : Option ℕ :=
  (List.range (swap_slots s)).find? fun i => !s.swap_table i

/-- The write loop of `anon_swap_out`, with `n` sectors to go. -/
def swap_out_loop (swap_idx : ℕ) (kva : Bytes) : ℕ → ℕ → disk → Outcome disk
  | 0, _, d => .ok d
  | n + 1, i, d => do
      let d ← disk_write d (swap_idx * 8 + i) fun k => kva (DISK_SECTOR_SIZE * i + k)
      swap_out_loop swap_idx kva n (i + 1) d

/-- The read loop of `anon_swap_in`. -/
def swap_in_loop (d : disk) (swap_idx : ℕ) : ℕ → ℕ → Bytes → Outcome Bytes
  | 0, _, kva => .ok kva
  | n + 1, i, kva => do
      let sector ← disk_read d (swap_idx * 8 + i)
      swap_in_loop d swap_idx n (i + 1)
        (memcpy kva (DISK_SECTOR_SIZE * i) sector DISK_SECTOR_SIZE)

/-- The state with other swap contents. -/
@[simps] def vm.set_swap (s : vm) (d : disk) (swap_idx : ℕ) (bit : Bool) : vm :=
  { s with swap_disk := d, swap_table := Function.update s.swap_table swap_idx bit }

/-! ## Supplemental page tables -/

/-- `spt_find_page`. -/
def spt_find_page (s : vm) (t va : ℕ) : Option ℕ := s.page_at t (pg_round_down va)

/-- The state with a new `struct page` on the heap. -/
@[simps] def vm.new_page (s : vm) (pg : Pintos.page) : vm :=
  { s with page := Function.update s.page s.next_page (some pg), next_page := s.next_page + 1 }

/-- `free` of a `struct page`. -/
@[simps] def vm.free_page (s : vm) (p : ℕ) : vm :=
  { s with page := Function.update s.page p none }

/-- The initializer that `vm_alloc_page_with_initializer` picks. -/
def initializer_of (type : vm_type) : Option page_initializer :=
  match type with
  | .VM_ANON => some .anon_initializer
  | .VM_MMAP => some .file_backed_initializer
  | .VM_FILE => some .file_backed_initializer
  | _ => none

/-- `vm_alloc_page_with_initializer`, for a type other than `VM_UNINIT`. -/
def vm_alloc_page_with_initializer (s : vm) (t : ℕ) (type : vm_type) (upage : ℕ)
    (writable : Bool) (init : Option vm_initializer) (aux : aux_ptr) : Bool × vm :=
  match spt_find_page s t upage, initializer_of type, s.page_at t upage with
  | none, some page_initializer, none =>
      let u : uninit_page := { init := init, type := type, aux := aux, page_initializer }
      let pg : page := { va := upage, frame := none, writable := writable, kind := .uninit u }
      (true, (s.new_page pg).set_spt t ((s.proc t).spt.insert upage s.next_page))
  | _, _, _ => (false, s)

/-! ## Initialising and swapping in -/

/-- What `lazy_load_segment` and `file_backed_swap_in` do: bytes of the file,
then zeros. Past the end of the page both would leave the frame. -/
def load_page (s : vm) (kva file : ℕ) (offset : ℤ) (read_byte zero_byte : ℕ) :
    Outcome (Bool × vm) :=
  if PGSIZE < read_byte + zero_byte then .undefined
  else do
    let (n, b) ← file_read_at s.files file (s.mem kva) (i32 read_byte) offset
    if n ≠ i32 read_byte then return (false, s.set_mem kva b)
    else return (true, s.set_mem kva (memcpy b read_byte zeros zero_byte))

/-- `lazy_load_segment`. -/
def lazy_load_segment (s : vm) (p : ℕ) (aux : aux_ptr) : Outcome (Bool × vm) :=
  match aux with
  | .null => .panic
  | .mmap _ _ => .undefined
  | .info i => do
      let pg ← s.get_page p
      let (_, fr) ← s.get_frame pg.frame
      load_page s fr.kva i.file i.offset i.readbyte i.zerobyte

/-- `anon_initializer`. -/
def anon_initializer (s : vm) (p kva : ℕ) : Outcome vm := do
  let pg ← s.get_page p
  let (_, fr) ← s.get_frame pg.frame
  let s := s.set_page p { pg with kind := .anon (-1) }
  return if fr.ref_cnt ≤ 1 then s.set_mem kva zeros else s

/-- `file_backed_initializer`. -/
def file_backed_initializer (s : vm) (p : ℕ) (aux : aux_ptr) : Outcome vm :=
  match aux with
  | .null => .panic
  | .info _ => .undefined
  | .mmap i mapping_count => do
      let pg ← s.get_page p
      let fp : file_page :=
        { mapping_count := mapping_count, file := i.file, offset := i.offset
          read_byte := i.readbyte, zero_byte := i.zerobyte }
      return s.set_page p { pg with kind := .file fp }

/-- The `aux` that `uninit_initialize` hands to `init`. -/
def uninit_aux (u : uninit_page) : Outcome aux_ptr :=
  if u.type = .VM_MMAP ∨ u.type = .VM_FILE then
    match u.aux with
    | .null => .panic
    | .info _ => .undefined
    | .mmap i _ => .ok (.info i)
  else .ok u.aux

/-- `uninit->page_initializer`. -/
def run_page_initializer (s : vm) (p : ℕ) (u : uninit_page) (kva : ℕ) : Outcome vm :=
  match u.page_initializer with
  | .anon_initializer => anon_initializer s p kva
  | .file_backed_initializer => file_backed_initializer s p u.aux

/-- `init ? init (page, aux) : true`. -/
def run_init (s : vm) (p : ℕ) (init : Option vm_initializer) (aux : aux_ptr) :
    Outcome (Bool × vm) :=
  match init with
  | some .lazy_load_segment => lazy_load_segment s p aux
  | none => .ok (true, s)

/-- `uninit_initialize`. -/
def uninit_initialize (s : vm) (p : ℕ) (u : uninit_page) (kva : ℕ) : Outcome (Bool × vm) := do
  let aux ← uninit_aux u
  let s ← run_page_initializer s p u kva
  run_init s p u.init aux

/-- `anon_swap_in`. -/
def anon_swap_in (s : vm) (p : ℕ) (swap_idx : ℤ) (kva : ℕ) : Outcome (Bool × vm) :=
  if swap_idx < 0 then .ok (false, s)
  else do
    let pg ← s.get_page p
    let b ← swap_in_loop s.swap_disk swap_idx.toNat 8 0 (s.mem kva)
    let s := (s.set_mem kva b).set_swap s.swap_disk swap_idx.toNat false
    return (true, s.set_page p { pg with kind := .anon (-1) })

/-- `file_backed_swap_in`. -/
def file_backed_swap_in (s : vm) (fp : file_page) (kva : ℕ) : Outcome (Bool × vm) :=
  load_page s kva fp.file fp.offset fp.read_byte fp.zero_byte

/-- `swap_in (page, kva)`. -/
def swap_in (s : vm) (p kva : ℕ) : Outcome (Bool × vm) := do
  let pg ← s.get_page p
  match pg.kind with
  | .uninit u => uninit_initialize s p u kva
  | .anon swap_idx => anon_swap_in s p swap_idx kva
  | .file fp => file_backed_swap_in s fp kva

/-! ## Swapping out -/

/-- The end of both `swap_out` functions: page and frame let go of each other. -/
def unlink_frame (s : vm) (p : ℕ) (pg : page) (kind : page_kind) : Outcome vm := do
  let (f, fr) ← s.get_frame pg.frame
  return (s.set_frame f { fr with page := none }).set_page p { pg with frame := none, kind := kind }

/-- `anon_swap_out`. With no slot left, its own `bitmap_test` of an index past the
end trips an assertion. -/
def anon_swap_out (s : vm) (p : ℕ) : Outcome (Bool × vm) :=
  match swap_scan s with
  | none => .panic
  | some swap_idx => do
      let pg ← s.get_page p
      let (_, fr) ← s.get_frame pg.frame
      let d ← swap_out_loop swap_idx (s.mem fr.kva) 8 0 s.swap_disk
      let s ← unlink_frame (s.set_swap d swap_idx true) p pg (.anon swap_idx)
      return (true, s)

/-- The write-back of `file_backed_swap_out` and `file_backed_destroy`: whether
everything was written. -/
def write_back (s : vm) (t : ℕ) (pg : page) (fp : file_page) : Outcome (Bool × vm) := do
  let (_, fr) ← s.get_frame pg.frame
  let (n, fs) ← file_write_at s.files fp.file (s.mem fr.kva) (i32 fp.read_byte) fp.offset
  if n ≠ i32 fp.read_byte then return (false, s.set_files fs)
  else return (true, pml4_set_dirty (s.set_files fs) t pg.va false)

/-- `if (pml4_is_dirty (curr->pml4, page->va))`: the write-back, in the page table
of the process that runs. -/
def write_back_dirty (s : vm) (t : ℕ) (pg : page) (fp : file_page) : Outcome (Bool × vm) :=
  if pml4_is_dirty s t pg.va then write_back s t pg fp else .ok (true, s)

/-- `file_backed_swap_out`. -/
def file_backed_swap_out (s : vm) (t p : ℕ) (pg : page) (fp : file_page) :
    Outcome (Bool × vm) := do
  let (done, s) ← write_back_dirty s t pg fp
  if done then
    let s ← unlink_frame s p pg (.file fp)
    return (true, s)
  else return (false, s)

/-- `swap_out (page)`. An uninitialised page has no `swap_out`. -/
def swap_out (s : vm) (t p : ℕ) : Outcome (Bool × vm) := do
  let pg ← s.get_page p
  match pg.kind with
  | .uninit _ => .panic
  | .anon _ => anon_swap_out s p
  | .file fp => file_backed_swap_out s t p pg fp

/-! ## Frames -/

/-- `victim->page->va`. -/
def victim_va (s : vm) (f : ℕ) : Outcome ℕ := do
  let (_, fr) ← s.get_frame (some f)
  match fr.page with
  | none => .panic
  | some p => do
      let pg ← s.get_page p
      return pg.va

/-- The loop of `vm_get_victim`: the first frame whose page has its accessed bit
clear in the page table of `t`. The bits it passes are cleared. -/
def clock_scan (t : ℕ) : List ℕ → vm → Outcome (Option ℕ × vm)
  | [], s => .ok (none, s)
  | f :: fs, s => do
      let va ← victim_va s f
      if pml4_is_accessed s t va then clock_scan t fs (pml4_set_accessed s t va false)
      else return (some f, s)

/-- The frames in the order the clock hand meets them. -/
def clock_order (s : vm) : Outcome (List ℕ) :=
  match s.clock_start with
  | none => .ok s.frame_table
  | some f =>
      if f ∈ s.frame_table then
        .ok (s.frame_table.dropWhile (· ≠ f) ++ s.frame_table.takeWhile (· ≠ f))
      else .undefined

/-- The state with the clock hand moved. -/
@[simps] def vm.set_clock (s : vm) (f : Option ℕ) : vm := { s with clock_start := f }

/-- `vm_get_victim`: after a full round the frame under the hand. In an empty
table it would read the list head as a frame. -/
def vm_get_victim (s : vm) (t : ℕ) : Outcome (ℕ × vm) := do
  let order ← clock_order s
  match order with
  | [] => .undefined
  | hand :: rest => do
      let (found, s) ← clock_scan t (hand :: rest) s
      let victim := found.getD hand
      return (victim, s.set_clock (frame_table_split s.frame_table victim).2.head?)

/-- `vm_evict_frame`: null when the victim could not be written out. -/
def vm_evict_frame (s : vm) (t : ℕ) : Outcome (Option ℕ × vm) := do
  let (victim, s) ← vm_get_victim s t
  let (_, fr) ← s.get_frame (some victim)
  match fr.page with
  | none => .ok (none, s)
  | some p => do
      let pg ← s.get_page p
      let (done, s) ← swap_out s t p
      if done then
        let s ← pml4_clear_page s t pg.va
        let s ← frame_list_remove s victim
        return (some victim, s)
      else return (none, s)

/-- `free` of a `struct frame`. -/
@[simps] def vm.free_frame (s : vm) (f : ℕ) : vm :=
  { s with frame := Function.update s.frame f none }

/-- The state with a new `struct frame` on the heap. -/
@[simps] def vm.new_frame (s : vm) (fr : Pintos.frame) : vm :=
  { s with frame := Function.update s.frame s.next_frame (some fr)
           next_frame := s.next_frame + 1 }

/-- The kernel page of `vm_get_frame`: a free one, or that of a victim. -/
def frame_kva (s : vm) (t : ℕ) : Outcome (ℕ × vm) :=
  match palloc_get_page s with
  | some kva => .ok (kva, s.take_page kva)
  | none => do
      let (victim, s) ← vm_evict_frame s t
      let (v, fr) ← s.get_frame victim
      return (fr.kva, s.free_frame v)

/-- `vm_get_frame`. -/
def vm_get_frame (s : vm) (t : ℕ) : Outcome (ℕ × vm) := do
  let (kva, s) ← frame_kva s t
  let f := s.next_frame
  let s ← frame_table_insert (s.new_frame { kva, ref_cnt := 1, page := none }) f
  return (f, s)

/-! ## Faults -/

/-- `vm_do_claim_page`. -/
def vm_do_claim_page (s : vm) (t p : ℕ) : Outcome (Bool × vm) := do
  let (f, s) ← vm_get_frame s t
  let (_, fr) ← s.get_frame (some f)
  let pg ← s.get_page p
  let s := (s.set_frame f { fr with page := some p }).set_page p { pg with frame := some f }
  let s ← pml4_set_page s t pg.va fr.kva pg.writable
  swap_in s p fr.kva

/-- `vm_claim_page`. -/
def vm_claim_page (s : vm) (t va : ℕ) : Outcome (Bool × vm) :=
  match spt_find_page s t va with
  | none => .ok (false, s)
  | some p => vm_do_claim_page s t p

/-- `vm_stack_growth`: the results of both calls are dropped. -/
def vm_stack_growth (s : vm) (t addr : ℕ) : Outcome vm := do
  let (_, s) := vm_alloc_page_with_initializer s t .VM_ANON addr true none .null
  let (_, s) ← vm_claim_page s t addr
  return s

/-- `vm_handle_wp`. -/
def vm_handle_wp (s : vm) (t p : ℕ) : Outcome (Bool × vm) := do
  let pg ← s.get_page p
  let (cf, copy_frame) ← s.get_frame pg.frame
  if copy_frame.ref_cnt > 1 then
    let (f, s) ← vm_get_frame s t
    let (_, fr) ← s.get_frame (some f)
    let pg ← s.get_page p
    let s := s.set_page p { pg with frame := some f }
    -- `copy_frame` is followed again: the eviction may have freed it
    let (_, copy_frame) ← s.get_frame (some cf)
    let s := s.set_mem fr.kva (s.mem copy_frame.kva)
    let s := s.set_frame cf { copy_frame with ref_cnt := copy_frame.ref_cnt - 1 }
    let s ← pml4_set_page s t pg.va fr.kva true
    return (true, s)
  else
    let s := s.set_frame cf { copy_frame with page := some p }
    let s ← pml4_set_page s t pg.va copy_frame.kva true
    return (true, s)

/-- The test of `vm_try_handle_fault` for a fault below the stack. -/
def is_stack_growth (s : vm) (t addr : ℕ) : Bool :=
  decide (((s.proc t).user_rsp + 2 ^ 64 - STACK_GROW_RANGE) % 2 ^ 64 ≤ addr
    ∧ addr < USER_STACK ∧ USER_STACK - 2 ^ 20 ≤ addr)

/-- `vm_try_handle_fault`. -/
def vm_try_handle_fault (s : vm) (t addr : ℕ) (write : Bool) : Outcome (Bool × vm) :=
  let addr := pg_round_down addr
  match spt_find_page s t addr with
  | none =>
      if is_stack_growth s t addr then do
        let s ← vm_stack_growth s t addr
        return (true, s)
      else .ok (false, s)
  | some p => do
      let pg ← s.get_page p
      if write && !pg.writable then return (false, s)
      else if write && pg.writable && pg.frame.isSome then vm_handle_wp s t p
      else vm_do_claim_page s t p

end Pintos
