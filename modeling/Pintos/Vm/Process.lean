/-
What a process does to memory: accesses, `fork`, `mmap`, `munmap`, exit.

An access goes to the page table first. If the entry forbids it the processor
raises a page fault, `page_fault` runs `vm_try_handle_fault`, and the
instruction is started again when that returns true; otherwise the process is
killed.

`struct page` is a union, and `do_munmap` reads the members of `file_page` out
of pages that are not file pages. `union_file` and `union_mapping_count` say
what it finds there: over `uninit_page` the pointer overlaps `type` and the
count overlaps the function pointer `init`; an anonymous page keeps the type it
was created with and has its swap index in place of the count.
-/
import Pintos.Vm.Vm

set_option autoImplicit false

namespace Pintos

/-! ## Destroying pages -/

/-- `anon_destroy`. -/
def anon_destroy (s : vm) (t : ℕ) (pg : page) (swap_idx : ℤ) : Outcome vm := do
  let s ← pml4_clear_page s t pg.va
  return if swap_idx < 0 then s else s.set_swap s.swap_disk swap_idx.toNat false

/-- The end of `file_backed_destroy`: the frame goes back to the pool when nobody
refers to it. It is not taken off `frame_table`. -/
def release_frame (s : vm) (f : Option ℕ) : Outcome vm :=
  match f with
  | none => .ok s
  | some f => do
      let (_, fr) ← s.get_frame (some f)
      if fr.ref_cnt < 1 then
        let s ← palloc_free_page s fr.kva
        return s.free_frame f
      else return s

/-- `file_backed_destroy`. -/
def file_backed_destroy (s : vm) (t : ℕ) (pg : page) (fp : file_page) : Outcome vm := do
  let fs ← file_allow_write s.files fp.file
  let s := s.set_files fs
  let (done, s) ← write_back_dirty s t pg fp
  Outcome.assert (done = true)
  let s ← release_frame s pg.frame
  pml4_clear_page s t pg.va

/-- `destroy (page)`. For an uninitialised page only `aux` is freed. -/
def destroy (s : vm) (t : ℕ) (pg : page) : Outcome vm :=
  match pg.kind with
  | .uninit _ => .ok s
  | .anon swap_idx => anon_destroy s t pg swap_idx
  | .file fp => file_backed_destroy s t pg fp

/-- `if (page->frame) page->frame->ref_cnt--`. -/
def drop_ref (s : vm) (f : Option ℕ) : Outcome vm :=
  match f with
  | none => .ok s
  | some f => do
      let (_, fr) ← s.get_frame (some f)
      return s.set_frame f { fr with ref_cnt := fr.ref_cnt - 1 }

/-- `vm_dealloc_page`. -/
def vm_dealloc_page (s : vm) (t p : ℕ) : Outcome vm := do
  let pg ← s.get_page p
  let s ← drop_ref s pg.frame
  let s ← destroy s t pg
  return s.free_page p

/-- `spt_remove_page`. -/
def spt_remove_page (s : vm) (t p : ℕ) : Outcome vm := do
  let pg ← s.get_page p
  if (s.page_at t pg.va).isSome then
    let s := s.set_spt t ((s.proc t).spt.erase pg.va)
    let s ← pml4_clear_page s t pg.va
    vm_dealloc_page s t p
  else return s

/-! ## Exit -/

/-- `hash_clear (&curr->spt, hash_spt_entry_kill)`: each entry is taken out of its
bucket, then destroyed. -/
def spt_kill_loop (t : ℕ) : List (Sigma fun _ : ℕ => ℕ) → vm → Outcome vm
  | [], s => .ok s
  | ⟨va, p⟩ :: entries, s => do
      let s ← vm_dealloc_page (s.set_spt t ((s.proc t).spt.erase va)) t p
      spt_kill_loop t entries s

/-- `supplemental_page_table_kill`. -/
def supplemental_page_table_kill (s : vm) (t : ℕ) : Outcome vm :=
  spt_kill_loop t (s.proc t).spt.entries s

/-- `pml4_destroy` on the user half: every page still present is freed. -/
def pml4_destroy_loop : List (Sigma fun _ : ℕ => pte) → vm → Outcome vm
  | [], s => .ok s
  | ⟨_, e⟩ :: entries, s =>
      if e.present then do
        let s ← palloc_free_page s e.kva
        pml4_destroy_loop entries s
      else pml4_destroy_loop entries s

/-- The process is gone, and its page table with it. -/
@[simps] def vm.drop_process (s : vm) (t : ℕ) : vm :=
  let pr : process := { s.proc t with pml4 := ∅, alive := false }
  { s with proc := Function.update s.proc t pr }

/-- `process_cleanup`, the part of `process_exit` that is about memory. -/
def process_cleanup (s : vm) (t : ℕ) : Outcome vm := do
  let s ← supplemental_page_table_kill s t
  let s ← pml4_destroy_loop (s.proc t).pml4.entries s
  return s.drop_process t

/-! ## Accesses -/

/-- The process with another `user_rsp`. -/
@[simps] def vm.set_rsp (s : vm) (t rsp : ℕ) : vm :=
  let pr : process := { s.proc t with user_rsp := rsp }
  { s with proc := Function.update s.proc t pr }

/-- An access by user code: the entry it goes through, or none if the process is
killed. A fault that is handled restarts the access; it then either goes through
or faults for ever. -/
def user_access (s : vm) (t addr rsp : ℕ) (write : Bool) : Outcome (Option pte × vm) :=
  match pte_allows s t addr write with
  | some e => .ok (some e, s)
  | none => do
      let (handled, s) ← vm_try_handle_fault (s.set_rsp t rsp) t addr write
      if handled then
        match pte_allows s t addr write with
        | some e => .ok (some e, s)
        | none => .diverge
      else
        let s ← process_cleanup s t
        return (none, s)

/-- A load by user code, with the stack pointer at `rsp`. -/
def user_read (s : vm) (t addr rsp : ℕ) : Outcome (Option UInt8 × vm) := do
  let (e, s) ← user_access s t addr rsp false
  match e with
  | none => .ok (none, s)
  | some e =>
      .ok (some (s.mem e.kva (pg_ofs addr)),
        s.set_pte t (pg_round_down addr) { e with accessed := true })

/-- A store by user code. -/
def user_write (s : vm) (t addr rsp : ℕ) (b : UInt8) : Outcome (Bool × vm) := do
  let (e, s) ← user_access s t addr rsp true
  match e with
  | none => .ok (false, s)
  | some e =>
      .ok (true, (s.set_mem e.kva (Function.update (s.mem e.kva) (pg_ofs addr) b)).set_pte t
        (pg_round_down addr) { e with accessed := true, dirty := true })

/-! ## Fork -/

/-- `vm_copy_claim_page`. -/
def vm_copy_claim_page (s : vm) (t va parent : ℕ) : Outcome (Bool × vm) :=
  match spt_find_page s t va with
  | none => .ok (false, s)
  | some p => do
      let ppg ← s.get_page parent
      let (f, fr) ← s.get_frame ppg.frame
      let ref_cnt := fr.ref_cnt + 1
      let s := s.set_frame f { fr with ref_cnt := ref_cnt }
      if ref_cnt = 1 then return (true, s)
      else
        let pg ← s.get_page p
        let s := s.set_page p { pg with frame := some f }
        let s ← pml4_set_page s t pg.va fr.kva false
        swap_in s p fr.kva

/-- `make_info`. -/
def make_info (file : ℕ) (offset : ℤ) (read_byte : ℕ) : lazy_load_info where
  file := file
  offset := offset
  readbyte := read_byte
  zerobyte := (PGSIZE + 2 ^ 64 - read_byte) % 2 ^ 64

/-- The object behind a `struct lazy_load_info`, with its file reopened. -/
def reopen_info (s : vm) (i : lazy_load_info) : Outcome (lazy_load_info × vm) := do
  let (file, fs) ← file_reopen s.files i.file
  return ({ i with file := file }, s.set_files fs)

/-- `duplicate_aux`. -/
def duplicate_aux (s : vm) (u : uninit_page) : Outcome (aux_ptr × vm) :=
  match u.aux with
  | .null => .panic
  | .mmap i mapping_count =>
      if u.type = .VM_MMAP then do
        let (i, s) ← reopen_info s i
        return (.mmap i mapping_count, s)
      else .undefined
  | .info i =>
      if u.type = .VM_MMAP then .undefined
      else do
        let (i, s) ← reopen_info s i
        return (.info i, s)

/-- `supplemental_page_table_copy`, for a page that was never touched. The new page
is anonymous whatever the old one was going to be. -/
def copy_uninit (s : vm) (t : ℕ) (pg : page) (u : uninit_page) : Outcome (Bool × vm) := do
  let (aux, s) ← duplicate_aux s u
  let (_, s) := vm_alloc_page_with_initializer s t .VM_ANON pg.va pg.writable u.init aux
  return (true, s)

/-- For a file page: the page is set up to read the file again, then shares the frame. -/
def copy_file (s : vm) (t src : ℕ) (pg : page) (fp : file_page) : Outcome (Bool × vm) := do
  let (file, fs) ← file_reopen s.files fp.file
  let aux : aux_ptr := .mmap (make_info file fp.offset fp.read_byte) fp.mapping_count
  let (done, s) := vm_alloc_page_with_initializer (s.set_files fs) t .VM_FILE pg.va pg.writable
    (some .lazy_load_segment) aux
  if done then vm_copy_claim_page s t pg.va src else return (false, s)

/-- `memcpy (dst_page->frame->kva, src_page->frame->kva, PGSIZE)`. -/
def copy_frame_contents (s : vm) (t va src : ℕ) : Outcome vm :=
  match spt_find_page s t va with
  | none => .panic
  | some p => do
      let dpg ← s.get_page p
      let (_, dfr) ← s.get_frame dpg.frame
      let spg ← s.get_page src
      let (_, sfr) ← s.get_frame spg.frame
      return s.set_mem dfr.kva (s.mem sfr.kva)

/-- For an anonymous page: the frame is shared, and copied onto itself. -/
def copy_anon (s : vm) (t src : ℕ) (pg : page) : Outcome (Bool × vm) := do
  let (done, s) := vm_alloc_page_with_initializer s t .VM_ANON pg.va pg.writable none .null
  if done then
    let (done, s) ← vm_copy_claim_page s t pg.va src
    if done then
      let s ← copy_frame_contents s t pg.va src
      return (true, s)
    else return (false, s)
  else return (false, s)

/-- One turn of the loop of `supplemental_page_table_copy`. -/
def copy_page (s : vm) (t src : ℕ) : Outcome (Bool × vm) := do
  let pg ← s.get_page src
  match pg.kind with
  | .uninit u => copy_uninit s t pg u
  | .file fp => copy_file s t src pg fp
  | .anon _ => copy_anon s t src pg

/-- `supplemental_page_table_copy`, run by the child `t`, over the entries of the
parent's table. -/
def supplemental_page_table_copy (t : ℕ) :
    List (Sigma fun _ : ℕ => ℕ) → vm → Outcome (Bool × vm)
  | [], s => .ok (true, s)
  | ⟨_, src⟩ :: entries, s => do
      let (done, s) ← copy_page s t src
      if done then supplemental_page_table_copy t entries s else return (false, s)

/-- The state with one more process, its tables fresh. -/
@[simps] def vm.new_process (s : vm) : vm :=
  { s with proc := Function.update s.proc s.next_proc process.empty
           next_proc := s.next_proc + 1 }

/-- The memory part of `process_fork` and `__do_fork`: whether the copy succeeded.
A child whose copy fails exits. -/
def process_fork (s : vm) (parent : ℕ) : Outcome (Bool × vm) := do
  let child := s.next_proc
  let (done, s) ← supplemental_page_table_copy child (s.proc parent).spt.entries s.new_process
  if done then return (true, s)
  else
    let s ← process_cleanup s child
    return (false, s)

/-! ## Mapped files -/

/-- The loop of `do_mmap`. -/
def mmap_loop (t file : ℕ) (writable : Bool) : ℕ → vm → ℕ → ℕ → ℤ → ℤ → Outcome vm
  | 0, _, _, _, _, _ => .diverge
  | fuel + 1, s, remain_length, cur_addr, cur_offset, mapping_count =>
      if remain_length = 0 then .ok s
      else
        let allocate_length := if remain_length > PGSIZE then PGSIZE else remain_length
        let aux : aux_ptr := .mmap (make_info file cur_offset allocate_length) mapping_count
        let s := (vm_alloc_page_with_initializer s t .VM_MMAP cur_addr writable
          (some .lazy_load_segment) aux).2
        if remain_length < PGSIZE then .ok s
        else mmap_loop t file writable fuel s (remain_length - PGSIZE) (cur_addr + PGSIZE)
          (i32 (cur_offset + PGSIZE)) (i32 (mapping_count + 1))

/-- `do_mmap`. Its `length` argument is never read: the mapping runs to the end of
the file. -/
def do_mmap (s : vm) (t addr : ℕ) (writable : Bool) (file : ℕ) (offset : ℤ) : Outcome vm := do
  let file_size ← file_length s.files file
  let read_size := i32 (file_size - offset)
  let remain_length := read_size.toNat
  let (reopen_file, fs) ← file_reopen s.files file
  mmap_loop t reopen_file writable (remain_length / PGSIZE + 2) (s.set_files fs) remain_length
    addr offset 0

/-- `pg_round_up`. -/
def pg_round_up (va : ℕ) : ℕ := (va + PGSIZE - 1) / PGSIZE * PGSIZE

/-- The checks of `sys_mmap` on its arguments, the file descriptor looked up. -/
def mmap_checks (s : vm) (t addr length : ℕ) (file_size offset : ℤ) : Bool :=
  decide (file_size ≠ 0 ∧ length ≠ 0 ∧ length ≤ addr ∧ addr ≠ 0 ∧ addr % PGSIZE = 0
    ∧ offset.tmod PGSIZE = 0 ∧ addr < KERN_BASE)
  && (List.range ((pg_round_up (addr + length) - addr) / PGSIZE)).all fun i =>
      (spt_find_page s t (addr + i * PGSIZE)).isNone

/-- `sys_mmap`, the file descriptor looked up. -/
def sys_mmap (s : vm) (t addr length : ℕ) (writable : Bool) (file : ℕ) (offset : ℤ) :
    Outcome vm := do
  let file_size ← file_length s.files file
  if mmap_checks s t addr length file_size offset then do_mmap s t addr writable file offset
  else return s

/-- A word where a `struct file *` is expected. -/
inductive file_word
  | file (f : ℕ)
  | word (n : ℕ)
  deriving DecidableEq, Repr

/-- `page->file.file`. -/
def union_file : page_kind → file_word
  | .uninit u => .word u.type.toNat
  | .anon _ => .word vm_type.VM_ANON.toNat
  | .file fp => .file fp.file

/-- `page->file.mapping_count`. -/
def union_mapping_count (s : vm) : page_kind → ℤ
  | .uninit u => match u.init with
      | some .lazy_load_segment => s.lazy_load_segment_word
      | none => 0
  | .anon swap_idx => swap_idx
  | .file fp => fp.mapping_count

/-- `is_my_mmap`, with the page it found. -/
def is_my_mmap (s : vm) (t addr : ℕ) (mmap_file : file_word) (mmap_count : ℤ) :
    Outcome (Option ℕ) :=
  match spt_find_page s t addr with
  | none => .ok none
  | some p => do
      let pg ← s.get_page p
      if union_file pg.kind = .word 0 ∨ union_file pg.kind ≠ mmap_file then return none
      else if union_mapping_count s pg.kind ≠ mmap_count then return none
      else return some p

/-- The loop of `do_munmap`. -/
def munmap_loop (t : ℕ) (target_file : file_word) : ℕ → vm → ℕ → ℤ → Outcome vm
  | 0, _, _, _ => .diverge
  | fuel + 1, s, addr, mmap_count => do
      let found ← is_my_mmap s t addr target_file mmap_count
      match found with
      | none => .ok s
      | some p => do
          let s ← spt_remove_page s t p
          munmap_loop t target_file fuel s (addr + PGSIZE) (i32 (mmap_count + 1))

/-- `do_munmap`. Every turn of the loop removes an entry of the table. -/
def do_munmap (s : vm) (t addr : ℕ) : Outcome vm :=
  match spt_find_page s t addr with
  | none => .ok s
  | some p => do
      let pg ← s.get_page p
      let s ← munmap_loop t (union_file pg.kind) ((s.proc t).spt.entries.length + 1) s
        (addr + PGSIZE) (i32 (union_mapping_count s pg.kind + 1))
      spt_remove_page s t p

/-! ## Runs -/

/-- What can happen: an access or a call by a process. -/
inductive vm_event
  | read (t addr rsp : ℕ)
  | write (t addr rsp : ℕ) (b : UInt8)
  | mmap (t addr length : ℕ) (writable : Bool) (file : ℕ) (offset : ℤ)
  | munmap (t addr : ℕ)
  | fork (parent : ℕ)
  | exit (t : ℕ)
  deriving DecidableEq, Repr

/-- The process that acts. -/
def vm_event.proc : vm_event → ℕ
  | read t _ _ => t
  | write t _ _ _ => t
  | mmap t _ _ _ _ _ => t
  | munmap t _ => t
  | fork t => t
  | exit t => t

/-- One event. A process that has exited has none. -/
def vm_step (s : vm) (e : vm_event) : Outcome vm :=
  if (s.proc e.proc).alive then
    match e with
    | .read t addr rsp => do
        let (_, s) ← user_read s t addr rsp
        return s
    | .write t addr rsp b => do
        let (_, s) ← user_write s t addr rsp b
        return s
    | .mmap t addr length writable file offset => sys_mmap s t addr length writable file offset
    | .munmap t addr => do_munmap s t addr
    | .fork parent => do
        let (_, s) ← process_fork s parent
        return s
    | .exit t => process_cleanup s t
  else .undefined

/-- What an event did. -/
inductive Stepped (s : vm) : vm_event → vm → Prop
  | read {t addr rsp : ℕ} {b : Option UInt8} {s' : vm}
      (hrun : user_read s t addr rsp = .ok (b, s')) : Stepped s (.read t addr rsp) s'
  | write {t addr rsp : ℕ} {b : UInt8} {done : Bool} {s' : vm}
      (hrun : user_write s t addr rsp b = .ok (done, s')) : Stepped s (.write t addr rsp b) s'
  | mmap {t addr length file : ℕ} {writable : Bool} {offset : ℤ} {s' : vm}
      (hrun : sys_mmap s t addr length writable file offset = .ok s') :
      Stepped s (.mmap t addr length writable file offset) s'
  | munmap {t addr : ℕ} {s' : vm} (hrun : do_munmap s t addr = .ok s') :
      Stepped s (.munmap t addr) s'
  | fork {parent : ℕ} {done : Bool} {s' : vm} (hrun : process_fork s parent = .ok (done, s')) :
      Stepped s (.fork parent) s'
  | exit {t : ℕ} {s' : vm} (hrun : process_cleanup s t = .ok s') : Stepped s (.exit t) s'

/-- Everything an event can do. -/
theorem vm_step_cases {s s' : vm} {e : vm_event} (h : vm_step s e = .ok s') :
    (s.proc e.proc).alive = true ∧ Stepped s e s' := by
  unfold vm_step at h
  split at h
  · rename_i halive
    refine ⟨halive, ?_⟩
    cases e with
    | read t addr rsp =>
        obtain ⟨⟨b, s₁⟩, hrun, h⟩ := Outcome.bind_eq_ok.mp h
        obtain rfl := Outcome.ok.inj h
        exact .read hrun
    | write t addr rsp b =>
        obtain ⟨⟨done, s₁⟩, hrun, h⟩ := Outcome.bind_eq_ok.mp h
        obtain rfl := Outcome.ok.inj h
        exact .write hrun
    | mmap t addr length writable file offset => exact .mmap h
    | munmap t addr => exact .munmap h
    | fork parent =>
        obtain ⟨⟨done, s₁⟩, hrun, h⟩ := Outcome.bind_eq_ok.mp h
        obtain rfl := Outcome.ok.inj h
        exact .fork hrun
    | exit t => exact .exit h
  · cases h

/-- A run: one event after the other. -/
def vm_run : List vm_event → vm → Outcome vm
  | [], s => .ok s
  | e :: es, s => do
      let s ← vm_step s e
      vm_run es s

end Pintos
