/-
What one call of the paging code can do.

Each function of `Vm.lean` is taken apart once: if it returns, the state after it
is one of a few explicit updates of the state before, and the lemma says which
under what conditions. The proofs about whole runs use these and do not unfold
the code again.

Much of what the code does leaves the memory map alone: the clock hand moves,
accessed bits are cleared, `frame_table` is reordered. `SameMap` is that relation.
-/
import Pintos.Vm.Process

set_option autoImplicit false

namespace Pintos

/-! ## Changes that nobody sees -/

namespace vm

/-- The bits of an entry that decide about contents: all but the accessed bit. -/
def entry (e : pte) : ℕ × Bool × Bool × Bool := (e.kva, e.present, e.writable, e.dirty)

/-- Up to accessed bits, `frame_table`, the clock hand and stack pointers, the
states are the same. -/
structure SameMap (s s' : vm) : Prop where
  page_at : ∀ t va, s'.page_at t va = s.page_at t va
  pte_at : ∀ t va, (s'.pte_at t va).map entry = (s.pte_at t va).map entry
  alive : ∀ t, (s'.proc t).alive = (s.proc t).alive
  next_proc : s'.next_proc = s.next_proc
  page : s'.page = s.page
  next_page : s'.next_page = s.next_page
  frame : s'.frame = s.frame
  next_frame : s'.next_frame = s.next_frame
  used : s'.used = s.used
  pool_pages : s'.pool_pages = s.pool_pages
  mem : s'.mem = s.mem
  swap_disk : s'.swap_disk = s.swap_disk
  swap_table : s'.swap_table = s.swap_table
  files : s'.files = s.files

namespace SameMap

variable {s s' s'' : vm}

theorem refl (s : vm) : SameMap s s := by
  constructor <;> intros <;> rfl

theorem trans (h : SameMap s s') (h' : SameMap s' s'') : SameMap s s'' where
  page_at t va := (h'.page_at t va).trans (h.page_at t va)
  pte_at t va := (h'.pte_at t va).trans (h.pte_at t va)
  alive t := (h'.alive t).trans (h.alive t)
  next_proc := h'.next_proc.trans h.next_proc
  page := h'.page.trans h.page
  next_page := h'.next_page.trans h.next_page
  frame := h'.frame.trans h.frame
  next_frame := h'.next_frame.trans h.next_frame
  used := h'.used.trans h.used
  pool_pages := h'.pool_pages.trans h.pool_pages
  mem := h'.mem.trans h.mem
  swap_disk := h'.swap_disk.trans h.swap_disk
  swap_table := h'.swap_table.trans h.swap_table
  files := h'.files.trans h.files

/-- An entry may change its accessed bit. -/
theorem set_pte (s : vm) {t va : ℕ} {e e' : pte} (he : s.pte_at t va = some e)
    (hbits : entry e' = entry e) : SameMap s (s.set_pte t va e') where
  page_at t' va' := s.page_at_set_pte t va t' va' e'
  pte_at t' va' := by
    rw [pte_at_set_pte]
    by_cases heq : t' = t ∧ va' = va
    · rw [if_pos heq, heq.1, heq.2, he, Option.map_some, Option.map_some, hbits]
    · rw [if_neg heq]
  alive t' := s.alive_set_pte t va t' e'
  next_proc := rfl
  page := rfl
  next_page := rfl
  frame := rfl
  next_frame := rfl
  used := rfl
  pool_pages := rfl
  mem := rfl
  swap_disk := rfl
  swap_table := rfl
  files := rfl

theorem set_clock (s : vm) (f : Option ℕ) : SameMap s (s.set_clock f) := by
  constructor <;> intros <;> rfl

theorem set_frame_table (s : vm) (l : List ℕ) : SameMap s { s with frame_table := l } := by
  constructor <;> intros <;> rfl

theorem set_rsp (s : vm) (t rsp : ℕ) : SameMap s (s.set_rsp t rsp) where
  page_at t' va' := by
    unfold vm.page_at
    by_cases ht : t' = t
    · subst ht
      simp
    · simp [ht]
  pte_at t' va' := by
    unfold vm.pte_at
    by_cases ht : t' = t
    · subst ht
      simp
    · simp [ht]
  alive t' := by
    by_cases ht : t' = t
    · subst ht
      simp
    · simp [ht]
  next_proc := rfl
  page := rfl
  next_page := rfl
  frame := rfl
  next_frame := rfl
  used := rfl
  pool_pages := rfl
  mem := rfl
  swap_disk := rfl
  swap_table := rfl
  files := rfl

/-- Clearing an accessed bit. -/
theorem set_accessed (s : vm) (t va : ℕ) (b : Bool) : SameMap s (pml4_set_accessed s t va b) where
  page_at t' va' := s.page_at_modify_pte t va t' va' _
  pte_at t' va' := by
    unfold pml4_set_accessed
    rw [pte_at_modify_pte]
    by_cases heq : t' = t ∧ va' = va
    · rw [if_pos heq, heq.1, heq.2, Option.map_map]
      rfl
    · rw [if_neg heq]
  alive t' := s.alive_modify_pte t va t' _
  next_proc := rfl
  page := rfl
  next_page := rfl
  frame := rfl
  next_frame := rfl
  used := rfl
  pool_pages := rfl
  mem := rfl
  swap_disk := rfl
  swap_table := rfl
  files := rfl

end SameMap

end vm

/-! ## `mmu.c` -/

section Mmu

variable {s s' : vm} {t upage kpage : ℕ} {rw' : Bool}

theorem pml4_set_page_eq_ok (h : pml4_set_page s t upage kpage rw' = .ok s') :
    s' = s.set_pte t upage
      { kva := kpage, present := true, writable := rw', accessed := false, dirty := false } := by
  unfold pml4_set_page at h
  obtain ⟨-, -, h⟩ := Outcome.bind_eq_ok.mp h
  obtain ⟨-, -, h⟩ := Outcome.bind_eq_ok.mp h
  exact (Outcome.ok.inj h).symm

theorem pml4_clear_page_eq_ok (h : pml4_clear_page s t upage = .ok s') :
    s' = pml4_cleared s t upage := by
  unfold pml4_clear_page at h
  obtain ⟨-, -, h⟩ := Outcome.bind_eq_ok.mp h
  obtain ⟨-, -, h⟩ := Outcome.bind_eq_ok.mp h
  exact (Outcome.ok.inj h).symm

end Mmu

/-! ## `vm_get_victim` -/

theorem clock_scan_sameMap (t : ℕ) (l : List ℕ) :
    ∀ {s s' : vm} {found : Option ℕ}, clock_scan t l s = .ok (found, s') → vm.SameMap s s' := by
  induction l with
  | nil =>
      intro s s' found h
      cases h
      exact .refl s
  | cons f fs ih =>
      intro s s' found h
      rw [clock_scan] at h
      obtain ⟨va, -, h⟩ := Outcome.bind_eq_ok.mp h
      by_cases hacc : pml4_is_accessed s t va
      · rw [if_pos hacc] at h
        exact (vm.SameMap.set_accessed s t va false).trans (ih h)
      · rw [if_neg hacc] at h
        cases h
        exact .refl s

/-- Choosing a victim moves the hand and clears accessed bits. -/
theorem vm_get_victim_sameMap {s s' : vm} {t v : ℕ} (h : vm_get_victim s t = .ok (v, s')) :
    vm.SameMap s s' := by
  unfold vm_get_victim at h
  obtain ⟨order, -, h⟩ := Outcome.bind_eq_ok.mp h
  cases order with
  | nil => cases h
  | cons hand rest =>
      obtain ⟨⟨found, s₁⟩, hscan, h⟩ := Outcome.bind_eq_ok.mp h
      cases h
      exact (clock_scan_sameMap t _ hscan).trans (vm.SameMap.set_clock s₁ _)

/-! ## Swapping out -/

section SwapOut

variable {s s' : vm} {t p : ℕ}

/-- The state after a page let go of its frame. -/
def vm.unlink (s : vm) (p : ℕ) (pg : Pintos.page) (f : ℕ) (fr : Pintos.frame)
    (kind : page_kind) : vm :=
  (s.set_frame f { fr with page := none }).set_page p { pg with frame := none, kind := kind }

theorem unlink_frame_eq_ok {pg : page} {kind : page_kind}
    (h : unlink_frame s p pg kind = .ok s') :
    ∃ f fr, pg.frame = some f ∧ s.frame f = some fr ∧ s' = s.unlink p pg f fr kind := by
  unfold unlink_frame at h
  obtain ⟨⟨f, fr⟩, hf, h⟩ := Outcome.bind_eq_ok.mp h
  obtain ⟨hpf, hfr⟩ := vm.get_frame_eq_ok.mp hf
  exact ⟨f, fr, hpf, hfr, (Outcome.ok.inj h).symm⟩

/-- A file page is written back before it goes, if the entry of `t` is dirty. -/
inductive WrittenBack (s : vm) (t : ℕ) (pg : page) (fr : frame) (fp : file_page) : vm → Prop
  | clean (hd : pml4_is_dirty s t pg.va = false) : WrittenBack s t pg fr fp s
  | dirty {fs : filesys} (hd : pml4_is_dirty s t pg.va = true)
      (hw : file_write_at s.files fp.file (s.mem fr.kva) (i32 fp.read_byte) fp.offset
        = .ok (i32 fp.read_byte, fs)) :
      WrittenBack s t pg fr fp (pml4_set_dirty (s.set_files fs) t pg.va false)

/-- What `swap_out` did when it returned true. -/
inductive SwappedOut (s : vm) (t p : ℕ) (pg : page) (f : ℕ) (fr : frame) : vm → Prop
  | anon {i : ℤ} {idx : ℕ} {d : disk} (hk : pg.kind = .anon i) (hscan : swap_scan s = some idx)
      (hd : swap_out_loop idx (s.mem fr.kva) 8 0 s.swap_disk = .ok d) :
      SwappedOut s t p pg f fr ((s.set_swap d idx true).unlink p pg f fr (.anon idx))
  | file {fp : file_page} {s₁ : vm} (hk : pg.kind = .file fp)
      (hw : WrittenBack s t pg fr fp s₁) :
      SwappedOut s t p pg f fr (s₁.unlink p pg f fr (.file fp))

theorem write_back_eq_ok {pg : page} {fp : file_page}
    (h : write_back s t pg fp = .ok (true, s')) :
    ∃ f fr fs, pg.frame = some f ∧ s.frame f = some fr
      ∧ file_write_at s.files fp.file (s.mem fr.kva) (i32 fp.read_byte) fp.offset
        = .ok (i32 fp.read_byte, fs)
      ∧ s' = pml4_set_dirty (s.set_files fs) t pg.va false := by
  unfold write_back at h
  obtain ⟨⟨f, fr⟩, hf, h⟩ := Outcome.bind_eq_ok.mp h
  obtain ⟨⟨n, fs⟩, hw, h⟩ := Outcome.bind_eq_ok.mp h
  dsimp only at h hw
  obtain ⟨hpf, hfr⟩ := vm.get_frame_eq_ok.mp hf
  by_cases hn : n = i32 fp.read_byte
  · rw [if_neg (fun hne => hne hn)] at h
    rw [hn] at hw
    exact ⟨f, fr, fs, hpf, hfr, hw, ((Outcome.ok_pair h).2).symm⟩
  · rw [if_pos hn] at h
    exact absurd (Outcome.ok_pair h).1 Bool.false_ne_true

theorem write_back_dirty_eq_ok {pg : page} {fp : file_page}
    (h : write_back_dirty s t pg fp = .ok (true, s')) {f : ℕ} {fr : frame}
    (hpf : pg.frame = some f) (hfr : s.frame f = some fr) : WrittenBack s t pg fr fp s' := by
  unfold write_back_dirty at h
  by_cases hd : pml4_is_dirty s t pg.va
  · rw [if_pos hd] at h
    obtain ⟨f', fr', fs, hpf', hfr', hw, rfl⟩ := write_back_eq_ok h
    rw [hpf] at hpf'
    cases hpf'
    rw [hfr] at hfr'
    cases hfr'
    exact .dirty hd hw
  · rw [if_neg hd] at h
    cases h
    exact .clean (by simpa using hd)

/-- A write-back changes no frame. -/
theorem write_back_dirty_frame {pg : page} {fp : file_page} {done : Bool}
    (h : write_back_dirty s t pg fp = .ok (done, s')) : s'.frame = s.frame := by
  unfold write_back_dirty at h
  by_cases hd : pml4_is_dirty s t pg.va
  · rw [if_pos hd] at h
    unfold write_back at h
    obtain ⟨⟨f, fr⟩, -, h⟩ := Outcome.bind_eq_ok.mp h
    obtain ⟨⟨n, fs⟩, -, h⟩ := Outcome.bind_eq_ok.mp h
    dsimp only at h
    by_cases hn : n = i32 fp.read_byte
    · rw [if_neg (fun hne => hne hn)] at h
      rw [← (Outcome.ok_pair h).2]
      rfl
    · rw [if_pos hn] at h
      rw [← (Outcome.ok_pair h).2]
      rfl
  · rw [if_neg hd] at h
    cases h
    rfl

theorem swap_out_cases (h : swap_out s t p = .ok (true, s')) :
    ∃ pg f fr, s.page p = some pg ∧ pg.frame = some f ∧ s.frame f = some fr
      ∧ SwappedOut s t p pg f fr s' := by
  unfold swap_out at h
  obtain ⟨pg, hpg, h⟩ := Outcome.bind_eq_ok.mp h
  have hpg := vm.get_page_eq_ok.mp hpg
  cases hk : pg.kind with
  | uninit u =>
      rw [hk] at h
      cases h
  | anon i =>
      rw [hk] at h
      dsimp only at h
      unfold anon_swap_out at h
      cases hscan : swap_scan s with
      | none =>
          rw [hscan] at h
          cases h
      | some idx =>
          rw [hscan] at h
          dsimp only at h
          obtain ⟨pg', hpg', h⟩ := Outcome.bind_eq_ok.mp h
          rw [vm.get_page_eq_ok, hpg] at hpg'
          cases hpg'
          obtain ⟨⟨f, fr⟩, hf, h⟩ := Outcome.bind_eq_ok.mp h
          obtain ⟨hpf, hfr⟩ := vm.get_frame_eq_ok.mp hf
          obtain ⟨d, hd, h⟩ := Outcome.bind_eq_ok.mp h
          obtain ⟨s₁, hs₁, h⟩ := Outcome.bind_eq_ok.mp h
          cases h
          obtain ⟨f', fr', hpf', hfr', rfl⟩ := unlink_frame_eq_ok hs₁
          rw [hpf] at hpf'
          cases hpf'
          have hfr'' : s.frame f = some fr' := hfr'
          rw [hfr] at hfr''
          cases hfr''
          exact ⟨pg, f, fr, hpg, hpf, hfr, .anon hk hscan hd⟩
  | file fp =>
      rw [hk] at h
      dsimp only at h
      unfold file_backed_swap_out at h
      obtain ⟨⟨done, s₁⟩, hs₁, h⟩ := Outcome.bind_eq_ok.mp h
      dsimp only at h
      cases done with
      | false => cases h
      | true =>
          obtain ⟨s₂, hs₂, h⟩ := Outcome.bind_eq_ok.mp h
          cases h
          obtain ⟨f, fr, hpf, hfr, rfl⟩ := unlink_frame_eq_ok hs₂
          have hfr' : s.frame f = some fr := by
            rw [← write_back_dirty_frame hs₁]
            exact hfr
          exact ⟨pg, f, fr, hpg, hpf, hfr', .file hk (write_back_dirty_eq_ok hs₁ hpf hfr')⟩

end SwapOut

/-! ## Frames -/

section Frames

variable {s s' : vm} {t : ℕ}

theorem frame_list_remove_eq_ok {f : ℕ} (h : frame_list_remove s f = .ok s') :
    vm.SameMap s s' := by
  unfold frame_list_remove at h
  dsimp only at h
  split at h
  · cases h
    exact .set_frame_table s _
  · cases h

theorem frame_table_insert_eq_ok {f : ℕ} (h : frame_table_insert s f = .ok s') :
    vm.SameMap s s' := by
  unfold frame_table_insert at h
  split at h
  · split at h
    · cases h
      exact .set_frame_table s _
    · cases h
  · cases h
    exact .set_frame_table s _

/-- The victim's page is written out, its entry *in the page table of `t`* is
cleared, and the frame is taken off the list. -/
theorem vm_evict_frame_cases {v : ℕ} (h : vm_evict_frame s t = .ok (some v, s')) :
    ∃ s₁ fr p pg s₂, vm_get_victim s t = .ok (v, s₁) ∧ s₁.frame v = some fr ∧ fr.page = some p
      ∧ s₁.page p = some pg ∧ swap_out s₁ t p = .ok (true, s₂)
      ∧ vm.SameMap (pml4_cleared s₂ t pg.va) s' := by
  unfold vm_evict_frame at h
  obtain ⟨⟨victim, s₁⟩, hv, h⟩ := Outcome.bind_eq_ok.mp h
  obtain ⟨⟨v', fr⟩, hf, h⟩ := Outcome.bind_eq_ok.mp h
  obtain ⟨hvv, hfr⟩ := vm.get_frame_eq_ok.mp hf
  cases hvv
  dsimp only at h hfr
  cases hp : fr.page with
  | none =>
      rw [hp] at h
      cases h
  | some p =>
      rw [hp] at h
      obtain ⟨pg, hpg, h⟩ := Outcome.bind_eq_ok.mp h
      obtain ⟨⟨done, s₂⟩, hout, h⟩ := Outcome.bind_eq_ok.mp h
      dsimp only at h
      cases done with
      | false => cases h
      | true =>
          obtain ⟨s₃, hclear, h⟩ := Outcome.bind_eq_ok.mp h
          obtain ⟨s₄, hrem, h⟩ := Outcome.bind_eq_ok.mp h
          cases h
          have hs₃ := pml4_clear_page_eq_ok hclear
          subst hs₃
          exact ⟨s₁, fr, p, pg, s₂, hv, hfr, hp, vm.get_page_eq_ok.mp hpg, hout,
            frame_list_remove_eq_ok hrem⟩

theorem frame_kva_cases {k : ℕ} (h : frame_kva s t = .ok (k, s')) :
    (palloc_get_page s = some k ∧ s' = s.take_page k)
      ∨ (palloc_get_page s = none ∧ ∃ v s₁ fr, vm_evict_frame s t = .ok (some v, s₁)
        ∧ s₁.frame v = some fr ∧ fr.kva = k ∧ s' = s₁.free_frame v) := by
  unfold frame_kva at h
  cases hpal : palloc_get_page s with
  | some kva =>
      rw [hpal] at h
      cases h
      exact .inl ⟨rfl, rfl⟩
  | none =>
      rw [hpal] at h
      obtain ⟨⟨victim, s₁⟩, hev, h⟩ := Outcome.bind_eq_ok.mp h
      obtain ⟨⟨v, fr⟩, hf, hret⟩ := Outcome.bind_eq_ok.mp h
      obtain ⟨hv, hfr⟩ := vm.get_frame_eq_ok.mp hf
      dsimp only at hv hfr hret
      subst hv
      cases hret
      exact .inr ⟨rfl, v, s₁, fr, hev, hfr, rfl, rfl⟩

theorem vm_get_frame_cases {f : ℕ} (h : vm_get_frame s t = .ok (f, s')) :
    ∃ k s₁, frame_kva s t = .ok (k, s₁) ∧ f = s₁.next_frame
      ∧ vm.SameMap (s₁.new_frame { kva := k, ref_cnt := 1, page := none }) s' := by
  unfold vm_get_frame at h
  obtain ⟨⟨k, s₁⟩, hk, h⟩ := Outcome.bind_eq_ok.mp h
  dsimp only at h
  obtain ⟨s₂, hins, h⟩ := Outcome.bind_eq_ok.mp h
  cases h
  exact ⟨k, s₁, hk, rfl, frame_table_insert_eq_ok hins⟩

end Frames

/-! ## Swapping in -/

section SwapIn

variable {s s' : vm} {p kva : ℕ} {done : Bool}

theorem set_mem_self (s : vm) (kva : ℕ) : s.set_mem kva (s.mem kva) = s := by
  unfold vm.set_mem
  rw [Function.update_eq_self]

theorem set_page_self {pg : page} (h : s.page p = some pg) : s.set_page p pg = s := by
  unfold vm.set_page
  rw [← h, Function.update_eq_self]

theorem load_page_eq_ok {file : ℕ} {offset : ℤ} {read_byte zero_byte : ℕ}
    (h : load_page s kva file offset read_byte zero_byte = .ok (done, s')) :
    ∃ n b, file_read_at s.files file (s.mem kva) (i32 read_byte) offset = .ok (n, b)
      ∧ ((done = false ∧ n ≠ i32 read_byte ∧ s' = s.set_mem kva b)
        ∨ (done = true ∧ n = i32 read_byte ∧ read_byte + zero_byte ≤ PGSIZE
          ∧ s' = s.set_mem kva (memcpy b read_byte zeros zero_byte))) := by
  unfold load_page at h
  by_cases hbig : PGSIZE < read_byte + zero_byte
  · rw [if_pos hbig] at h
    cases h
  · rw [if_neg hbig] at h
    obtain ⟨⟨n, b⟩, hread, h⟩ := Outcome.bind_eq_ok.mp h
    dsimp only at h
    refine ⟨n, b, hread, ?_⟩
    by_cases hn : n = i32 read_byte
    · rw [if_neg (fun hne => hne hn)] at h
      have h := Outcome.ok_pair h
      exact .inr ⟨h.1.symm, hn, by omega, h.2.symm⟩
    · rw [if_pos hn] at h
      have h := Outcome.ok_pair h
      exact .inl ⟨h.1.symm, hn, h.2.symm⟩

/-- Loading a page touches its frame only. -/
theorem load_page_frame {file : ℕ} {offset : ℤ} {read_byte zero_byte : ℕ}
    (h : load_page s kva file offset read_byte zero_byte = .ok (done, s')) :
    ∃ m, s' = s.set_mem kva m := by
  obtain ⟨n, b, -, ⟨-, -, hs⟩ | ⟨-, -, -, hs⟩⟩ := load_page_eq_ok h
  · exact ⟨_, hs⟩
  · exact ⟨_, hs⟩

/-- What `load_page` leaves in the frame, from what was there and from the files. -/
def load_bytes (fs : filesys) (kva : Bytes) (file : ℕ) (offset : ℤ) (read_byte zero_byte : ℕ) :
    Outcome (Bool × Bytes) :=
  if PGSIZE < read_byte + zero_byte then .undefined
  else do
    let (n, b) ← file_read_at fs file kva (i32 read_byte) offset
    if n ≠ i32 read_byte then return (false, b)
    else return (true, memcpy b read_byte zeros zero_byte)

theorem load_page_iff {file : ℕ} {offset : ℤ} {read_byte zero_byte : ℕ} :
    load_page s kva file offset read_byte zero_byte = .ok (done, s')
      ↔ ∃ m, load_bytes s.files (s.mem kva) file offset read_byte zero_byte = .ok (done, m)
        ∧ s' = s.set_mem kva m := by
  have heq : load_page s kva file offset read_byte zero_byte
      = load_bytes s.files (s.mem kva) file offset read_byte zero_byte >>= fun x =>
        .ok (x.1, s.set_mem kva x.2) := by
    unfold load_page load_bytes
    by_cases hbig : PGSIZE < read_byte + zero_byte
    · rw [if_pos hbig, if_pos hbig]
      rfl
    · rw [if_neg hbig, if_neg hbig]
      cases file_read_at s.files file (s.mem kva) (i32 read_byte) offset with
      | ok x =>
          obtain ⟨n, b⟩ := x
          simp only [Outcome.ok_bind]
          by_cases hn : n = i32 read_byte
          · rw [if_neg (fun hne => hne hn), if_neg (fun hne => hne hn)]
            rfl
          · rw [if_pos hn, if_pos hn]
            rfl
      | panic => rfl
      | undefined => rfl
      | diverge => rfl
  rw [heq, Outcome.bind_eq_ok]
  constructor
  · rintro ⟨⟨d, m⟩, hload, h⟩
    obtain ⟨rfl, rfl⟩ := Outcome.ok_pair h
    exact ⟨m, hload, rfl⟩
  · rintro ⟨m, hload, rfl⟩
    exact ⟨(done, m), hload, rfl⟩

/-- What `swap_in` did to a page that has its frame already. -/
inductive SwappedIn (s : vm) (p : ℕ) (pg : page) (kva : ℕ) : Bool → vm → Prop
  | uninit {u : uninit_page} {kd : page_kind} {m : Bytes} {done : Bool} (hk : pg.kind = .uninit u)
      (hkd : kd = .anon (-1) ∨ ∃ fp, kd = .file fp) :
      SwappedIn s p pg kva done ((s.set_mem kva m).set_page p { pg with kind := kd })
  | stay {i : ℤ} (hk : pg.kind = .anon i) (hi : i < 0) : SwappedIn s p pg kva false s
  | anon {i : ℤ} {m : Bytes} (hk : pg.kind = .anon i) (hi : 0 ≤ i)
      (hm : swap_in_loop s.swap_disk i.toNat 8 0 (s.mem kva) = .ok m) :
      SwappedIn s p pg kva true (((s.set_mem kva m).set_swap s.swap_disk i.toNat false).set_page p
        { pg with kind := .anon (-1) })
  | file {fp : file_page} {m : Bytes} {done : Bool} (hk : pg.kind = .file fp)
      (hload : load_page s kva fp.file fp.offset fp.read_byte fp.zero_byte
        = .ok (done, s.set_mem kva m)) :
      SwappedIn s p pg kva done (s.set_mem kva m)

variable {pg : page} {f : ℕ} {fr : frame}

/-- `lazy_load_segment` loads into the frame of the page. -/
theorem lazy_load_segment_eq_ok {aux : aux_ptr} (h : lazy_load_segment s p aux = .ok (done, s'))
    (hpg : s.page p = some pg) (hpf : pg.frame = some f) (hfr : s.frame f = some fr) :
    ∃ i, aux = .info i
      ∧ load_page s fr.kva i.file i.offset i.readbyte i.zerobyte = .ok (done, s') := by
  cases aux with
  | null => cases h
  | mmap i c => cases h
  | info i =>
      unfold lazy_load_segment at h
      obtain ⟨pg', hpg', h⟩ := Outcome.bind_eq_ok.mp h
      rw [vm.get_page_eq_ok, hpg] at hpg'
      cases hpg'
      obtain ⟨⟨f', fr'⟩, hf', h⟩ := Outcome.bind_eq_ok.mp h
      obtain ⟨hpf', hfr'⟩ := vm.get_frame_eq_ok.mp hf'
      rw [hpf] at hpf'
      cases hpf'
      rw [hfr] at hfr'
      cases hfr'
      exact ⟨i, rfl, h⟩

theorem anon_initializer_eq_ok (h : anon_initializer s p kva = .ok s') (hpg : s.page p = some pg)
    (hpf : pg.frame = some f) (hfr : s.frame f = some fr) :
    s' = (s.set_mem kva (if fr.ref_cnt ≤ 1 then zeros else s.mem kva)).set_page p
      { pg with kind := .anon (-1) } := by
  unfold anon_initializer at h
  obtain ⟨pg', hpg', h⟩ := Outcome.bind_eq_ok.mp h
  rw [vm.get_page_eq_ok, hpg] at hpg'
  cases hpg'
  obtain ⟨⟨f', fr'⟩, hf', h⟩ := Outcome.bind_eq_ok.mp h
  obtain ⟨hpf', hfr'⟩ := vm.get_frame_eq_ok.mp hf'
  rw [hpf] at hpf'
  cases hpf'
  rw [hfr] at hfr'
  obtain rfl := Option.some.inj hfr'
  rw [← Outcome.ok.inj h]
  by_cases href : fr.ref_cnt ≤ 1
  · rw [if_pos href, if_pos href]
    rfl
  · rw [if_neg href, if_neg href, set_mem_self]

theorem file_backed_initializer_eq_ok {aux : aux_ptr}
    (h : file_backed_initializer s p aux = .ok s') (hpg : s.page p = some pg) :
    ∃ i c, aux = .mmap i c
      ∧ s' = s.set_page p { pg with kind := .file { mapping_count := c, file := i.file
                                                    offset := i.offset, read_byte := i.readbyte
                                                    zero_byte := i.zerobyte } } := by
  cases aux with
  | null => cases h
  | info i => cases h
  | mmap i c =>
      unfold file_backed_initializer at h
      obtain ⟨pg', hpg', h⟩ := Outcome.bind_eq_ok.mp h
      rw [vm.get_page_eq_ok, hpg] at hpg'
      cases hpg'
      exact ⟨i, c, rfl, (Outcome.ok.inj h).symm⟩

/-- After the page initializer the page is anonymous or a file page. -/
theorem run_page_initializer_eq_ok {u : uninit_page}
    (h : run_page_initializer s p u kva = .ok s') (hpg : s.page p = some pg)
    (hpf : pg.frame = some f) (hfr : s.frame f = some fr) :
    ∃ m kd, (kd = .anon (-1) ∨ ∃ fp, kd = .file fp)
      ∧ s' = (s.set_mem kva m).set_page p { pg with kind := kd } := by
  unfold run_page_initializer at h
  cases hu : u.page_initializer with
  | anon_initializer =>
      rw [hu] at h
      exact ⟨_, _, .inl rfl, anon_initializer_eq_ok h hpg hpf hfr⟩
  | file_backed_initializer =>
      rw [hu] at h
      obtain ⟨i, c, -, hs⟩ := file_backed_initializer_eq_ok h hpg
      refine ⟨s.mem kva, .file { mapping_count := c, file := i.file, offset := i.offset
                                 read_byte := i.readbyte, zero_byte := i.zerobyte },
        .inr ⟨_, rfl⟩, ?_⟩
      rw [set_mem_self]
      exact hs

theorem uninit_initialize_cases {u : uninit_page}
    (h : uninit_initialize s p u kva = .ok (done, s')) (hpg : s.page p = some pg)
    (hpf : pg.frame = some f) (hfr : s.frame f = some fr) (hkva : fr.kva = kva) :
    ∃ m kd, (kd = .anon (-1) ∨ ∃ fp, kd = .file fp)
      ∧ s' = (s.set_mem kva m).set_page p { pg with kind := kd } := by
  unfold uninit_initialize at h
  obtain ⟨aux, -, h⟩ := Outcome.bind_eq_ok.mp h
  obtain ⟨s₁, hs₁, h⟩ := Outcome.bind_eq_ok.mp h
  obtain ⟨m, kd, hkd, rfl⟩ := run_page_initializer_eq_ok hs₁ hpg hpf hfr
  cases hinit : u.init with
  | none =>
      rw [hinit] at h
      cases h
      exact ⟨m, kd, hkd, rfl⟩
  | some init =>
      rw [hinit] at h
      have hpg₁ : ((s.set_mem kva m).set_page p { pg with kind := kd }).page p
          = some { pg with kind := kd } := by simp
      obtain ⟨i, -, hload⟩ := lazy_load_segment_eq_ok h hpg₁ hpf hfr
      obtain ⟨m', rfl⟩ := load_page_frame hload
      refine ⟨m', kd, hkd, ?_⟩
      rw [hkva]
      unfold vm.set_mem vm.set_page
      simp

theorem swap_in_cases (h : swap_in s p kva = .ok (done, s')) (hpg : s.page p = some pg)
    (hpf : pg.frame = some f) (hfr : s.frame f = some fr) (hkva : fr.kva = kva) :
    SwappedIn s p pg kva done s' := by
  unfold swap_in at h
  obtain ⟨pg', hpg', h⟩ := Outcome.bind_eq_ok.mp h
  rw [vm.get_page_eq_ok, hpg] at hpg'
  cases hpg'
  cases hk : pg.kind with
  | uninit u =>
      rw [hk] at h
      obtain ⟨m, kd, hkd, rfl⟩ := uninit_initialize_cases h hpg hpf hfr hkva
      exact .uninit hk hkd
  | anon i =>
      rw [hk] at h
      dsimp only at h
      unfold anon_swap_in at h
      by_cases hi : i < 0
      · rw [if_pos hi] at h
        cases h
        exact .stay hk hi
      · rw [if_neg hi] at h
        obtain ⟨pg', hpg', h⟩ := Outcome.bind_eq_ok.mp h
        rw [vm.get_page_eq_ok, hpg] at hpg'
        cases hpg'
        obtain ⟨m, hm, h⟩ := Outcome.bind_eq_ok.mp h
        cases h
        exact .anon hk (by omega) hm
  | file fp =>
      rw [hk] at h
      obtain ⟨m, rfl⟩ := load_page_frame h
      exact .file hk h

end SwapIn

/-! ## Faults -/

section Faults

variable {s s' : vm} {t p : ℕ} {done : Bool}

/-- The state after page `p` got frame `f`. -/
def vm.attach (s : vm) (t p : ℕ) (pg : Pintos.page) (f : ℕ) (fr : Pintos.frame) : vm :=
  ((s.set_frame f { fr with page := some p }).set_page p { pg with frame := some f }).set_pte t
    pg.va
    { kva := fr.kva, present := true, writable := pg.writable, accessed := false, dirty := false }

theorem vm_do_claim_page_cases (h : vm_do_claim_page s t p = .ok (done, s')) :
    ∃ f s₁ fr pg, vm_get_frame s t = .ok (f, s₁) ∧ s₁.frame f = some fr ∧ s₁.page p = some pg
      ∧ swap_in (s₁.attach t p pg f fr) p fr.kva = .ok (done, s')
      ∧ SwappedIn (s₁.attach t p pg f fr) p { pg with frame := some f } fr.kva done s' := by
  unfold vm_do_claim_page at h
  obtain ⟨⟨f, s₁⟩, hget, h⟩ := Outcome.bind_eq_ok.mp h
  dsimp only at h
  obtain ⟨⟨f', fr⟩, hf, h⟩ := Outcome.bind_eq_ok.mp h
  obtain ⟨hff, hfr⟩ := vm.get_frame_eq_ok.mp hf
  dsimp only at hff hfr h
  obtain rfl := Option.some.inj hff
  obtain ⟨pg, hpg, h⟩ := Outcome.bind_eq_ok.mp h
  obtain ⟨s₂, hs₂, hin⟩ := Outcome.bind_eq_ok.mp h
  have hatt : s₂ = s₁.attach t p pg f fr := pml4_set_page_eq_ok hs₂
  subst hatt
  refine ⟨f, s₁, fr, pg, hget, hfr, vm.get_page_eq_ok.mp hpg, hin, ?_⟩
  have hpg₁ : (s₁.attach t p pg f fr).page p = some { pg with frame := some f } := by
    simp [vm.attach]
  have hfr₁ : (s₁.attach t p pg f fr).frame f = some { fr with page := some p } := by
    simp [vm.attach]
  exact swap_in_cases hin hpg₁ rfl hfr₁ rfl

/-- The state after page `p` moved to a copy of its frame. -/
def vm.copy_on_write (s : vm) (t p : ℕ) (pg : Pintos.page) (f : ℕ) (fr : Pintos.frame) (cf : ℕ)
    (cfr : Pintos.frame) : vm :=
  (((s.set_page p { pg with frame := some f }).set_mem fr.kva (s.mem cfr.kva)).set_frame cf
    { cfr with ref_cnt := cfr.ref_cnt - 1 }).set_pte t pg.va
    { kva := fr.kva, present := true, writable := true, accessed := false, dirty := false }

/-- The state after page `p` took its frame for itself. -/
def vm.make_writable (s : vm) (t p : ℕ) (pg : Pintos.page) (cf : ℕ) (cfr : Pintos.frame) : vm :=
  (s.set_frame cf { cfr with page := some p }).set_pte t pg.va
    { kva := cfr.kva, present := true, writable := true, accessed := false, dirty := false }

/-- What `vm_handle_wp` did. -/
inductive WriteProtected (s : vm) (t p : ℕ) : vm → Prop
  | copy {pg pg' : page} {cf f : ℕ} {cfr cfr' fr : frame} {s₁ : vm} (hpg : s.page p = some pg)
      (hpf : pg.frame = some cf) (hcf : s.frame cf = some cfr) (href : 1 < cfr.ref_cnt)
      (hget : vm_get_frame s t = .ok (f, s₁)) (hfr : s₁.frame f = some fr)
      (hpg' : s₁.page p = some pg') (hcf' : s₁.frame cf = some cfr') :
      WriteProtected s t p (s₁.copy_on_write t p pg' f fr cf cfr')
  | own {pg : page} {cf : ℕ} {cfr : frame} (hpg : s.page p = some pg) (hpf : pg.frame = some cf)
      (hcf : s.frame cf = some cfr) (href : cfr.ref_cnt ≤ 1) :
      WriteProtected s t p (s.make_writable t p pg cf cfr)

theorem vm_handle_wp_cases (h : vm_handle_wp s t p = .ok (done, s')) :
    done = true ∧ WriteProtected s t p s' := by
  unfold vm_handle_wp at h
  obtain ⟨pg, hpg, h⟩ := Outcome.bind_eq_ok.mp h
  obtain ⟨⟨cf, cfr⟩, hcf, h⟩ := Outcome.bind_eq_ok.mp h
  obtain ⟨hpf, hcfr⟩ := vm.get_frame_eq_ok.mp hcf
  dsimp only at hpf hcfr h
  have hpg := vm.get_page_eq_ok.mp hpg
  by_cases href : cfr.ref_cnt > 1
  · rw [if_pos href] at h
    obtain ⟨⟨f, s₁⟩, hget, h⟩ := Outcome.bind_eq_ok.mp h
    dsimp only at h
    obtain ⟨⟨f', fr⟩, hf, h⟩ := Outcome.bind_eq_ok.mp h
    obtain ⟨hff, hfr⟩ := vm.get_frame_eq_ok.mp hf
    dsimp only at hff hfr h
    obtain rfl := Option.some.inj hff
    obtain ⟨pg', hpg', h⟩ := Outcome.bind_eq_ok.mp h
    obtain ⟨⟨cf', cfr'⟩, hcf', h⟩ := Outcome.bind_eq_ok.mp h
    obtain ⟨hcc, hcfr'⟩ := vm.get_frame_eq_ok.mp hcf'
    dsimp only at hcc hcfr' h
    obtain rfl := Option.some.inj hcc
    obtain ⟨s₂, hs₂, h⟩ := Outcome.bind_eq_ok.mp h
    have hcow : s₂ = s₁.copy_on_write t p pg' f fr cf cfr' := pml4_set_page_eq_ok hs₂
    subst hcow
    cases h
    exact ⟨rfl, .copy hpg hpf hcfr href hget hfr (vm.get_page_eq_ok.mp hpg') hcfr'⟩
  · rw [if_neg href] at h
    obtain ⟨s₂, hs₂, h⟩ := Outcome.bind_eq_ok.mp h
    have hown : s₂ = s.make_writable t p pg cf cfr := pml4_set_page_eq_ok hs₂
    subst hown
    cases h
    exact ⟨rfl, .own hpg hpf hcfr (by omega)⟩

/-- The state with a new page registered. -/
def vm.register (s : vm) (t : ℕ) (pg : Pintos.page) : vm :=
  (s.new_page pg).set_spt t ((s.proc t).spt.insert pg.va s.next_page)

/-- The page `vm_alloc_page_with_initializer` makes. -/
def lazy_page (upage : ℕ) (writable : Bool) (u : uninit_page) : page :=
  { va := upage, frame := none, writable := writable, kind := .uninit u }

theorem vm_alloc_page_cases {type : vm_type} {upage : ℕ} {writable : Bool}
    {init : Option vm_initializer} {aux : aux_ptr}
    (h : vm_alloc_page_with_initializer s t type upage writable init aux = (done, s')) :
    (done = false ∧ s' = s)
      ∨ (done = true ∧ s.page_at t upage = none ∧ ∃ pi, initializer_of type = some pi
        ∧ s' = s.register t (lazy_page upage writable
            { init := init, type := type, aux := aux, page_initializer := pi })) := by
  unfold vm_alloc_page_with_initializer at h
  split at h
  · cases h
    exact .inr ⟨rfl, by assumption, _, by assumption, rfl⟩
  · cases h
    exact .inl ⟨rfl, rfl⟩

/-- An anonymous page without an initializer: a page of the stack. -/
def stack_page (va : ℕ) : page :=
  lazy_page va true
    { init := none, type := .VM_ANON, aux := .null, page_initializer := .anon_initializer }

/-- The state in which the handler of a fault at `va` calls `vm_get_frame`, if it
does: not for a fault it refuses, and not for a protected write to a frame with
one reference. -/
def frame_demand (s : vm) (t va : ℕ) (write : Bool) : Option vm :=
  match s.page_at t va with
  | none => if is_stack_growth s t va then some (s.register t (stack_page va)) else none
  | some p =>
      match s.page p with
      | none => none
      | some pg =>
          if write && !pg.writable then none
          else
            match write && pg.frame.isSome, pg.frame.bind s.frame with
            | true, some fr => if fr.ref_cnt > 1 then some s else none
            | true, none => none
            | false, _ => some s

/-- What `vm_try_handle_fault` did at the virtual page `va`. -/
inductive Faulted (s : vm) (t va : ℕ) (write : Bool) : Bool → vm → Prop
  | refused (hdem : frame_demand s t va write = none) : Faulted s t va write false s
  | grown {s' : vm} {done : Bool} (hnone : s.page_at t va = none)
      (hdem : frame_demand s t va write = some (s.register t (stack_page va)))
      (h : vm_do_claim_page (s.register t (stack_page va)) t s.next_page = .ok (done, s')) :
      Faulted s t va write true s'
  | write_protected {p : ℕ} {pg : page} {s' : vm} (hp : s.page_at t va = some p)
      (hpg : s.page p = some pg)
      (hdem : ∀ {cf : ℕ} {cfr : frame}, pg.frame = some cf → s.frame cf = some cfr →
        frame_demand s t va write = if 1 < cfr.ref_cnt then some s else none)
      (h : WriteProtected s t p s') : Faulted s t va write true s'
  | claimed {p : ℕ} {pg : page} {done : Bool} {s' : vm} (hp : s.page_at t va = some p)
      (hpg : s.page p = some pg) (hres : write = true → pg.frame = none)
      (hdem : frame_demand s t va write = some s)
      (h : vm_do_claim_page s t p = .ok (done, s')) : Faulted s t va write done s'

theorem page_at_register (s : vm) (t : ℕ) (pg : page) (t' va' : ℕ) :
    (s.register t pg).page_at t' va'
      = if t' = t ∧ va' = pg.va then some s.next_page else s.page_at t' va' := by
  unfold vm.register
  rw [vm.page_at_set_spt]
  by_cases ht : t' = t
  · subst ht
    by_cases hva : va' = pg.va
    · subst hva
      simp [AList.lookup_insert]
    · simp [hva, AList.lookup_insert_ne hva]
      rfl
  · simp [ht]
    rfl

theorem vm_stack_growth_cases {va : ℕ} (hround : pg_round_down va = va)
    (hnone : s.page_at t va = none) (h : vm_stack_growth s t va = .ok s') :
    ∃ done, vm_do_claim_page (s.register t (stack_page va)) t s.next_page = .ok (done, s') := by
  unfold vm_stack_growth at h
  cases halloc : vm_alloc_page_with_initializer s t .VM_ANON va true none .null with
  | mk done s₁ =>
      have hs₁ : s₁ = s.register t (stack_page va) := by
        have := halloc
        unfold vm_alloc_page_with_initializer at this
        simp only [spt_find_page, hround, hnone, initializer_of] at this
        exact (Prod.mk.inj this).2.symm
      rw [halloc] at h
      dsimp only at h
      obtain ⟨⟨done', s₂⟩, hclaim, h⟩ := Outcome.bind_eq_ok.mp h
      cases h
      refine ⟨done', ?_⟩
      rw [← hs₁]
      unfold vm_claim_page spt_find_page at hclaim
      rw [hround, hs₁, page_at_register, if_pos ⟨rfl, rfl⟩, ← hs₁] at hclaim
      exact hclaim

/-- **The fault handler**: it refuses, grows the stack, resolves a protected write,
or claims the page. -/
theorem vm_try_handle_fault_cases {addr : ℕ} {write : Bool}
    (h : vm_try_handle_fault s t addr write = .ok (done, s')) :
    Faulted s t (pg_round_down addr) write done s' := by
  unfold vm_try_handle_fault at h
  dsimp only [spt_find_page] at h
  rw [pg_round_down_idem] at h
  cases hp : s.page_at t (pg_round_down addr) with
  | none =>
      rw [hp] at h
      dsimp only at h
      by_cases hgrow : is_stack_growth s t (pg_round_down addr) = true
      · rw [if_pos hgrow] at h
        obtain ⟨s₁, hs₁, h⟩ := Outcome.bind_eq_ok.mp h
        cases h
        obtain ⟨done, hclaim⟩ := vm_stack_growth_cases (pg_round_down_idem addr) hp hs₁
        refine .grown hp ?_ hclaim
        simp [frame_demand, hp, hgrow]
      · rw [if_neg hgrow] at h
        cases h
        refine .refused ?_
        simp [frame_demand, hp, hgrow]
  | some p =>
      rw [hp] at h
      obtain ⟨pg, hpg, h⟩ := Outcome.bind_eq_ok.mp h
      have hpg := vm.get_page_eq_ok.mp hpg
      by_cases hro : (write && !pg.writable) = true
      · rw [if_pos hro] at h
        cases h
        refine .refused ?_
        simp only [frame_demand, hp, hpg]
        rw [if_pos hro]
      · rw [if_neg hro] at h
        by_cases hwp : (write && pg.writable && pg.frame.isSome) = true
        · rw [if_pos hwp] at h
          obtain ⟨rfl, hcase⟩ := vm_handle_wp_cases h
          simp only [Bool.and_eq_true] at hwp
          refine .write_protected hp hpg (fun {cf cfr} hpf hcf => ?_) hcase
          simp [frame_demand, hp, hpg, hwp.1.1, hwp.1.2, hpf, hcf]
        · rw [if_neg hwp] at h
          have hres : write = true → pg.frame = none := by
            intro hwrite
            have hw : pg.writable = true := by simpa [hwrite] using hro
            simpa [hwrite, hw] using hwp
          refine .claimed hp hpg hres ?_ h
          have hfalse : (write && pg.frame.isSome) = false := by
            cases write with
            | false => rfl
            | true => simp [hres rfl]
          simp only [frame_demand, hp, hpg]
          rw [if_neg hro, hfalse]

/-- What `user_access` did. -/
inductive Accessed (s : vm) (t addr rsp : ℕ) (write : Bool) : Option pte → vm → Prop
  | direct {e : pte} (hok : pte_allows s t addr write = some e) :
      Accessed s t addr rsp write (some e) s
  | handled {e : pte} {s' : vm} (hno : pte_allows s t addr write = none)
      (hfault : Faulted (s.set_rsp t rsp) t (pg_round_down addr) write true s')
      (hok : pte_allows s' t addr write = some e) :
      Accessed s t addr rsp write (some e) s'
  | killed {s₁ s' : vm} (hno : pte_allows s t addr write = none)
      (hfault : Faulted (s.set_rsp t rsp) t (pg_round_down addr) write false s₁)
      (hexit : process_cleanup s₁ t = .ok s') : Accessed s t addr rsp write none s'

theorem user_access_cases {addr rsp : ℕ} {write : Bool} {e : Option pte}
    (h : user_access s t addr rsp write = .ok (e, s')) : Accessed s t addr rsp write e s' := by
  unfold user_access at h
  cases hok : pte_allows s t addr write with
  | some e' =>
      rw [hok] at h
      cases h
      exact .direct hok
  | none =>
      rw [hok] at h
      obtain ⟨⟨handled, s₁⟩, hfault, h⟩ := Outcome.bind_eq_ok.mp h
      dsimp only at h
      have hcase := vm_try_handle_fault_cases hfault
      cases handled with
      | true =>
          rw [if_pos rfl] at h
          cases hok' : pte_allows s₁ t addr write with
          | none =>
              rw [hok'] at h
              cases h
          | some e' =>
              rw [hok'] at h
              cases h
              exact .handled hok hcase hok'
      | false =>
          rw [if_neg Bool.false_ne_true] at h
          obtain ⟨s₂, hexit, h⟩ := Outcome.bind_eq_ok.mp h
          cases h
          exact .killed hok hcase hexit

end Faults

end Pintos
