/-
What a page that has never been touched holds after its first fault.

`vm_alloc_page_with_initializer` only registers a page, with a record of a file, an offset and two
counts; the fault handler finds a frame and calls `lazy_load_segment`, which reads the file into
it and fills the rest with zeros. The page of an executable is anonymous and the page of a mapping
is a file page, but both are loaded in the same way.
-/
import Pintos.Filesys.ByteFile
import Pintos.Vm.Fork

set_option autoImplicit false

namespace Pintos

/-! ## The file -/

/-- The file behind `f` holds the bytes `b`. -/
def FileHas (fs : filesys) (f : ℕ) (b : List UInt8) : Prop :=
  ∃ fl ino l, fs.file f = some fl ∧ fs.inode fl.inode = some ino ∧ Backed fs.disk fs.fat ino l
    ∧ b = file_contents fs.disk fs.fat ino l

/-- What a page holds that is loaded with `r` bytes of a file, from `o` on. -/
def loaded_byte (b : List UInt8) (o r j : ℕ) : UInt8 := if j < r then b.getD (o + j) 0 else 0

namespace FileHas

variable {fs : filesys} {f : ℕ} {b : List UInt8}

theorem length_lt (h : FileHas fs f b) : b.length < 2 ^ 31 := by
  obtain ⟨fl, ino, l, -, -, hback, rfl⟩ := h
  have hlt := hback.length_lt
  rw [hback.length_eq] at hlt
  rw [file_contents_length]
  omega

theorem length_eq (h : FileHas fs f b) : file_length fs f = .ok (b.length : ℤ) := by
  obtain ⟨fl, ino, l, hf, hi, hback, rfl⟩ := h
  unfold file_length
  rw [filesys.get_file_eq_ok.mpr hf, Outcome.ok_bind, filesys.get_inode_eq_ok.mpr hi,
    Outcome.ok_bind, file_contents_length]
  exact congrArg Outcome.ok hback.length_eq

/-- **A read inside the file** delivers all that is asked for. -/
theorem read (h : FileHas fs f b) (m : Bytes) {o r : ℕ} (hfit : o + r ≤ b.length) :
    ∃ m', file_read_at fs f m r o = .ok ((r : ℤ), m')
      ∧ ∀ k, m' k = if k < r then b.getD (o + k) 0 else m k := by
  obtain ⟨fl, ino, l, hf, hi, hback, rfl⟩ := h
  rw [file_contents_length] at hfit
  have hr : readable ino r o = r := by
    unfold readable
    omega
  obtain ⟨m', hrun, hm⟩ := inode_read_at_readable hback m r o
  rw [hr] at hrun hm
  refine ⟨m', ?_, fun k => ?_⟩
  · unfold file_read_at
    rw [filesys.get_file_eq_ok.mpr hf, Outcome.ok_bind, filesys.get_inode_eq_ok.mpr hi,
      Outcome.ok_bind]
    exact hrun
  · rw [hm k]
    split
    · rw [List.getD_eq_getElem?_getD, getElem?_file_contents, if_pos (by omega), Option.getD_some]
    · rfl

/-- **Loading a page** from inside the file. -/
theorem load (h : FileHas fs f b) (m : Bytes) {o r z : ℕ} (hfit : o + r ≤ b.length)
    (hpage : r + z = PGSIZE) :
    ∃ m', load_bytes fs m f o r z = .ok (true, m') ∧ ∀ j < PGSIZE, m' j = loaded_byte b o r j := by
  have hi32 : i32 (r : ℤ) = r := i32_of_isI32 (by
    unfold PGSIZE at hpage
    unfold IsI32
    omega)
  obtain ⟨m', hrun, hm⟩ := h.read m hfit
  refine ⟨memcpy m' r zeros z, ?_, fun j hj => ?_⟩
  · unfold load_bytes
    rw [if_neg (by omega), hi32, hrun, Outcome.ok_bind]
    exact if_neg fun hne => hne rfl
  · unfold loaded_byte
    by_cases hjr : j < r
    · rw [if_pos hjr, memcpy, if_neg (by omega), hm, if_pos hjr]
    · rw [if_neg hjr, memcpy, if_pos (by omega)]
      rfl

/-- A file that is opened again is the same file. -/
theorem reopen (h : FileHas fs f b) :
    ∃ f' fs', file_reopen fs f = .ok (f', fs') ∧ FileHas fs' f' b := by
  obtain ⟨fl, ino, l, hf, hi, hback, rfl⟩ := h
  have hrun : file_reopen fs f
      = .ok (file_open (fs.set_inode fl.inode { ino with open_cnt := ino.open_cnt + 1 })
        fl.inode) := by
    unfold file_reopen inode_reopen
    rw [filesys.get_file_eq_ok.mpr hf, Outcome.ok_bind, filesys.get_inode_eq_ok.mpr hi,
      Outcome.ok_bind]
    rfl
  have hback' : Backed fs.disk fs.fat { ino with open_cnt := ino.open_cnt + 1 } l := { hback with }
  exact ⟨_, _, hrun, _, _, l, Function.update_self _ _ _, Function.update_self _ _ _, hback', rfl⟩

/-- Opening a file once more loses no other. -/
theorem kept {fs' : filesys} {f' g : ℕ} (h : FileHas fs g b) (hf : FileHas fs f b)
    (hrun : file_reopen fs f = .ok (f', fs')) : FileHas fs' g b := by
  obtain ⟨fl, ino, l, hfl, hino, hback, rfl⟩ := hf
  unfold file_reopen inode_reopen at hrun
  rw [filesys.get_file_eq_ok.mpr hfl, Outcome.ok_bind, filesys.get_inode_eq_ok.mpr hino,
    Outcome.ok_bind] at hrun
  obtain ⟨rfl, rfl⟩ := Outcome.ok_pair hrun
  have hopened : Backed fs.disk fs.fat { ino with open_cnt := ino.open_cnt + 1 } l := { hback with }
  by_cases hg : g = fs.next_file
  · subst hg
    exact ⟨_, _, l, Function.update_self _ _ _, Function.update_self _ _ _, hopened, rfl⟩
  · obtain ⟨fl', ino', l', hfl', hino', hback', heq⟩ := h
    by_cases hi : fl'.inode = fl.inode
    · obtain rfl := Option.some.inj ((hi ▸ hino').symm.trans hino)
      have hopened' : Backed fs.disk fs.fat { ino' with open_cnt := ino'.open_cnt + 1 } l' :=
        { hback' with }
      refine ⟨fl', _, l', (Function.update_of_ne hg _ _).trans hfl', ?_, hopened', heq⟩
      rw [hi]
      exact Function.update_self _ _ _
    · exact ⟨fl', ino', l', (Function.update_of_ne hg _ _).trans hfl',
        (Function.update_of_ne hi _ _).trans hino', hback', heq⟩

end FileHas

/-! ## The page -/

/-- The record of an untouched page: which file, from where, and how much of it. -/
inductive Awaits (file o r : ℕ) : page_kind → Prop
  | anon {i : lazy_load_info} (hf : i.file = file) (ho : i.offset = o) (hr : i.readbyte = r)
      (hz : r + i.zerobyte = PGSIZE) :
      Awaits file o r (.uninit { init := some .lazy_load_segment, type := .VM_ANON, aux := .info i
                                 page_initializer := .anon_initializer })
  | mmap {i : lazy_load_info} {c : ℤ} (hf : i.file = file) (ho : i.offset = o) (hr : i.readbyte = r)
      (hz : r + i.zerobyte = PGSIZE) :
      Awaits file o r (.uninit { init := some .lazy_load_segment, type := .VM_MMAP, aux := .mmap i c
                                 page_initializer := .file_backed_initializer })

namespace vm

variable {s : vm} {t p f file o r : ℕ} {pg : Pintos.page} {fr : Pintos.frame} {b : List UInt8}

/-- `lazy_load_segment` on a page with a frame. -/
theorem lazy_load_segment_loads {i : lazy_load_info} (hpg : s.page p = some pg)
    (hpf : pg.frame = some f) (hfr : s.frame f = some fr) (hb : FileHas s.files i.file b)
    (ho : i.offset = o) (hr : i.readbyte = r) (hz : r + i.zerobyte = PGSIZE)
    (hfit : o + r ≤ b.length) :
    ∃ m, lazy_load_segment s p (.info i) = .ok (true, s.set_mem fr.kva m)
      ∧ ∀ j < PGSIZE, m j = loaded_byte b o r j := by
  obtain ⟨m, hload, hm⟩ := hb.load (s.mem fr.kva) hfit hz
  refine ⟨m, ?_, hm⟩
  have hget : s.get_frame (some f) = .ok (f, fr) := get_frame_eq_ok.mpr ⟨rfl, hfr⟩
  rw [← ho, ← hr] at hload
  unfold lazy_load_segment
  dsimp only
  rw [get_page_eq_ok.mpr hpg, Outcome.ok_bind, hpf, hget, Outcome.ok_bind]
  exact load_page_iff.mpr ⟨m, hload, rfl⟩

/-- `anon_initializer` on a page with a frame. -/
theorem anon_initializer_ok (kva : ℕ) (hpg : s.page p = some pg) (hpf : pg.frame = some f)
    (hfr : s.frame f = some fr) :
    ∃ m, anon_initializer s p kva = .ok ((s.set_mem kva m).set_page p
      { pg with kind := .anon (-1) }) := by
  have hget : s.get_frame (some f) = .ok (f, fr) := get_frame_eq_ok.mpr ⟨rfl, hfr⟩
  have hrun : ∃ s', anon_initializer s p kva = .ok s' := by
    unfold anon_initializer
    rw [get_page_eq_ok.mpr hpg, Outcome.ok_bind, hpf, hget, Outcome.ok_bind]
    exact ⟨_, rfl⟩
  obtain ⟨s', hrun⟩ := hrun
  exact ⟨_, hrun.trans (congrArg Outcome.ok (anon_initializer_eq_ok hrun hpg hpf hfr))⟩

/-- **Swapping in an untouched page** fills its frame from the file. -/
theorem swap_in_awaits (h : Awaits file o r pg.kind) (hpg : s.page p = some pg)
    (hpf : pg.frame = some f) (hfr : s.frame f = some fr) (hb : FileHas s.files file b)
    (hfit : o + r ≤ b.length) :
    ∃ s', swap_in s p fr.kva = .ok (true, s')
      ∧ (∀ j < PGSIZE, s'.mem fr.kva j = loaded_byte b o r j) ∧ s'.proc = s.proc := by
  unfold swap_in
  rw [get_page_eq_ok.mpr hpg, Outcome.ok_bind]
  cases hk : pg.kind with
  | uninit u =>
      rw [hk] at h
      cases h with
      | @anon i hf ho hr hz =>
          subst hf
          obtain ⟨m, hinit⟩ := anon_initializer_ok fr.kva hpg hpf hfr
          obtain ⟨m', hload, hm⟩ := lazy_load_segment_loads
            (s := (s.set_mem fr.kva m).set_page p { pg with kind := .anon (-1) })
            (Function.update_self _ _ _) hpf hfr hb ho hr hz hfit
          have hstart : uninit_initialize s p
              { init := some .lazy_load_segment, type := .VM_ANON, aux := .info i
                page_initializer := .anon_initializer } fr.kva
              = lazy_load_segment ((s.set_mem fr.kva m).set_page p { pg with kind := .anon (-1) }) p
                (.info i) := by
            show (anon_initializer s p fr.kva >>= fun s => lazy_load_segment s p (.info i)) = _
            rw [hinit, Outcome.ok_bind]
          refine ⟨_, hstart.trans hload, fun j hj => ?_, rfl⟩
          rw [← hm j hj]
          exact congrFun (Function.update_self _ _ _) j
      | @mmap i c hf ho hr hz =>
          subst hf
          obtain ⟨m', hload, hm⟩ := lazy_load_segment_loads
            (s := s.set_page p { pg with kind := .file { mapping_count := c, file := i.file
                                                         offset := i.offset, read_byte := i.readbyte
                                                         zero_byte := i.zerobyte } })
            (Function.update_self _ _ _) hpf hfr hb ho hr hz hfit
          have hstart : uninit_initialize s p
              { init := some .lazy_load_segment, type := .VM_MMAP, aux := .mmap i c
                page_initializer := .file_backed_initializer } fr.kva
              = lazy_load_segment (s.set_page p { pg with
                  kind := .file { mapping_count := c, file := i.file, offset := i.offset
                                  read_byte := i.readbyte, zero_byte := i.zerobyte } }) p
                (.info i) := by
            show (file_backed_initializer s p (.mmap i c) >>= fun s =>
              lazy_load_segment s p (.info i)) = _
            unfold file_backed_initializer
            dsimp only
            rw [get_page_eq_ok.mpr hpg, Outcome.ok_bind]
            rfl
          refine ⟨_, hstart.trans hload, fun j hj => ?_, rfl⟩
          rw [← hm j hj]
          exact congrFun (Function.update_self _ _ _) j
  | anon i =>
      rw [hk] at h
      cases h
  | file fp =>
      rw [hk] at h
      cases h

/-- **The first fault on the page.** Once a frame is found for it, the page is mapped to that frame,
and the frame holds what the record says. -/
theorem claim_awaits {s₁ : vm} (h : Awaits file o r pg.kind) (hget : vm_get_frame s t = .ok (f, s₁))
    (hfr : s₁.frame f = some fr) (hpg : s₁.page p = some pg) (hb : FileHas s₁.files file b)
    (hfit : o + r ≤ b.length) (hofs : pg_ofs pg.va = 0) (huser : pg.va < KERN_BASE) :
    ∃ s', vm_do_claim_page s t p = .ok (true, s') ∧ s'.Maps t pg.va fr.kva
      ∧ ∀ j < PGSIZE, s'.mem fr.kva j = loaded_byte b o r j := by
  have hframe : s₁.get_frame (some f) = .ok (f, fr) := get_frame_eq_ok.mpr ⟨rfl, hfr⟩
  obtain ⟨pg', hpg'⟩ : ∃ pg' : Pintos.page, pg' = { pg with frame := some f } := ⟨_, rfl⟩
  have hpage : (s₁.attach t p pg f fr).page p = some pg' := by
    rw [hpg']
    exact Function.update_self _ _ _
  have hkind : pg'.kind = pg.kind := by rw [hpg']
  have hpf : pg'.frame = some f := by rw [hpg']
  have hframe' : (s₁.attach t p pg f fr).frame f = some { fr with page := some p } :=
    Function.update_self _ _ _
  have hfiles : FileHas (s₁.attach t p pg f fr).files file b := hb
  obtain ⟨s', hin, hmem, hproc⟩ := swap_in_awaits (hkind ▸ h) hpage hpf hframe' hfiles hfit
  refine ⟨s', ?_, ?_, hmem⟩
  · unfold vm_do_claim_page
    rw [hget, Outcome.ok_bind]
    dsimp only
    rw [hframe, Outcome.ok_bind, get_page_eq_ok.mpr hpg, Outcome.ok_bind]
    unfold pml4_set_page
    rw [Outcome.assert_pos hofs, Outcome.ok_bind, Outcome.assert_pos huser, Outcome.ok_bind]
    exact hin
  · have hpte : s'.pte_at t pg.va = (s₁.attach t p pg f fr).pte_at t pg.va := by
      unfold vm.pte_at
      rw [hproc]
    refine ⟨{ kva := fr.kva, present := true, writable := pg.writable, accessed := false
              dirty := false }, ?_, rfl, rfl⟩
    rw [hpte]
    unfold vm.attach
    rw [pte_at_set_pte, if_pos ⟨rfl, rfl⟩]

/-- The virtual page is registered, and its first fault, whatever frame is found for it, maps it to
a frame that holds `bytes`, as long as the file has the bytes `b`. -/
def DemandLoads (s : vm) (t va : ℕ) (b : List UInt8) (bytes : ℕ → UInt8) : Prop :=
  ∃ p pg file, s.page_at t va = some p ∧ s.page p = some pg ∧ FileHas s.files file b
    ∧ ∀ {s₀ s₁ f fr}, vm_get_frame s₀ t = .ok (f, s₁) → s₁.frame f = some fr → s₁.page p = some pg →
      FileHas s₁.files file b → ∃ s₂, vm_do_claim_page s₀ t p = .ok (true, s₂)
        ∧ s₂.Maps t va fr.kva ∧ ∀ j < PGSIZE, s₂.mem fr.kva j = bytes j

theorem DemandLoads.congr {va : ℕ} {bytes bytes' : ℕ → UInt8} (h : DemandLoads s t va b bytes)
    (heq : ∀ j < PGSIZE, bytes j = bytes' j) : DemandLoads s t va b bytes' := by
  obtain ⟨p, pg, file, hp, hpg, hb, hloads⟩ := h
  refine ⟨p, pg, file, hp, hpg, hb, fun hget hfr hpg' hb' => ?_⟩
  obtain ⟨s₂, hclaim, hmaps, hmem⟩ := hloads hget hfr hpg' hb'
  exact ⟨s₂, hclaim, hmaps, fun j hj => (hmem j hj).trans (heq j hj)⟩

theorem Awaits.demandLoads {va : ℕ} (h : Awaits file o r pg.kind) (hp : s.page_at t va = some p)
    (hpg : s.page p = some pg) (hva : pg.va = va) (hb : FileHas s.files file b)
    (hfit : o + r ≤ b.length) (hround : pg_round_down va = va) (huser : va < KERN_BASE) :
    DemandLoads s t va b (loaded_byte b o r) := by
  refine ⟨p, pg, file, hp, hpg, hb, fun hget hfr hpg' hb' => ?_⟩
  subst hva
  have hofs : pg_ofs pg.va = 0 := by
    unfold pg_ofs PGSIZE
    unfold pg_round_down PGSIZE at hround
    omega
  exact claim_awaits h hget hfr hpg' hb' hfit hofs huser

/-! ## A range of pages -/

/-- How many pages `n` bytes take. -/
def page_count (n : ℕ) : ℕ := (n + PGSIZE - 1) / PGSIZE

theorem page_count_zero : page_count 0 = 0 := by decide

theorem page_count_last {n : ℕ} (h : 0 < n) (hlt : n < PGSIZE) : page_count n = 1 := by
  unfold page_count PGSIZE at *
  omega

theorem page_count_step {n : ℕ} (h : PGSIZE ≤ n) : page_count n = page_count (n - PGSIZE) + 1 := by
  unfold page_count PGSIZE at *
  omega

theorem lt_page_count {i n : ℕ} : i < page_count n ↔ i * PGSIZE < n := by
  unfold page_count PGSIZE
  omega

theorem Registered.alloc {type : vm_type} {upage : ℕ} {writable : Bool}
    {init : Option vm_initializer} {aux : aux_ptr} (hr : s.Registered)
    (hround : pg_round_down upage = upage) :
    (vm_alloc_page_with_initializer s t type upage writable init aux).2.Registered := by
  generalize halloc : vm_alloc_page_with_initializer s t type upage writable init aux = x
  obtain ⟨done, s'⟩ := x
  rcases vm_alloc_page_cases halloc with ⟨-, rfl⟩ | ⟨-, -, pi, -, rfl⟩
  · exact hr
  · exact hr.register t _ hround

/-- Of `n` pages from `addr` on, those that were not there are now: page `new i` at the `i`-th. -/
structure Entered (s s' : vm) (t addr n : ℕ) (new : ℕ → Pintos.page) : Prop where
  files : s'.files = s.files
  old : ∀ {t' va p}, s.page_at t' va = some p → s'.page_at t' va = some p
  page : ∀ {q pg}, s.page q = some pg → s'.page q = some pg
  outside : ∀ {t' va}, ¬ (t' = t ∧ ∃ i < n, va = addr + i * PGSIZE) →
    s'.page_at t' va = s.page_at t' va
  inside : ∀ i < n, s.page_at t (addr + i * PGSIZE) = none →
    ∃ p, s'.page_at t (addr + i * PGSIZE) = some p ∧ s'.page p = some (new i)

namespace Entered

variable {s' s'' : vm} {addr n : ℕ} {new : ℕ → Pintos.page}

theorem zero (s : vm) (t addr : ℕ) (new : ℕ → Pintos.page) : Entered s s t addr 0 new :=
  ⟨rfl, fun h => h, fun h => h, fun _ => rfl, fun i hi => absurd hi (Nat.not_lt_zero i)⟩

/-- One page. -/
theorem one (hr : s.Registered) (hva : (new 0).va = addr)
    (h : s' = s ∧ s.page_at t addr ≠ none ∨ s' = s.register t (new 0) ∧ s.page_at t addr = none) :
    Entered s s' t addr 1 new := by
  rcases h with ⟨rfl, hsome⟩ | ⟨rfl, hnone⟩
  · refine ⟨rfl, fun h => h, fun h => h, fun _ => rfl, fun i hi hnone => ?_⟩
    obtain rfl : i = 0 := by omega
    rw [Nat.zero_mul, Nat.add_zero] at hnone
    exact absurd hnone hsome
  · refine ⟨rfl, fun {t' va p} hp => ?_, fun {q pg} hq => ?_, fun {t' va} hout => ?_,
      fun i hi _ => ?_⟩
    · rw [page_at_register, if_neg]
      · exact hp
      · rintro ⟨rfl, rfl⟩
        rw [hva, hnone] at hp
        cases hp
    · rw [← hq]
      exact Function.update_of_ne (hr.fresh hq).ne _ _
    · rw [page_at_register, if_neg]
      rintro ⟨rfl, rfl⟩
      exact hout ⟨rfl, 0, Nat.zero_lt_one, by rw [hva, Nat.zero_mul, Nat.add_zero]⟩
    · obtain rfl : i = 0 := by omega
      refine ⟨s.next_page, ?_, Function.update_self _ _ _⟩
      rw [Nat.zero_mul, Nat.add_zero, page_at_register, if_pos ⟨rfl, hva.symm⟩]

/-- The first page, and the others. -/
theorem cons (h₁ : Entered s s' t addr 1 new)
    (h : Entered s' s'' t (addr + PGSIZE) n fun i => new (i + 1)) :
    Entered s s'' t addr (n + 1) new := by
  have hnext : ∀ i, addr + PGSIZE + i * PGSIZE = addr + (i + 1) * PGSIZE := fun i => by
    unfold PGSIZE
    omega
  refine ⟨h.files.trans h₁.files, fun hp => h.old (h₁.old hp), fun hq => h.page (h₁.page hq),
    fun {t' va} hout => ?_, fun i hi hnone => ?_⟩
  · rw [h.outside, h₁.outside]
    · rintro ⟨rfl, i, hi, rfl⟩
      exact hout ⟨rfl, i, by omega, rfl⟩
    · rintro ⟨rfl, i, hi, rfl⟩
      exact hout ⟨rfl, i + 1, by omega, hnext i⟩
  · cases i with
    | zero =>
        obtain ⟨p, hp, hpg⟩ := h₁.inside 0 Nat.zero_lt_one hnone
        exact ⟨p, h.old hp, h.page hpg⟩
    | succ i =>
        have hnone' : s'.page_at t (addr + PGSIZE + i * PGSIZE) = none := by
          rw [hnext, h₁.outside]
          · exact hnone
          · rintro ⟨-, j, hj, heq⟩
            unfold PGSIZE at heq
            omega
        obtain ⟨p, hp, hpg⟩ := h.inside i (by omega) hnone'
        rw [hnext] at hp
        exact ⟨p, hp, hpg⟩

/-- `vm_alloc_page_with_initializer` enters one page, unless there is one. -/
theorem alloc {type : vm_type} {pi : page_initializer} {upage : ℕ} {writable : Bool}
    {init : Option vm_initializer} {aux : aux_ptr} (hr : s.Registered)
    (hround : pg_round_down upage = upage) (htype : initializer_of type = some pi)
    (hnew : new 0 = lazy_page upage writable
      { init := init, type := type, aux := aux, page_initializer := pi }) :
    Entered s (vm_alloc_page_with_initializer s t type upage writable init aux).2 t
      upage 1 new := by
  have hva : (new 0).va = upage := by rw [hnew]; rfl
  cases hp : s.page_at t upage with
  | none =>
      rw [vm_alloc_page_none hround hp htype, ← hnew]
      exact one hr hva (.inr ⟨rfl, hp⟩)
  | some p =>
      have hsame : (vm_alloc_page_with_initializer s t type upage writable init aux).2 = s := by
        unfold vm_alloc_page_with_initializer spt_find_page
        rw [hround, hp]
      rw [hsame]
      exact one hr hva (.inl ⟨rfl, by rw [hp]; exact Option.some_ne_none p⟩)

end Entered

end vm

end Pintos
