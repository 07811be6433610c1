/-
`fork` keeps the memory map coherent.

The child gets a page for every page of the parent. A page that was never
touched is copied as a description of what to load; a resident page is shared:
the child's page names the parent's frame, whose reference count goes up, and
the child's entry is read-only. `Copied` says what one turn of the loop did.

The parent's own entry is not looked at. Whatever write permission it had before
the fork it has after it.
-/
import Pintos.Vm.Access

set_option autoImplicit false

namespace Pintos

/-! ## One page -/

/-- The state after page `p` of `t` joined frame `f`. -/
def vm.share (s : vm) (t p : ℕ) (pg : Pintos.page) (f : ℕ) (fr : Pintos.frame) : vm :=
  ((s.set_frame f { fr with ref_cnt := fr.ref_cnt + 1 }).set_page p
    { pg with frame := some f }).set_pte t pg.va
    { kva := fr.kva, present := true, writable := false, accessed := false, dirty := false }

section Copy

variable {s s' : vm} {t p src : ℕ} {pg : Pintos.page} {done : Bool}

theorem vm_copy_claim_page_cases {va : ℕ} (hp : s.page_at t (pg_round_down va) = some p)
    (hpg : s.page p = some pg) (h : vm_copy_claim_page s t va src = .ok (done, s')) :
    ∃ ppg f fr, s.page src = some ppg ∧ ppg.frame = some f ∧ s.frame f = some fr
      ∧ ((fr.ref_cnt = 0 ∧ s' = s.set_frame f { fr with ref_cnt := fr.ref_cnt + 1 })
        ∨ swap_in (s.share t p pg f fr) p fr.kva = .ok (done, s')) := by
  unfold vm_copy_claim_page spt_find_page at h
  rw [hp] at h
  dsimp only at h
  obtain ⟨ppg, hppg, h⟩ := Outcome.bind_eq_ok.mp h
  obtain ⟨⟨f, fr⟩, hf, h⟩ := Outcome.bind_eq_ok.mp h
  obtain ⟨hpf, hfr⟩ := vm.get_frame_eq_ok.mp hf
  dsimp only at hpf hfr h
  refine ⟨ppg, f, fr, vm.get_page_eq_ok.mp hppg, hpf, hfr, ?_⟩
  by_cases href : fr.ref_cnt + 1 = 1
  · rw [if_pos href] at h
    refine .inl ⟨by omega, ?_⟩
    exact ((Outcome.ok_pair h).2).symm
  · rw [if_neg href] at h
    obtain ⟨pg', hpg', h⟩ := Outcome.bind_eq_ok.mp h
    have hpg' : s.page p = some pg' := vm.get_page_eq_ok.mp hpg'
    rw [hpg] at hpg'
    obtain rfl := Option.some.inj hpg'
    obtain ⟨s₁, hs₁, h⟩ := Outcome.bind_eq_ok.mp h
    have hs₁ : s₁ = s.share t p pg f fr := pml4_set_page_eq_ok hs₁
    subst hs₁
    exact .inr h

/-- The page a fork makes for an untouched one. -/
def fork_uninit_page (pg : page) (u : uninit_page) (aux : aux_ptr) : page :=
  lazy_page pg.va pg.writable
    { init := u.init, type := .VM_ANON, aux := aux, page_initializer := .anon_initializer }

/-- The page it makes for a file page, before that joins the frame. -/
def fork_file_page (pg : page) (fp : file_page) (file : ℕ) : page :=
  lazy_page pg.va pg.writable
    { init := some .lazy_load_segment, type := .VM_FILE
      aux := .mmap (make_info file fp.offset fp.read_byte) fp.mapping_count
      page_initializer := .file_backed_initializer }

/-- The page it makes for an anonymous page. -/
def fork_anon_page (pg : page) : page :=
  lazy_page pg.va pg.writable
    { init := none, type := .VM_ANON, aux := .null, page_initializer := .anon_initializer }

/-- The state after a new page of `t` joined frame `f` as a page of kind `kind`. -/
def vm.fork_share (s : vm) (t : ℕ) (new : Pintos.page) (f : ℕ) (fr : Pintos.frame)
    (kind : page_kind) : vm :=
  ((s.register t new).share t s.next_page new f fr).set_page s.next_page
    { new with frame := some f, kind := kind }

/-- The kind of page that a shared file page becomes. -/
def fork_file_kind (fp : file_page) (file : ℕ) : page_kind :=
  let i := make_info file fp.offset fp.read_byte
  .file { mapping_count := fp.mapping_count, file := file, offset := fp.offset
          read_byte := i.readbyte, zero_byte := i.zerobyte }

/-- What one turn of `supplemental_page_table_copy` did. -/
inductive Copied (s : vm) (t : ℕ) (pg : page) : Bool → vm → Prop
  | uninit {u : uninit_page} {aux : aux_ptr} {fs : filesys} (hk : pg.kind = .uninit u)
      (haux : duplicate_aux s u = .ok (aux, s.set_files fs)) :
      Copied s t pg true ((s.set_files fs).register t (fork_uninit_page pg u aux))
  | file {fp : file_page} {file f : ℕ} {fs : filesys} {fr : frame} {m : Bytes} {done : Bool}
      (hk : pg.kind = .file fp) (hopen : file_reopen s.files fp.file = .ok (file, fs))
      (hpf : pg.frame = some f) (hfr : s.frame f = some fr)
      (hload : load_bytes fs (s.mem fr.kva) file fp.offset fp.read_byte
        (make_info file fp.offset fp.read_byte).zerobyte = .ok (done, m)) :
      Copied s t pg done (((s.set_files fs).fork_share t (fork_file_page pg fp file) f fr
        (fork_file_kind fp file)).set_mem fr.kva m)
  | anon {i : ℤ} {f : ℕ} {fr : frame} (hk : pg.kind = .anon i) (hpf : pg.frame = some f)
      (hfr : s.frame f = some fr) :
      Copied s t pg true (s.fork_share t (fork_anon_page pg) f fr (.anon (-1)))

theorem reopen_info_eq_ok {i i' : lazy_load_info} (h : reopen_info s i = .ok (i', s')) :
    ∃ file fs, file_reopen s.files i.file = .ok (file, fs) ∧ i' = { i with file := file }
      ∧ s' = s.set_files fs := by
  unfold reopen_info at h
  obtain ⟨⟨file, fs⟩, hopen, h⟩ := Outcome.bind_eq_ok.mp h
  obtain ⟨rfl, rfl⟩ := Outcome.ok_pair h
  exact ⟨file, fs, hopen, rfl, rfl⟩

/-- `duplicate_aux` reopens the file behind `aux`. -/
theorem duplicate_aux_eq_ok {u : uninit_page} {aux : aux_ptr}
    (h : duplicate_aux s u = .ok (aux, s')) :
    ∃ i file fs, file_reopen s.files i.file = .ok (file, fs) ∧ s' = s.set_files fs
      ∧ ((u.type = .VM_MMAP ∧ ∃ c, u.aux = .mmap i c ∧ aux = .mmap { i with file := file } c)
        ∨ (u.type ≠ .VM_MMAP ∧ u.aux = .info i ∧ aux = .info { i with file := file })) := by
  unfold duplicate_aux at h
  cases haux : u.aux with
  | null =>
      rw [haux] at h
      cases h
  | mmap i c =>
      rw [haux] at h
      dsimp only at h
      by_cases ht : u.type = .VM_MMAP
      · rw [if_pos ht] at h
        obtain ⟨⟨i', s₁⟩, hre, h⟩ := Outcome.bind_eq_ok.mp h
        obtain ⟨rfl, rfl⟩ := Outcome.ok_pair h
        obtain ⟨file, fs, hopen, rfl, rfl⟩ := reopen_info_eq_ok hre
        exact ⟨i, file, fs, hopen, rfl, .inl ⟨ht, c, rfl, rfl⟩⟩
      · rw [if_neg ht] at h
        cases h
  | info i =>
      rw [haux] at h
      dsimp only at h
      by_cases ht : u.type = .VM_MMAP
      · rw [if_pos ht] at h
        cases h
      · rw [if_neg ht] at h
        obtain ⟨⟨i', s₁⟩, hre, h⟩ := Outcome.bind_eq_ok.mp h
        obtain ⟨rfl, rfl⟩ := Outcome.ok_pair h
        obtain ⟨file, fs, hopen, rfl, rfl⟩ := reopen_info_eq_ok hre
        exact ⟨i, file, fs, hopen, rfl, .inr ⟨ht, rfl, rfl⟩⟩

/-- Allocation succeeds where there is no page yet. -/
theorem vm_alloc_page_none {type : vm_type} {upage : ℕ} {writable : Bool}
    {init : Option vm_initializer} {aux : aux_ptr} {pi : page_initializer}
    (hround : pg_round_down upage = upage) (hnone : s.page_at t upage = none)
    (htype : initializer_of type = some pi) :
    vm_alloc_page_with_initializer s t type upage writable init aux
      = (true, s.register t (lazy_page upage writable
          { init := init, type := type, aux := aux, page_initializer := pi })) := by
  unfold vm_alloc_page_with_initializer spt_find_page
  rw [hround, hnone, htype]
  rfl

section Claim

variable {f : ℕ} {fr : frame}

/-- On a shared frame the anonymous page is made, and the frame is left as it is. -/
theorem swap_in_fork_anon (href : 1 ≤ fr.ref_cnt) {w : Bool}
    (h : swap_in (s.share t p (fork_anon_page pg) f fr) p fr.kva = .ok (w, s')) :
    w = true ∧ s' = (s.share t p (fork_anon_page pg) f fr).set_page p
      { fork_anon_page pg with frame := some f, kind := .anon (-1) } := by
  have hpg₁ : (s.share t p (fork_anon_page pg) f fr).page p
      = some { fork_anon_page pg with frame := some f } := Function.update_self _ _ _
  have hfr₁ : (s.share t p (fork_anon_page pg) f fr).frame f
      = some { fr with ref_cnt := fr.ref_cnt + 1 } := Function.update_self _ _ _
  unfold swap_in at h
  obtain ⟨pg', hpg', h⟩ := Outcome.bind_eq_ok.mp h
  rw [vm.get_page_eq_ok, hpg₁] at hpg'
  obtain rfl := Option.some.inj hpg'
  dsimp only [fork_anon_page, lazy_page] at h
  unfold uninit_initialize at h
  obtain ⟨aux, -, h⟩ := Outcome.bind_eq_ok.mp h
  obtain ⟨s₁, hs₁, h⟩ := Outcome.bind_eq_ok.mp h
  obtain ⟨rfl, rfl⟩ := Outcome.ok_pair h
  have hs₁ := anon_initializer_eq_ok hs₁ hpg₁ rfl hfr₁
  rw [if_neg (by dsimp only; omega), set_mem_self] at hs₁
  exact ⟨rfl, hs₁⟩

/-- On a shared frame the file page is made, and the file is read into the frame
once more. -/
theorem swap_in_fork_file {fp : file_page} {file : ℕ}
    (h : swap_in (s.share t p (fork_file_page pg fp file) f fr) p fr.kva = .ok (done, s')) :
    ∃ m, load_bytes s.files (s.mem fr.kva) file fp.offset fp.read_byte
        (make_info file fp.offset fp.read_byte).zerobyte = .ok (done, m)
      ∧ s' = ((s.share t p (fork_file_page pg fp file) f fr).set_page p
        { fork_file_page pg fp file with frame := some f, kind := fork_file_kind fp file }).set_mem
          fr.kva m := by
  have hpg₁ : (s.share t p (fork_file_page pg fp file) f fr).page p
      = some { fork_file_page pg fp file with frame := some f } := Function.update_self _ _ _
  have hfr₁ : (s.share t p (fork_file_page pg fp file) f fr).frame f
      = some { fr with ref_cnt := fr.ref_cnt + 1 } := Function.update_self _ _ _
  unfold swap_in at h
  obtain ⟨pg', hpg', h⟩ := Outcome.bind_eq_ok.mp h
  rw [vm.get_page_eq_ok, hpg₁] at hpg'
  obtain rfl := Option.some.inj hpg'
  dsimp only [fork_file_page, lazy_page] at h
  unfold uninit_initialize at h
  obtain ⟨aux, haux, h⟩ := Outcome.bind_eq_ok.mp h
  obtain ⟨s₁, hs₁, h⟩ := Outcome.bind_eq_ok.mp h
  have haux : aux = .info (make_info file fp.offset fp.read_byte) := by
    unfold uninit_aux at haux
    rw [if_pos (.inr rfl)] at haux
    exact (Outcome.ok.inj haux).symm
  subst haux
  have hs₁ : file_backed_initializer (s.share t p (fork_file_page pg fp file) f fr) p
      (.mmap (make_info file fp.offset fp.read_byte) fp.mapping_count) = .ok s₁ := hs₁
  obtain ⟨i, c, hi, rfl⟩ := file_backed_initializer_eq_ok hs₁ hpg₁
  obtain ⟨rfl, rfl⟩ := aux_ptr.mmap.inj hi
  have h : lazy_load_segment ((s.share t p (fork_file_page pg fp file) f fr).set_page p
      { fork_file_page pg fp file with frame := some f, kind := fork_file_kind fp file }) p
      (.info (make_info file fp.offset fp.read_byte)) = .ok (done, s') := h
  obtain ⟨i, hi, hload⟩ := lazy_load_segment_eq_ok h (Function.update_self _ _ _) rfl hfr₁
  obtain rfl := aux_ptr.info.inj hi
  exact load_page_iff.mp hload

/-- A new page of `t` claims the frame of `src`. -/
theorem vm_copy_claim_page_new (new : page) (hsrc : s.page src = some pg) (hlt : src < s.next_page)
    (hround : pg_round_down new.va = new.va)
    (href : ∀ {f : ℕ} {fr : frame}, pg.frame = some f → s.frame f = some fr → 1 ≤ fr.ref_cnt)
    (h : vm_copy_claim_page (s.register t new) t new.va src = .ok (done, s')) :
    ∃ f fr, pg.frame = some f ∧ s.frame f = some fr ∧ 1 ≤ fr.ref_cnt
      ∧ swap_in ((s.register t new).share t s.next_page new f fr) s.next_page fr.kva
        = .ok (done, s') := by
  have hp : (s.register t new).page_at t (pg_round_down new.va) = some s.next_page := by
    rw [hround, page_at_register, if_pos ⟨rfl, rfl⟩]
  have hnew : (s.register t new).page s.next_page = some new := Function.update_self _ _ _
  obtain ⟨ppg, f, fr, hppg, hpf, hfr, hcase⟩ := vm_copy_claim_page_cases hp hnew h
  have hold : (s.register t new).page src = s.page src := Function.update_of_ne hlt.ne _ _
  rw [hold, hsrc] at hppg
  obtain rfl := Option.some.inj hppg
  have hone := href hpf hfr
  refine ⟨f, fr, hpf, hfr, hone, ?_⟩
  rcases hcase with ⟨hzero, -⟩ | hin
  · omega
  · exact hin

end Claim

/-- The frame is copied onto itself: both pages have the same one. -/
theorem copy_frame_contents_shared {f : ℕ} {fr : frame} (hsrc : s.page src = some pg)
    (hlt : src < s.next_page) (hround : pg_round_down pg.va = pg.va) (hpf : pg.frame = some f)
    (h : copy_frame_contents (s.fork_share t (fork_anon_page pg) f fr (.anon (-1))) t pg.va src
      = .ok s') : s' = s.fork_share t (fork_anon_page pg) f fr (.anon (-1)) := by
  have hp : (s.fork_share t (fork_anon_page pg) f fr (.anon (-1))).page_at t
      (pg_round_down pg.va) = some s.next_page := by
    have : (s.register t (fork_anon_page pg)).page_at t pg.va = some s.next_page := by
      rw [page_at_register, if_pos ⟨rfl, rfl⟩]
    rw [hround, ← this]
    exact vm.page_at_set_pte _ _ _ _ _ _
  have hpage : (s.fork_share t (fork_anon_page pg) f fr (.anon (-1))).page s.next_page
      = some { fork_anon_page pg with frame := some f, kind := .anon (-1) } :=
    Function.update_self _ _ _
  have hold : (s.fork_share t (fork_anon_page pg) f fr (.anon (-1))).page src = some pg := by
    rw [← hsrc]
    unfold vm.fork_share vm.share vm.register
    simp [hlt.ne]
  have hframe : (s.fork_share t (fork_anon_page pg) f fr (.anon (-1))).frame f
      = some { fr with ref_cnt := fr.ref_cnt + 1 } := Function.update_self _ _ _
  unfold copy_frame_contents spt_find_page at h
  rw [hp] at h
  simp only [vm.get_page, hpage, vm.get_frame, hframe, hold, hpf, Outcome.ok_bind] at h
  have h := Outcome.ok.inj h
  rw [set_mem_self] at h
  exact h.symm

/-- **One turn of the loop**, for a page the child does not have yet. -/
theorem copy_page_cases (hsrc : s.page src = some pg) (hlt : src < s.next_page)
    (hnone : s.page_at t pg.va = none) (hround : pg_round_down pg.va = pg.va)
    (href : ∀ {f : ℕ} {fr : frame}, pg.frame = some f → s.frame f = some fr → 1 ≤ fr.ref_cnt)
    (h : copy_page s t src = .ok (done, s')) : Copied s t pg done s' := by
  unfold copy_page at h
  obtain ⟨pg', hpg', h⟩ := Outcome.bind_eq_ok.mp h
  rw [vm.get_page_eq_ok, hsrc] at hpg'
  obtain rfl := Option.some.inj hpg'
  cases hk : pg.kind with
  | uninit u =>
      rw [hk] at h
      dsimp only at h
      unfold copy_uninit at h
      obtain ⟨⟨aux, s₁⟩, haux, h⟩ := Outcome.bind_eq_ok.mp h
      obtain ⟨-, -, fs, -, rfl, -⟩ := duplicate_aux_eq_ok haux
      dsimp only at h
      rw [vm_alloc_page_none (s := s.set_files fs) hround hnone rfl] at h
      obtain ⟨rfl, rfl⟩ := Outcome.ok_pair h
      exact .uninit hk haux
  | file fp =>
      rw [hk] at h
      dsimp only at h
      unfold copy_file at h
      obtain ⟨⟨file, fs⟩, hopen, h⟩ := Outcome.bind_eq_ok.mp h
      dsimp only at h
      rw [vm_alloc_page_none (s := s.set_files fs) hround hnone rfl] at h
      dsimp only at h
      rw [if_pos rfl] at h
      obtain ⟨f, fr, hpf, hfr, -, hin⟩ :=
        vm_copy_claim_page_new (s := s.set_files fs) (fork_file_page pg fp file) hsrc hlt hround
          href h
      obtain ⟨m, hload, rfl⟩ := swap_in_fork_file hin
      exact .file hk hopen hpf hfr hload
  | anon i =>
      rw [hk] at h
      dsimp only at h
      unfold copy_anon at h
      rw [vm_alloc_page_none hround hnone rfl] at h
      dsimp only at h
      rw [if_pos rfl] at h
      obtain ⟨⟨w, s₁⟩, hclaim, h⟩ := Outcome.bind_eq_ok.mp h
      obtain ⟨f, fr, hpf, hfr, hone, hin⟩ :=
        vm_copy_claim_page_new (fork_anon_page pg) hsrc hlt hround href hclaim
      obtain ⟨rfl, rfl⟩ := swap_in_fork_anon hone hin
      dsimp only at h
      rw [if_pos rfl] at h
      obtain ⟨s₂, hcopy, h⟩ := Outcome.bind_eq_ok.mp h
      obtain ⟨rfl, rfl⟩ := Outcome.ok_pair h
      have hself : s₂ = s.fork_share t (fork_anon_page pg) f fr (.anon (-1)) :=
        copy_frame_contents_shared hsrc hlt hround hpf hcopy
      subst hself
      exact .anon hk hpf hfr

end Copy

/-! ## Coherence -/

namespace vm

variable {s s' : vm} {t p : ℕ} {pg : Pintos.page} {f : ℕ} {fr : Pintos.frame}

theorem page_at_share (s : vm) (t p : ℕ) (pg : Pintos.page) (f : ℕ) (fr : Pintos.frame)
    (t' va' : ℕ) : (s.share t p pg f fr).page_at t' va' = s.page_at t' va' :=
  page_at_set_pte _ _ _ _ _ _

/-- One page more on a frame that others use at the same address. -/
theorem Coherent.shared {t₀ : ℕ} (hc : s.Coherent) (hp : s.page_at t pg.va = some p)
    (hpg : s.page p = some pg) (hf : s.frame f = some fr) (hres : s.Resident t₀ pg.va f) :
    (s.share t p pg f fr).Registered ∧ (s.share t p pg f fr).Mapped
      ∧ PageUpdate s (s.share t p pg f fr) t pg.va { pg with frame := some f } := by
  have hpage : (s.share t p pg f fr).page
      = Function.update s.page p (some { pg with frame := some f }) := rfl
  have hu : PageUpdate s (s.share t p pg f fr) t pg.va { pg with frame := some f } :=
    hc.registered.pageUpdate hp (page_at_share s t p pg f fr) hpage
  have hmaps : ∀ t' va' k, (s.share t p pg f fr).Maps t' va' k
      ↔ (t' = t ∧ va' = pg.va ∧ fr.kva = k) ∨ (¬ (t' = t ∧ va' = pg.va) ∧ s.Maps t' va' k) := by
    intro t' va' k
    unfold vm.share
    rw [maps_set_pte]
    simp only [true_and]
    rfl
  refine ⟨registered_set_page_congr hc.registered hpg (page_at_share s t p pg f fr) hpage rfl rfl
    rfl fun t' => ?_, ?_, hu⟩
  · unfold vm.share
    rw [alive_set_pte]
    rfl
  · apply hc.mapped.assign hu rfl (Function.update_self _ _ _) hmaps
      (kva_set_frame { fr with ref_cnt := fr.ref_cnt + 1 } hf rfl) rfl rfl
    · intro t' va' hr
      exact hc.mapped.same_va hres hr
    · intro g gr hg
      by_cases hgf : g = f
      · -- one user more, one reference more
        subst hgf
        have hself : (s.share t p pg g fr).frame g = some { fr with ref_cnt := fr.ref_cnt + 1 } :=
          Function.update_self _ _ _
        rw [hself] at hg
        obtain rfl := Option.some.inj hg
        apply Counted.insert (a := (t, pg.va)) (hc.mapped.counted hf)
        intro x hx
        rcases hu.resident_iff.mp hx with ⟨ht, hva, -⟩ | ⟨-, hr⟩
        · exact .inr (Prod.ext ht hva)
        · exact .inl hr
      · have hg' : s.frame g = some gr := by
          rw [← hg]
          exact (Function.update_of_ne hgf _ _).symm
        apply (hc.mapped.counted hg').mono _ le_rfl
        intro x hx
        rcases hu.resident_iff.mp hx with ⟨-, -, hgf'⟩ | ⟨-, hr⟩
        · exact absurd (Option.some.inj hgf').symm hgf
        · exact hr

/-- The state after a turn of the loop that shares a frame. -/
theorem Coherent.fork_share {t₀ : ℕ} (hc : s.Coherent) (new : Pintos.page) {u : uninit_page}
    (hnone : s.page_at t new.va = none) (hround : pg_round_down new.va = new.va)
    (hframe : new.frame = none) (hkind : new.kind = .uninit u) (hf : s.frame f = some fr)
    (hres : s.Resident t₀ new.va f) (kd : page_kind) (m : Bytes)
    (hkd : kd = .anon (-1) ∨ ∃ fp, kd = .file fp) :
    ((s.fork_share t new f fr kd).set_mem fr.kva m).Coherent
      ∧ (∀ t' va', ¬ (t' = t ∧ va' = new.va) →
        ((s.fork_share t new f fr kd).set_mem fr.kva m).registered t' va' = s.registered t' va')
      ∧ ((s.fork_share t new f fr kd).set_mem fr.kva m).registered t new.va
        = some { new with frame := some f, kind := kd } := by
  obtain ⟨hc₁, hother, hself⟩ := hc.register new hnone hround hframe
    (fun i hi => by rw [hkind] at hi; cases hi)
  have hp₁ : (s.register t new).page_at t new.va = some s.next_page := by
    rw [page_at_register, if_pos ⟨rfl, rfl⟩]
  have hpg₁ : (s.register t new).page s.next_page = some new := Function.update_self _ _ _
  have hres₁ : (s.register t new).Resident t₀ new.va f := by
    obtain ⟨pg, hpg, hpf⟩ := hres
    refine ⟨pg, ?_, hpf⟩
    rw [hother, hpg]
    rintro ⟨rfl, -⟩
    obtain ⟨q, hq, -⟩ := registered_eq_some.mp hpg
    rw [hnone] at hq
    cases hq
  obtain ⟨hr₂, hm₂, hu₂⟩ := hc₁.shared (f := f) hp₁ hpg₁ hf hres₁
  have hp₂ := (hu₂.page_at t new.va).trans hp₁
  have hin : SwappedIn ((s.register t new).share t s.next_page new f fr) s.next_page
      { new with frame := some f } fr.kva true ((s.fork_share t new f fr kd).set_mem fr.kva m) :=
    .uninit hkind hkd
  obtain ⟨hc', kd', hu'⟩ := SwappedIn.coherent hc₁.swapped hself hframe hr₂ hm₂ rfl hu₂ hp₂
    (Function.update_self _ _ _) hin
  refine ⟨hc', fun t' va' hne => ?_, ?_⟩
  · rw [hu'.other t' va' hne, hother t' va' hne]
  · apply registered_eq_some.mpr
    exact ⟨s.next_page, hp₂, Function.update_self _ _ _⟩

/-- What a turn of the loop leaves as it was: all tables but the new entry of the child. -/
structure Grown (s : vm) (t va : ℕ) (s' : vm) : Prop where
  page_at : ∀ t' va', ¬ (t' = t ∧ va' = va) → s'.page_at t' va' = s.page_at t' va'
  alive : ∀ t', (s'.proc t').alive = (s.proc t').alive

theorem page_at_fork_share (s : vm) (t : ℕ) (new : Pintos.page) (f : ℕ) (fr : Pintos.frame)
    (kd : page_kind) (t' va' : ℕ) : (s.fork_share t new f fr kd).page_at t' va'
      = (s.register t new).page_at t' va' :=
  page_at_share (s.register t new) t s.next_page new f fr t' va'

theorem alive_register (s : vm) (t : ℕ) (new : Pintos.page) (t' : ℕ) :
    ((s.register t new).proc t').alive = (s.proc t').alive := by
  unfold vm.register
  rw [alive_set_spt]
  rfl

theorem grown_register (s : vm) (t : ℕ) (new : Pintos.page) :
    Grown s t new.va (s.register t new) where
  page_at t' va' hne := by rw [page_at_register, if_neg hne]
  alive := alive_register s t new

theorem grown_fork_share (s : vm) (t : ℕ) (new : Pintos.page) (f : ℕ) (fr : Pintos.frame)
    (kd : page_kind) : Grown s t new.va (s.fork_share t new f fr kd) where
  page_at t' va' hne := by rw [page_at_fork_share, page_at_register, if_neg hne]
  alive t' := by
    have hshare : ((s.fork_share t new f fr kd).proc t').alive
        = ((s.register t new).proc t').alive :=
      alive_set_pte _ _ _ _ _
    rw [hshare, alive_register]

/-- A turn of the loop enters the page into the table of the child. -/
theorem Copied.grown {done : Bool} (h : Copied s t pg done s') : Grown s t pg.va s' := by
  cases h with
  | @uninit u aux fs hk haux =>
      have hg := grown_register (s.set_files fs) t (fork_uninit_page pg u aux)
      exact ⟨hg.page_at, hg.alive⟩
  | @file fp file f fs fr m done hk hopen hpf hfr hload =>
      have hg := grown_fork_share (s.set_files fs) t (fork_file_page pg fp file) f fr
        (fork_file_kind fp file)
      exact ⟨hg.page_at, hg.alive⟩
  | @anon i f fr hk hpf hfr => exact grown_fork_share s t (fork_anon_page pg) f fr (.anon (-1))

/-- **One turn of the loop** of `supplemental_page_table_copy`. -/
theorem Copied.coherent {t₀ va : ℕ} {done : Bool} (hc : s.Coherent)
    (hreg : s.registered t₀ va = some pg) (hnone : s.page_at t va = none)
    (h : Copied s t pg done s') : s'.Coherent := by
  obtain rfl := hc.registered.va hreg
  obtain ⟨p₀, hp₀, hpg₀⟩ := registered_eq_some.mp hreg
  have hround := hc.registered.aligned hp₀
  cases h with
  | @uninit u aux fs hk haux =>
      have hc₁ : (s.set_files fs).Coherent := (SameTables.set_files s fs).coherent hc rfl
      exact (hc₁.register (fork_uninit_page pg u aux) hnone hround rfl nofun).1
  | @file fp file f fs fr m done hk hopen hpf hfr hload =>
      have hc₁ : (s.set_files fs).Coherent := (SameTables.set_files s fs).coherent hc rfl
      have hres : (s.set_files fs).Resident t₀ pg.va f := ⟨pg, hreg, hpf⟩
      exact (hc₁.fork_share (fork_file_page pg fp file) hnone hround rfl rfl hfr hres _ m
        (.inr ⟨_, rfl⟩)).1
  | @anon i f fr hk hpf hfr =>
      have hres : s.Resident t₀ pg.va f := ⟨pg, hreg, hpf⟩
      have hcf := (hc.fork_share (fork_anon_page pg) hnone hround rfl rfl hfr hres (.anon (-1))
        (s.mem fr.kva) (.inl rfl)).1
      have hmem : (s.fork_share t (fork_anon_page pg) f fr (.anon (-1))).set_mem fr.kva
          (s.mem fr.kva) = s.fork_share t (fork_anon_page pg) f fr (.anon (-1)) := set_mem_self _ _
      rw [hmem] at hcf
      exact hcf

/-- The count of a frame that a page is in. -/
theorem Mapped.one_le (h : s.Mapped) {va : ℕ} (hres : s.Resident t va f)
    (hf : s.frame f = some fr) : 1 ≤ fr.ref_cnt := by
  have hone := h.counted hf [(t, va)] (List.nodup_singleton _) (by simpa using hres)
  simpa using hone

/-- **The loop of `supplemental_page_table_copy`** keeps what one turn keeps. The child `t` has none
of the pages yet. -/
theorem supplemental_page_table_copy_rule {I : vm → Prop} {t₀ : ℕ} (ht : t₀ ≠ t)
    (hregistered : ∀ {s}, I s → s.Registered)
    (href : ∀ {s va pg f fr}, I s → s.registered t₀ va = some pg → pg.frame = some f →
      s.frame f = some fr → 1 ≤ fr.ref_cnt)
    (hstep : ∀ {s s' va pg done}, I s → s.registered t₀ va = some pg → s.page_at t va = none →
      Copied s t pg done s' → I s')
    (entries : List (Sigma fun _ : ℕ => ℕ)) : ∀ {s s' : vm} {done : Bool}, I s →
      (entries.map Sigma.fst).Nodup → (∀ x ∈ entries, s.page_at t₀ x.1 = some x.2) →
      (∀ x ∈ entries, s.page_at t x.1 = none) →
      supplemental_page_table_copy t entries s = .ok (done, s') →
      I s' ∧ (∀ t', t' ≠ t → ∀ va, s'.page_at t' va = s.page_at t' va)
        ∧ ∀ t', (s'.proc t').alive = (s.proc t').alive := by
  induction entries with
  | nil =>
      intro s s' done hi _ _ _ h
      obtain rfl := (Outcome.ok_pair h).2
      exact ⟨hi, fun _ _ _ => rfl, fun _ => rfl⟩
  | cons x entries ih =>
      intro s s' done hi hnodup hparent hchild h
      obtain ⟨va, src⟩ := x
      rw [List.map_cons, List.nodup_cons] at hnodup
      have hr := hregistered hi
      have hp : s.page_at t₀ va = some src := hparent _ List.mem_cons_self
      have hnone : s.page_at t va = none := hchild _ List.mem_cons_self
      obtain ⟨pg, hpg, rfl⟩ := hr.page hp
      have hreg := registered_eq_some.mpr ⟨src, hp, hpg⟩
      rw [supplemental_page_table_copy] at h
      obtain ⟨⟨copied, s₁⟩, hcopy, h⟩ := Outcome.bind_eq_ok.mp h
      have hcase : Copied s t pg copied s₁ :=
        copy_page_cases hpg (hr.fresh hpg) hnone (hr.aligned hp) (href hi hreg) hcopy
      have hi₁ := hstep hi hreg hnone hcase
      have hg := Copied.grown hcase
      have hother : ∀ t', t' ≠ t → ∀ va', s₁.page_at t' va' = s.page_at t' va' :=
        fun t' ht' va' => hg.page_at t' va' fun hboth => ht' hboth.1
      cases copied with
      | false =>
          obtain rfl := (Outcome.ok_pair h).2
          exact ⟨hi₁, hother, hg.alive⟩
      | true =>
          have hrest : ∀ y ∈ entries, y.1 ≠ pg.va := by
            intro y hy heq
            have hmem : y.1 ∈ entries.map Sigma.fst := List.mem_map_of_mem hy
            exact hnodup.1 (heq ▸ hmem)
          obtain ⟨hi', hat, halive⟩ := ih hi₁ hnodup.2
            (fun y hy => (hother t₀ ht y.1).trans (hparent y (List.mem_cons_of_mem _ hy)))
            (fun y hy => (hg.page_at t y.1 fun hboth => hrest y hy hboth.2).trans
              (hchild y (List.mem_cons_of_mem _ hy))) h
          exact ⟨hi', fun t' ht' va' => (hat t' ht' va').trans (hother t' ht' va'),
            fun t' => (halive t').trans (hg.alive t')⟩

/-- **The copy of a table.** -/
theorem supplemental_page_table_copy_coherent {t₀ : ℕ} (ht : t₀ ≠ t)
    (entries : List (Sigma fun _ : ℕ => ℕ)) {done : Bool} (hc : s.Coherent)
    (hnodup : (entries.map Sigma.fst).Nodup) (hparent : ∀ x ∈ entries, s.page_at t₀ x.1 = some x.2)
    (hchild : ∀ x ∈ entries, s.page_at t x.1 = none)
    (h : supplemental_page_table_copy t entries s = .ok (done, s')) :
    s'.Coherent ∧ (∀ t', t' ≠ t → ∀ va, s'.page_at t' va = s.page_at t' va)
      ∧ ∀ t', (s'.proc t').alive = (s.proc t').alive :=
  supplemental_page_table_copy_rule ht (fun hc => hc.registered)
    (fun hc hreg hpf hf => hc.mapped.one_le ⟨_, hreg, hpf⟩ hf)
    (fun hc hreg hnone hcase => Copied.coherent hc hreg hnone hcase) entries hc hnodup
    hparent hchild h

/-- The tables of a new process are empty. -/
theorem new_process_tables (s : vm) :
    (∀ t' va, s.new_process.page_at t' va = if t' = s.next_proc then none else s.page_at t' va)
      ∧ (∀ t' va, s.new_process.pte_at t' va = if t' = s.next_proc then none else s.pte_at t' va)
      ∧ ∀ t', (s.new_process.proc t').alive
        = if t' = s.next_proc then true else (s.proc t').alive := by
  have hproc : ∀ t', s.new_process.proc t' = if t' = s.next_proc then process.empty
      else s.proc t' :=
    fun t' => Function.update_apply _ _ _ _
  refine ⟨fun t' va => ?_, fun t' va => ?_, fun t' => ?_⟩
  · unfold vm.page_at
    rw [hproc]
    split <;> rfl
  · unfold vm.pte_at
    rw [hproc]
    split <;> rfl
  · rw [hproc]
    split <;> rfl

theorem registered_new_process (s : vm) (t' va : ℕ) :
    s.new_process.registered t' va = if t' = s.next_proc then none else s.registered t' va := by
  unfold vm.registered
  rw [(new_process_tables s).1]
  split <;> rfl

theorem resident_new_process (s : vm) (t' va g : ℕ) :
    s.new_process.Resident t' va g ↔ t' ≠ s.next_proc ∧ s.Resident t' va g := by
  unfold Resident
  rw [registered_new_process]
  by_cases ht : t' = s.next_proc
  · simp [ht]
  · simp [ht]

theorem maps_new_process (s : vm) (t' va k : ℕ) :
    s.new_process.Maps t' va k ↔ t' ≠ s.next_proc ∧ s.Maps t' va k := by
  unfold Maps
  rw [(new_process_tables s).2.1]
  by_cases ht : t' = s.next_proc
  · simp [ht]
  · simp [ht]

/-- What is registered stays so. -/
theorem Registered.new_process (hr : s.Registered) : s.new_process.Registered := by
  obtain ⟨hat, -, halive⟩ := new_process_tables s
  have hold : ∀ {t' va p}, s.new_process.page_at t' va = some p → s.page_at t' va = some p := by
    intro t' va p hp
    rw [hat] at hp
    split at hp
    · cases hp
    · exact hp
  refine ⟨fun h => hr.page (hold h), fun h h' => hr.inj (hold h) (hold h'),
    fun h => hr.aligned (hold h), fun h => hr.fresh h, fun {t'} ht' => ?_⟩
  rw [halive] at ht'
  show t' < s.next_proc + 1
  split at ht'
  · omega
  · have := hr.alive ht'
    omega

/-- A process that does not exist yet gets empty tables. -/
theorem Coherent.new_process (hc : s.Coherent) : s.new_process.Coherent
    ∧ (∀ t' va, s.new_process.page_at t' va = if t' = s.next_proc then none else s.page_at t' va)
    ∧ ∀ t', (s.new_process.proc t').alive = if t' = s.next_proc then true
    else (s.proc t').alive := by
  obtain ⟨hat, -, halive⟩ := new_process_tables s
  have hregold : ∀ {t' va pg'}, s.new_process.registered t' va = some pg' →
      s.registered t' va = some pg' := by
    intro t' va pg' h
    rw [registered_new_process] at h
    split at h
    · cases h
    · exact h
  have hres : ∀ {t' va g}, s.new_process.Resident t' va g ↔ t' ≠ s.next_proc ∧ s.Resident t' va g :=
    fun {t' va g} => resident_new_process s t' va g
  have hmaps : ∀ {t' va k}, s.new_process.Maps t' va k ↔ t' ≠ s.next_proc ∧ s.Maps t' va k :=
    fun {t' va k} => maps_new_process s t' va k
  have hslot : ∀ {t' va i}, s.new_process.OnSlot t' va i → s.OnSlot t' va i := by
    rintro t' va i ⟨pg', hpg', hk⟩
    exact ⟨pg', hregold hpg', hk⟩
  refine ⟨⟨hc.registered.new_process, ⟨?_, ?_, ?_, ?_, ?_, ?_, ?_⟩, ⟨?_, ?_, ?_, ?_⟩⟩, hat, halive⟩
  · exact fun h => hc.mapped.fresh h
  · exact fun h h' => hc.mapped.kva_inj h h'
  · exact fun h => hc.mapped.used h
  · intro t' va g hr
    obtain ⟨ht, hr⟩ := hres.mp hr
    obtain ⟨fr', hf', hm⟩ := hc.mapped.resident hr
    exact ⟨fr', hf', hmaps.mpr ⟨ht, hm⟩⟩
  · intro t' va k hm
    obtain ⟨ht, hm⟩ := hmaps.mp hm
    obtain ⟨g, gr, hr, hg, hk⟩ := hc.mapped.maps hm
    exact ⟨g, gr, hres.mpr ⟨ht, hr⟩, hg, hk⟩
  · intro g gr hg
    exact (hc.mapped.counted hg).mono (fun x hx => (hres.mp hx).2) le_rfl
  · exact fun h h' => hc.mapped.same_va (hres.mp h).2 (hres.mp h').2
  · exact fun h => hc.swapped.slot (hslot h)
  · exact fun h h' => hc.swapped.inj (hslot h) (hslot h')
  · exact fun h hk => hc.swapped.home (hregold h) hk
  · exact fun h hk => hc.swapped.untouched (hregold h) hk

/-- **`fork`**, whether the copy succeeds or not. -/
theorem process_fork_coherent {parent : ℕ} {done : Bool} (hc : s.Coherent)
    (hparent : (s.proc parent).alive = true) (h : process_fork s parent = .ok (done, s')) :
    s'.Coherent := by
  have hne : parent ≠ s.next_proc := (hc.registered.alive hparent).ne
  obtain ⟨hc₀, hat, -⟩ := hc.new_process
  unfold process_fork at h
  obtain ⟨⟨copied, s₁⟩, hcopy, h⟩ := Outcome.bind_eq_ok.mp h
  have hc₁ : s₁.Coherent := by
    refine (supplemental_page_table_copy_coherent hne _ hc₀ (s.proc parent).spt.nodupKeys
      (fun x hx => ?_) (fun x hx => ?_) hcopy).1
    · rw [hat, if_neg hne]
      exact AList.mem_lookup_iff.mpr hx
    · rw [hat, if_pos rfl]
  cases copied with
  | true =>
      obtain rfl := (Outcome.ok_pair h).2
      exact hc₁
  | false =>
      obtain ⟨s₂, hexit, h⟩ := Outcome.bind_eq_ok.mp h
      obtain rfl := (Outcome.ok_pair h).2
      exact (process_cleanup_coherent hc₁ hexit).1

end vm

end Pintos
