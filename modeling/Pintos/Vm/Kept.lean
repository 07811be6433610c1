/-
What faults and evictions leave alone.

A fault may take any frame from any process, and no invariant of the memory map is assumed
here. Still a page keeps its address and its write permission, and stays registered where it is;
an entry becomes writable only for a page that may be written. `Kept` says this, and `PteOk` is
the invariant that follows from it: where the page table allows stores, the supplemental page
table does.
-/
import Pintos.Vm.Coherent

set_option autoImplicit false

namespace Pintos

/-- The members of a `struct page` that nothing changes. -/
def page.fixed (pg : page) : ℕ × Bool := (pg.va, pg.writable)

namespace vm

variable {s s' s'' : vm} {t va p f : ℕ} {pg : Pintos.page} {fr : Pintos.frame} {done : Bool}

/-- The page table lets the process store at the page. -/
def Writable (s : vm) (t va : ℕ) : Prop :=
  ∃ e, s.pte_at t va = some e ∧ e.present = true ∧ e.writable = true

/-- The supplemental page table has a page there that may be written. -/
def WritablePage (s : vm) (t va : ℕ) : Prop :=
  ∃ p pg, s.page_at t va = some p ∧ s.page p = some pg ∧ pg.writable = true

/-- **No store around the supplemental page table.** -/
def PteOk (s : vm) : Prop := ∀ t va, s.Writable t va → s.WritablePage t va

/-- Pages stay registered, at their address and with their permission. -/
structure Kept (s s' : vm) : Prop where
  page_at : ∀ t va, s'.page_at t va = s.page_at t va
  page : ∀ q, (s'.page q).map page.fixed = (s.page q).map page.fixed
  next_page : s'.next_page = s.next_page
  next_proc : s'.next_proc = s.next_proc
  alive : ∀ t, (s'.proc t).alive = (s.proc t).alive
  writable : ∀ t va, s'.Writable t va → s.Writable t va ∨ s.WritablePage t va

namespace Kept

theorem fixed (h : Kept s s') {q : ℕ} (hq : s.page q = some pg) :
    ∃ pg', s'.page q = some pg' ∧ pg'.va = pg.va ∧ pg'.writable = pg.writable := by
  have hpage := h.page q
  rw [hq, Option.map_some, Option.map_eq_some_iff] at hpage
  obtain ⟨pg', hpg', heq⟩ := hpage
  exact ⟨pg', hpg', congrArg Prod.fst heq, congrArg Prod.snd heq⟩

theorem fixed' (h : Kept s s') {q : ℕ} (hq : s'.page q = some pg) :
    ∃ pg', s.page q = some pg' ∧ pg'.va = pg.va ∧ pg'.writable = pg.writable := by
  have hpage := (h.page q).symm
  rw [hq, Option.map_some, Option.map_eq_some_iff] at hpage
  obtain ⟨pg', hpg', heq⟩ := hpage
  exact ⟨pg', hpg', congrArg Prod.fst heq, congrArg Prod.snd heq⟩

theorem writablePage_iff (h : Kept s s') : s'.WritablePage t va ↔ s.WritablePage t va := by
  constructor
  · rintro ⟨p, pg, hp, hpg, hw⟩
    obtain ⟨pg', hpg', -, hw'⟩ := h.fixed' hpg
    exact ⟨p, pg', (h.page_at t va).symm.trans hp, hpg', hw'.trans hw⟩
  · rintro ⟨p, pg, hp, hpg, hw⟩
    obtain ⟨pg', hpg', -, hw'⟩ := h.fixed hpg
    exact ⟨p, pg', (h.page_at t va).trans hp, hpg', hw'.trans hw⟩

theorem refl (s : vm) : Kept s s := ⟨fun _ _ => rfl, fun _ => rfl, rfl, rfl, fun _ => rfl,
    fun _ _ h => .inl h⟩

theorem trans (h : Kept s s') (h' : Kept s' s'') : Kept s s'' where
  page_at t va := (h'.page_at t va).trans (h.page_at t va)
  page q := (h'.page q).trans (h.page q)
  next_page := h'.next_page.trans h.next_page
  next_proc := h'.next_proc.trans h.next_proc
  alive t := (h'.alive t).trans (h.alive t)
  writable t va hw := by
    rcases h'.writable t va hw with hw | hw
    · exact h.writable t va hw
    · exact .inr (h.writablePage_iff.mp hw)

theorem pteOk (h : Kept s s') (hok : s.PteOk) : s'.PteOk := by
  intro t va hw
  apply h.writablePage_iff.mpr
  rcases h.writable t va hw with hw | hw
  · exact hok t va hw
  · exact hw

theorem registered (h : Kept s s') (hr : s.Registered) : s'.Registered := by
  apply hr.congr h.page_at _ h.next_page h.next_proc fun t ht => (h.alive t).symm.trans ht
  intro q
  have hva := congrArg (Option.map Prod.fst) (h.page q)
  rw [Option.map_map, Option.map_map] at hva
  exact hva

/-- Accessed bits, the clock hand and the list of frames. -/
theorem of_sameMap (h : SameMap s s') : Kept s s' where
  page_at := h.page_at
  page q := by rw [h.page]
  next_page := h.next_page
  next_proc := h.next_proc
  alive := h.alive
  writable t va := by
    rintro ⟨e', he', hpresent, hw⟩
    have hentry := h.pte_at t va
    rw [he', Option.map_some] at hentry
    obtain ⟨e, he, heq⟩ := Option.map_eq_some_iff.mp hentry.symm
    unfold entry at heq
    simp only [Prod.mk.injEq] at heq
    exact .inl ⟨e, he, heq.2.1.trans hpresent, heq.2.2.1.trans hw⟩

/-- Everything but pages, tables and page tables. -/
theorem of_rest (hproc : s'.proc = s.proc) (hprocs : s'.next_proc = s.next_proc)
    (hpage : s'.page = s.page) (hpages : s'.next_page = s.next_page) : Kept s s' := by
  refine ⟨fun t va => ?_, fun q => by rw [hpage], hpages, hprocs, fun t => by rw [hproc],
    fun t va hw => .inl ?_⟩
  · unfold vm.page_at
    rw [hproc]
  · unfold Writable vm.pte_at at hw ⊢
    rw [← hproc]
    exact hw

/-- A store into a page that keeps its address and permission. -/
theorem of_page {pg' : Pintos.page} (hproc : s'.proc = s.proc) (hprocs : s'.next_proc = s.next_proc)
    (hpg : s.page p = some pg) (hpage : s'.page = Function.update s.page p (some pg'))
    (hpages : s'.next_page = s.next_page) (hfixed : pg'.fixed = pg.fixed) : Kept s s' := by
  refine ⟨fun t va => ?_, fun q => ?_, hpages, hprocs, fun t => by rw [hproc],
    fun t va hw => .inl ?_⟩
  · unfold vm.page_at
    rw [hproc]
  · rw [hpage]
    by_cases hq : q = p
    · rw [hq, Function.update_self, hpg, Option.map_some, Option.map_some, hfixed]
    · rw [Function.update_of_ne hq]
  · unfold Writable vm.pte_at at hw ⊢
    rw [← hproc]
    exact hw

/-- Bits of an entry, but for those that permit an access. -/
theorem modify_pte (s : vm) (t va : ℕ) {g : pte → pte}
    (hpresent : ∀ e, (g e).present = true → e.present = true)
    (hwritable : ∀ e, (g e).writable = true → e.writable = true) :
    Kept s (s.modify_pte t va g) where
  page_at t' va' := s.page_at_modify_pte t va t' va' g
  page _ := rfl
  next_page := rfl
  next_proc := rfl
  alive t' := s.alive_modify_pte t va t' g
  writable t' va' := by
    rintro ⟨e', he', hp, hw⟩
    rw [pte_at_modify_pte] at he'
    split at he'
    · rename_i heq
      obtain ⟨e, he, rfl⟩ := Option.map_eq_some_iff.mp he'
      refine .inl ⟨e, ?_, hpresent e hp, hwritable e hw⟩
      rw [heq.1, heq.2]
      exact he
    · exact .inl ⟨e', he', hp, hw⟩

/-- A new entry, writable only for a page that may be written. -/
theorem set_pte {e : pte} (hw : e.writable = true → s.WritablePage t va) :
    Kept s (s.set_pte t va e) where
  page_at t' va' := s.page_at_set_pte t va t' va' e
  page _ := rfl
  next_page := rfl
  next_proc := rfl
  alive t' := s.alive_set_pte t va t' e
  writable t' va' := by
    rintro ⟨e', he', hp, hw'⟩
    rw [pte_at_set_pte] at he'
    split at he'
    · rename_i heq
      obtain rfl := Option.some.inj he'
      rw [heq.1, heq.2]
      exact .inr (hw hw')
    · exact .inl ⟨e', he', hp, hw'⟩

end Kept

/-! ## Frames -/

theorem kept_cleared (s : vm) (t va : ℕ) : Kept s (pml4_cleared s t va) :=
  .modify_pte s t va (fun _ h => by cases h) (fun _ h => h)

theorem kept_unlink (hpg : s.page p = some pg) (kd : page_kind) : Kept s (s.unlink p pg f fr kd) :=
  .of_page rfl rfl hpg rfl rfl rfl

theorem SwappedOut.kept (hpg : s.page p = some pg) (h : SwappedOut s t p pg f fr s') :
    Kept s s' := by
  cases h with
  | anon _ _ _ => exact .of_page rfl rfl hpg rfl rfl rfl
  | @file fp s₁ hk hw =>
      have hback : Kept s s₁ ∧ s₁.page = s.page := by
        cases hw with
        | clean _ => exact ⟨.refl s, rfl⟩
        | @dirty fs _ _ =>
            have hfiles : Kept s (s.set_files fs) := .of_rest rfl rfl rfl rfl
            exact ⟨hfiles.trans (.modify_pte _ t pg.va (fun _ h => h) (fun _ h => h)), rfl⟩
      exact hback.1.trans (kept_unlink (hback.2 ▸ hpg) _)

theorem vm_evict_frame_kept {v : ℕ} (h : vm_evict_frame s t = .ok (some v, s')) : Kept s s' := by
  obtain ⟨s₁, fr, p, pg, s₂, hvictim, -, -, -, hout, hmap⟩ := vm_evict_frame_cases h
  obtain ⟨pg', f, fr', hpg', -, -, hswapped⟩ := swap_out_cases hout
  have hscan : Kept s s₁ := .of_sameMap (vm_get_victim_sameMap hvictim)
  have hclear : Kept s₂ (pml4_cleared s₂ t pg.va) := kept_cleared s₂ t pg.va
  exact hscan.trans ((SwappedOut.kept hpg' hswapped).trans (hclear.trans (.of_sameMap hmap)))

theorem vm_get_frame_kept (h : vm_get_frame s t = .ok (f, s')) : Kept s s' := by
  obtain ⟨k, s₁, hkva, -, hmap⟩ := vm_get_frame_cases h
  have hnew : Kept s₁ s' := by
    have hframe : Kept s₁ (s₁.new_frame { kva := k, ref_cnt := 1, page := none }) :=
      .of_rest rfl rfl rfl rfl
    exact hframe.trans (.of_sameMap hmap)
  refine Kept.trans ?_ hnew
  rcases frame_kva_cases hkva with ⟨-, rfl⟩ | ⟨-, v, s₂, fr, hev, -, -, rfl⟩
  · exact .of_rest rfl rfl rfl rfl
  · have hfree : Kept s₂ (s₂.free_frame v) := .of_rest rfl rfl rfl rfl
    exact (vm_evict_frame_kept hev).trans hfree

/-! ## Faults -/

theorem SwappedIn.kept {kva : ℕ} (hpg : s.page p = some pg) (h : SwappedIn s p pg kva done s') :
    Kept s s' := by
  cases h with
  | uninit _ _ => exact .of_page rfl rfl hpg rfl rfl rfl
  | stay _ _ => exact .refl s
  | anon _ _ _ => exact .of_page rfl rfl hpg rfl rfl rfl
  | file _ _ => exact .of_rest rfl rfl rfl rfl

theorem kept_attach (hp : s.page_at t pg.va = some p) (hpg : s.page p = some pg) :
    Kept s (s.attach t p pg f fr) := by
  have hlinked : Kept s
      ((s.set_frame f { fr with page := some p }).set_page p { pg with frame := some f }) :=
    .of_page rfl rfl hpg rfl rfl rfl
  refine hlinked.trans (.set_pte fun hw => ?_)
  exact ⟨p, { pg with frame := some f }, hp, Function.update_self _ _ _, hw⟩

theorem present_set_pte (s : vm) (t va : ℕ) {e : pte} (he : e.present = true) :
    pml4_present (s.set_pte t va e) t va = true := by
  unfold pml4_present
  rw [pte_at_set_pte, if_pos ⟨rfl, rfl⟩]
  exact he

/-- Swapping in stores into the frame, the page and the swap area, but into no page table. -/
theorem SwappedIn.pte_at {kva : ℕ} (h : SwappedIn s p pg kva done s') (t va : ℕ) :
    s'.pte_at t va = s.pte_at t va := by
  cases h <;> rfl

/-- **A claim**, whatever is evicted for it. -/
theorem vm_do_claim_page_kept (hp : s.page_at t pg.va = some p) (hpg : s.page p = some pg)
    (h : vm_do_claim_page s t p = .ok (done, s')) :
    Kept s s' ∧ pml4_present s' t pg.va = true := by
  obtain ⟨f, s₁, fr, pg₁, hget, -, hpg₁, -, hin⟩ := vm_do_claim_page_cases h
  have hkept := vm_get_frame_kept hget
  have hva : pg₁.va = pg.va := by
    obtain ⟨pg', hpg', hva, -⟩ := hkept.fixed hpg
    rw [hpg₁] at hpg'
    obtain rfl := Option.some.inj hpg'
    exact hva
  have hp₁ : s₁.page_at t pg₁.va = some p := by
    rw [hva, hkept.page_at]
    exact hp
  refine ⟨(hkept.trans (kept_attach hp₁ hpg₁)).trans (SwappedIn.kept ?_ hin), ?_⟩
  · exact Function.update_self _ _ _
  · unfold pml4_present
    rw [SwappedIn.pte_at hin, ← hva]
    exact present_set_pte _ t pg₁.va rfl

/-- **A write to a protected page** that may be written. -/
theorem WriteProtected.kept (hp : s.page_at t pg.va = some p) (hpg : s.page p = some pg)
    (hw : pg.writable = true) (h : WriteProtected s t p s') :
    Kept s s' ∧ pml4_present s' t pg.va = true := by
  cases h with
  | @copy pg₁ pg' cf f cfr cfr' fr s₁ hpg₁ hpf hcf href hget hfr hpg' hcf' =>
      have hkept := vm_get_frame_kept hget
      obtain ⟨pg₂, hpg₂, hva, hw₂⟩ := hkept.fixed hpg
      obtain rfl := Option.some.inj (hpg'.symm.trans hpg₂)
      have hp₁ : s₁.page_at t pg'.va = some p := by
        rw [hva, hkept.page_at]
        exact hp
      refine ⟨hkept.trans ?_, hva ▸ present_set_pte _ t pg'.va rfl⟩
      have hcopied : Kept s₁ (((s₁.set_page p { pg' with frame := some f }).set_mem fr.kva
          (s₁.mem cfr'.kva)).set_frame cf { cfr' with ref_cnt := cfr'.ref_cnt - 1 }) :=
        .of_page rfl rfl hpg' rfl rfl rfl
      refine hcopied.trans (.set_pte fun _ => ?_)
      exact ⟨p, { pg' with frame := some f }, hp₁, Function.update_self _ _ _, hw₂.trans hw⟩
  | @own pg₁ cf cfr hpg₁ hpf hcf href =>
      obtain rfl := Option.some.inj (hpg.symm.trans hpg₁)
      refine ⟨?_, present_set_pte _ t pg.va rfl⟩
      have hframe : Kept s (s.set_frame cf { cfr with page := some p }) := .of_rest rfl rfl rfl rfl
      exact hframe.trans (.set_pte fun _ => ⟨p, pg, hp, hpg, hw⟩)

/-- A write fault is not handled for a page that must not be written. -/
theorem handled_writable {addr : ℕ} {write : Bool} (hp : s.page_at t (pg_round_down addr) = some p)
    (hpg : s.page p = some pg) (hwrite : write = true)
    (h : vm_try_handle_fault s t addr write = .ok (true, s')) : pg.writable = true := by
  unfold vm_try_handle_fault at h
  dsimp only [spt_find_page] at h
  rw [pg_round_down_idem, hp] at h
  obtain ⟨pg', hpg', h⟩ := Outcome.bind_eq_ok.mp h
  obtain rfl := Option.some.inj (hpg.symm.trans (vm.get_page_eq_ok.mp hpg'))
  by_contra hw
  rw [Bool.not_eq_true] at hw
  rw [hwrite, hw] at h
  cases h

/-- A read fault on a registered page claims it. -/
theorem read_fault_claims {addr : ℕ} (hp : s.page_at t (pg_round_down addr) = some p)
    (h : vm_try_handle_fault s t addr false = .ok (done, s')) :
    vm_do_claim_page s t p = .ok (done, s') := by
  unfold vm_try_handle_fault at h
  dsimp only [spt_find_page] at h
  rw [pg_round_down_idem, hp] at h
  obtain ⟨_, _, h⟩ := Outcome.bind_eq_ok.mp h
  exact h

/-- **A fault**: if it was not refused, the tables are as before, but for a page of the stack that
may be new, and the page is present. -/
theorem vm_try_handle_fault_kept (hr : s.Registered) {addr : ℕ} {write : Bool}
    (h : vm_try_handle_fault s t addr write = .ok (done, s')) :
    (done = false ∧ s' = s) ∨ (pml4_present s' t (pg_round_down addr) = true
      ∧ (((∃ p, s.page_at t (pg_round_down addr) = some p) ∧ Kept s s')
        ∨ (s.page_at t (pg_round_down addr) = none
          ∧ Kept (s.register t (stack_page (pg_round_down addr))) s'))) := by
  cases vm_try_handle_fault_cases h with
  | refused hdem => exact .inl ⟨rfl, rfl⟩
  | @grown _ done hnone hdem hclaim =>
      have hp : (s.register t (stack_page (pg_round_down addr))).page_at t
          (stack_page (pg_round_down addr)).va = some s.next_page := by
        rw [page_at_register, if_pos ⟨rfl, rfl⟩]
      obtain ⟨hkept, hpresent⟩ :=
        vm_do_claim_page_kept hp (Function.update_self _ _ _) hclaim
      exact .inr ⟨hpresent, .inr ⟨hnone, hkept⟩⟩
  | @write_protected p pg _ hp hpg hdem hwp =>
      obtain ⟨pg', hpg', hva⟩ := hr.page hp
      obtain rfl := Option.some.inj (hpg.symm.trans hpg')
      right
      cases write with
      | true =>
          have hw := handled_writable hp hpg rfl h
          rw [← hva] at hp ⊢
          obtain ⟨hkept, hpresent⟩ := WriteProtected.kept hp hpg hw hwp
          exact ⟨hpresent, .inl ⟨⟨p, hp⟩, hkept⟩⟩
      | false =>
          have hclaim := read_fault_claims hp h
          rw [← hva] at hp ⊢
          obtain ⟨hkept, hpresent⟩ := vm_do_claim_page_kept hp hpg hclaim
          exact ⟨hpresent, .inl ⟨⟨p, hp⟩, hkept⟩⟩
  | @claimed p pg _ _ hp hpg hres hdem hclaim =>
      obtain ⟨pg', hpg', hva⟩ := hr.page hp
      obtain rfl := Option.some.inj (hpg.symm.trans hpg')
      rw [← hva] at hp ⊢
      obtain ⟨hkept, hpresent⟩ := vm_do_claim_page_kept hp hpg hclaim
      exact .inr ⟨hpresent, .inl ⟨⟨p, hp⟩, hkept⟩⟩

theorem handled_kept (hr : s.Registered) {addr : ℕ} {write : Bool}
    (h : vm_try_handle_fault s t addr write = .ok (true, s')) :
    pml4_present s' t (pg_round_down addr) = true
      ∧ (((∃ p, s.page_at t (pg_round_down addr) = some p) ∧ Kept s s')
        ∨ (s.page_at t (pg_round_down addr) = none
          ∧ Kept (s.register t (stack_page (pg_round_down addr))) s')) := by
  rcases vm_try_handle_fault_kept hr h with ⟨hfalse, -⟩ | hkept
  · cases hfalse
  · exact hkept

/-! ## Faults one after the other -/

/-- The tables have all they had, and pages of the stack that may be new. -/
structure Extended (s s' : vm) : Prop where
  page_at : ∀ {t va p}, s.page_at t va = some p → s'.page_at t va = some p
  page : ∀ {q pg}, s.page q = some pg → ∃ pg', s'.page q = some pg' ∧ pg'.fixed = pg.fixed
  new : ∀ {t va}, s.page_at t va = none → s'.page_at t va = none ∨ s'.WritablePage t va
  writable : ∀ t va, s'.Writable t va → s.Writable t va ∨ s'.WritablePage t va
  registered : s.Registered → s'.Registered

namespace Extended

theorem refl (s : vm) : Extended s s :=
  ⟨fun h => h, fun h => ⟨_, h, rfl⟩, .inl, fun _ _ => .inl, fun h => h⟩

theorem writablePage (h : Extended s s') (hw : s.WritablePage t va) : s'.WritablePage t va := by
  obtain ⟨p, pg, hp, hpg, hw⟩ := hw
  obtain ⟨pg', hpg', hfixed⟩ := h.page hpg
  exact ⟨p, pg', h.page_at hp, hpg', (congrArg Prod.snd hfixed).trans hw⟩

theorem trans (h : Extended s s') (h' : Extended s' s'') : Extended s s'' where
  page_at hp := h'.page_at (h.page_at hp)
  page hq := by
    obtain ⟨pg', hpg', hfixed⟩ := h.page hq
    obtain ⟨pg'', hpg'', hfixed'⟩ := h'.page hpg'
    exact ⟨pg'', hpg'', hfixed'.trans hfixed⟩
  new hnone := by
    rcases h.new hnone with hnone' | hw
    · exact h'.new hnone'
    · exact .inr (h'.writablePage hw)
  writable t va hw := by
    rcases h'.writable t va hw with hw' | hw'
    · rcases h.writable t va hw' with hw'' | hw''
      · exact .inl hw''
      · exact .inr (h'.writablePage hw'')
    · exact .inr hw'
  registered hr := h'.registered (h.registered hr)

/-- The invariant lasts. -/
theorem pteOk (h : Extended s s') (hok : s.PteOk) : s'.PteOk := by
  intro t va hw
  rcases h.writable t va hw with hw' | hw'
  · exact h.writablePage (hok t va hw')
  · exact hw'

theorem of_kept (h : Kept s s') : Extended s s' where
  page_at hp := (h.page_at _ _).trans hp
  page {q pg} hq := by
    have hpage := h.page q
    rw [hq, Option.map_some, Option.map_eq_some_iff] at hpage
    exact hpage
  new hnone := .inl ((h.page_at _ _).trans hnone)
  writable t va hw := by
    rcases h.writable t va hw with hw' | hw'
    · exact .inl hw'
    · exact .inr (h.writablePage_iff.mpr hw')
  registered := h.registered

theorem of_register (hr : s.Registered) (hround : pg_round_down pg.va = pg.va)
    (hw : pg.writable = true) (hnone : s.page_at t pg.va = none) :
    Extended s (s.register t pg) where
  page_at {t' va' p} hp := by
    rw [page_at_register, if_neg]
    · exact hp
    · rintro ⟨rfl, rfl⟩
      rw [hnone] at hp
      cases hp
  page {q pg'} hq := by
    refine ⟨pg', ?_, rfl⟩
    rw [← hq]
    exact Function.update_of_ne (hr.fresh hq).ne _ _
  new {t' va'} hnone' := by
    by_cases heq : t' = t ∧ va' = pg.va
    · right
      refine ⟨s.next_page, pg, ?_, Function.update_self _ _ _, hw⟩
      rw [page_at_register, if_pos heq]
    · left
      rw [page_at_register, if_neg heq]
      exact hnone'
  writable t' va' := by
    rintro ⟨e, he, hrest⟩
    unfold vm.register at he
    rw [pte_at_set_spt] at he
    exact .inl ⟨e, he, hrest⟩
  registered hr := hr.register t pg hround

end Extended

theorem vm_try_handle_fault_extended (hr : s.Registered) {addr : ℕ} {write : Bool}
    (h : vm_try_handle_fault s t addr write = .ok (done, s')) : Extended s s' := by
  rcases vm_try_handle_fault_kept hr h with ⟨-, rfl⟩ | ⟨-, ⟨-, hkept⟩ | ⟨hnone, hkept⟩⟩
  · exact .refl _
  · exact .of_kept hkept
  · exact (Extended.of_register hr (pg_round_down_idem addr) rfl hnone).trans (.of_kept hkept)

/-- A write fault that was handled is on a page that may be written. -/
theorem handled_write (hr : s.Registered) {addr : ℕ}
    (h : vm_try_handle_fault s t addr true = .ok (true, s')) :
    s'.WritablePage t (pg_round_down addr) := by
  have hext := vm_try_handle_fault_extended hr h
  cases hp : s.page_at t (pg_round_down addr) with
  | none =>
      rcases handled_kept hr h with ⟨-, ⟨⟨p, hp'⟩, -⟩ | ⟨-, hkept⟩⟩
      · rw [hp] at hp'
        cases hp'
      · refine hkept.writablePage_iff.mpr ⟨s.next_page,
          stack_page (pg_round_down addr), ?_, ?_, rfl⟩
        · rw [page_at_register, if_pos ⟨rfl, rfl⟩]
        · exact Function.update_self _ _ _
  | some p =>
      obtain ⟨pg, hpg, -⟩ := hr.page hp
      exact hext.writablePage ⟨p, pg, hp, hpg, handled_writable hp hpg rfl h⟩

end vm

end Pintos
