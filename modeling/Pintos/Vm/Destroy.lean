/-
Unmapping and exit keep the memory map coherent.

Unlike a page fault these need no condition. A page that is destroyed takes its
entry and one reference with it; a frame is returned to the pool only when no
reference, and so no page, is left.
-/
import Pintos.Vm.Eviction

set_option autoImplicit false

namespace Pintos

namespace vm

variable {s s' : vm} {t va p : ℕ} {pg : Pintos.page}

/-! ## Destroying a page -/

/-- What `destroy` did. -/
inductive Destroyed (s : vm) (t : ℕ) (pg : Pintos.page) : vm → Prop
  | uninit {u : uninit_page} (hk : pg.kind = .uninit u) : Destroyed s t pg s
  | resident {i : ℤ} (hk : pg.kind = .anon i) (hi : i < 0) :
      Destroyed s t pg (pml4_cleared s t pg.va)
  | swapped {i : ℤ} (hk : pg.kind = .anon i) (hi : 0 ≤ i) :
      Destroyed s t pg ((pml4_cleared s t pg.va).set_swap s.swap_disk i.toNat false)
  | file {fp : file_page} {fs : filesys} {s₁ s₂ : vm} (hk : pg.kind = .file fp)
      (hallow : file_allow_write s.files fp.file = .ok fs)
      (hw : write_back_dirty (s.set_files fs) t pg fp = .ok (true, s₁))
      (hrel : release_frame s₁ pg.frame = .ok s₂) : Destroyed s t pg (pml4_cleared s₂ t pg.va)

theorem destroy_cases (h : destroy s t pg = .ok s') : Destroyed s t pg s' := by
  unfold destroy at h
  cases hk : pg.kind with
  | uninit u =>
      rw [hk] at h
      cases h
      exact .uninit hk
  | anon i =>
      rw [hk] at h
      dsimp only at h
      unfold anon_destroy at h
      obtain ⟨s₁, hs₁, h⟩ := Outcome.bind_eq_ok.mp h
      obtain rfl := pml4_clear_page_eq_ok hs₁
      by_cases hi : i < 0
      · rw [if_pos hi] at h
        cases h
        exact .resident hk hi
      · rw [if_neg hi] at h
        cases h
        exact .swapped hk (not_lt.mp hi)
  | file fp =>
      rw [hk] at h
      dsimp only at h
      unfold file_backed_destroy at h
      obtain ⟨fs, hfs, h⟩ := Outcome.bind_eq_ok.mp h
      obtain ⟨⟨done, s₁⟩, hs₁, h⟩ := Outcome.bind_eq_ok.mp h
      dsimp only at h
      obtain ⟨_, hdone, h⟩ := Outcome.bind_eq_ok.mp h
      obtain ⟨s₂, hs₂, h⟩ := Outcome.bind_eq_ok.mp h
      obtain rfl := pml4_clear_page_eq_ok h
      have hdone := Outcome.assert_eq_ok.mp hdone
      subst hdone
      exact .file hk hfs hs₁ hs₂

theorem write_back_dirty_sameTables {fp : file_page} {done : Bool}
    (h : write_back_dirty s t pg fp = .ok (done, s')) :
    SameTables s s' ∧ s'.swap_table = s.swap_table := by
  unfold write_back_dirty at h
  by_cases hd : pml4_is_dirty s t pg.va
  · rw [if_pos hd] at h
    unfold write_back at h
    obtain ⟨⟨f, fr⟩, -, h⟩ := Outcome.bind_eq_ok.mp h
    obtain ⟨⟨n, fs⟩, -, h⟩ := Outcome.bind_eq_ok.mp h
    dsimp only at h
    by_cases hn : n = i32 fp.read_byte
    · rw [if_neg (fun hne => hne hn)] at h
      rw [← (Outcome.ok_pair h).2]
      refine ⟨(SameTables.set_files s fs).trans ?_, rfl⟩
      exact .modify_pte _ t pg.va fun e => ⟨rfl, rfl⟩
    · rw [if_pos hn] at h
      rw [← (Outcome.ok_pair h).2]
      exact ⟨.set_files s fs, rfl⟩
  · rw [if_neg hd] at h
    cases h
    exact ⟨.refl s, rfl⟩

/-- What `release_frame` did: nothing, or the frame is gone. -/
theorem release_frame_cases {f : Option ℕ} (h : release_frame s f = .ok s') :
    s' = s ∨ ∃ g fr, f = some g ∧ s.frame g = some fr ∧ fr.ref_cnt < 1
      ∧ s' = { s with used := Function.update s.used fr.kva false
                      mem := Function.update s.mem fr.kva fun _ => 0xcc
                      frame := Function.update s.frame g none } := by
  unfold release_frame at h
  cases f with
  | none =>
      cases h
      exact .inl rfl
  | some f =>
      obtain ⟨⟨g, fr⟩, hg, h⟩ := Outcome.bind_eq_ok.mp h
      obtain ⟨hfg, hfr⟩ := get_frame_eq_ok.mp hg
      obtain rfl := Option.some.inj hfg
      dsimp only at hfr h
      by_cases href : fr.ref_cnt < 1
      · rw [if_pos href] at h
        obtain ⟨s₁, hs₁, h⟩ := Outcome.bind_eq_ok.mp h
        cases h
        unfold palloc_free_page at hs₁
        obtain ⟨-, -, hs₁⟩ := Outcome.bind_eq_ok.mp hs₁
        cases hs₁
        exact .inr ⟨f, fr, rfl, hfr, href, rfl⟩
      · rw [if_neg href] at h
        cases h
        exact .inl rfl

/-- The frames after one reference to `f` was dropped, and `f` freed if it was the last. -/
structure RefDropped (s s' : vm) (f : Option ℕ) : Prop where
  old : ∀ {g : ℕ} {gr : Pintos.frame}, s'.frame g = some gr → ∃ gr', s.frame g = some gr'
    ∧ gr.kva = gr'.kva ∧ gr.ref_cnt = gr'.ref_cnt - (if f = some g then 1 else 0)
  kept : ∀ {g : ℕ} {gr : Pintos.frame}, s.frame g = some gr →
    (f = some g → 1 ≤ gr.ref_cnt - 1) → ∃ gr', s'.frame g = some gr' ∧ gr'.kva = gr.kva
  used : ∀ {g : ℕ} {gr : Pintos.frame}, s'.frame g = some gr →
    s.used gr.kva = true → (∀ {h hr}, s.frame h = some hr → hr.kva = gr.kva → h = g) →
      s'.used gr.kva = true

theorem RefDropped.congr {s₁ : vm} {f : Option ℕ} (h : RefDropped s s₁ f)
    (hframe : s'.frame = s₁.frame) (hused : s'.used = s₁.used) : RefDropped s s' f := by
  refine ⟨fun {g gr} hg => ?_, fun {g gr} hg hk => ?_, fun {g gr} hg hu hin => ?_⟩
  · rw [hframe] at hg
    exact h.old hg
  · rw [hframe]
    exact h.kept hg hk
  · rw [hframe] at hg
    rw [hused]
    exact h.used hg hu hin

/-- The tables of pages without one entry and its page. -/
theorem Registered.remove (h : s.Registered) (hp : s.page_at t va = some p)
    (hat : ∀ t' va', s'.page_at t' va' = if t' = t ∧ va' = va then none else s.page_at t' va')
    (hpage : s'.page = Function.update s.page p none) (hnp : s'.next_page = s.next_page)
    (hproc : s'.next_proc = s.next_proc)
    (halive : ∀ t', (s'.proc t').alive = (s.proc t').alive) : s'.Registered := by
  have hold : ∀ {t' va' q}, s'.page_at t' va' = some q →
      ¬ (t' = t ∧ va' = va) ∧ s.page_at t' va' = some q := by
    intro t' va' q hq
    rw [hat] at hq
    by_cases heq : t' = t ∧ va' = va
    · rw [if_pos heq] at hq
      cases hq
    · rw [if_neg heq] at hq
      exact ⟨heq, hq⟩
  refine ⟨fun hq => ?_, fun hq hq' => h.inj (hold hq).2 (hold hq').2,
    fun hq => h.aligned (hold hq).2, fun {q qg} hq => ?_, fun {t'} ht' => ?_⟩
  · obtain ⟨hne, hq⟩ := hold hq
    rw [hpage, Function.update_of_ne]
    · exact h.page hq
    · rintro rfl
      exact hne (h.inj hp hq)
  · rw [hnp]
    rw [hpage] at hq
    by_cases heq : q = p
    · subst heq
      rw [Function.update_self] at hq
      cases hq
    · rw [Function.update_of_ne heq] at hq
      exact h.fresh hq
  · rw [hproc]
    rw [halive] at ht'
    exact h.alive ht'

/-- A page is taken out of the table of `t`, its entry cleared, one reference dropped. -/
theorem Coherent.remove (hc : s.Coherent) (hp : s.page_at t va = some p)
    (hpg : s.page p = some pg)
    (hat : ∀ t' va', s'.page_at t' va' = if t' = t ∧ va' = va then none else s.page_at t' va')
    (hpage : s'.page = Function.update s.page p none)
    (hmaps : ∀ t' va' k, s'.Maps t' va' k ↔ ¬ (t' = t ∧ va' = va) ∧ s.Maps t' va' k)
    (hdrop : RefDropped s s' pg.frame) (hnf : s'.next_frame = s.next_frame)
    (hnp : s'.next_page = s.next_page) (hproc : s'.next_proc = s.next_proc)
    (halive : ∀ t', (s'.proc t').alive = (s.proc t').alive)
    (htable : ∀ i, s.swap_table i = true → s'.swap_table i = true ∨ s.OnSlot t va i) :
    s'.Coherent := by
  have hself : s'.registered t va = none := by
    unfold vm.registered
    rw [hat, if_pos ⟨rfl, rfl⟩]
    rfl
  have hother : ∀ t' va', ¬ (t' = t ∧ va' = va) → s'.registered t' va' = s.registered t' va' := by
    intro t' va' hne
    have hat' := hat t' va'
    rw [if_neg hne] at hat'
    apply registered_congr hat'
    intro q hq
    rw [hpage, Function.update_of_ne]
    rintro rfl
    exact hne (hc.registered.inj hp hq)
  have hreg : ∀ {t' va' qg}, s'.registered t' va' = some qg →
      ¬ (t' = t ∧ va' = va) ∧ s.registered t' va' = some qg := by
    intro t' va' qg hq
    by_cases heq : t' = t ∧ va' = va
    · obtain ⟨rfl, rfl⟩ := heq
      rw [hself] at hq
      cases hq
    · rw [hother t' va' heq] at hq
      exact ⟨heq, hq⟩
  have hres : ∀ {t' va' g}, s'.Resident t' va' g → ¬ (t' = t ∧ va' = va) ∧ s.Resident t' va' g := by
    rintro t' va' g ⟨qg, hq, hg⟩
    exact ⟨(hreg hq).1, qg, (hreg hq).2, hg⟩
  have hcur : ∀ {g}, pg.frame = some g → s.Resident t va g := fun {g} hg =>
    ⟨pg, registered_eq_some.mpr ⟨p, hp, hpg⟩, hg⟩
  -- a frame that somebody else uses has a reference left
  have hkeep : ∀ {t' va' g gr}, ¬ (t' = t ∧ va' = va) → s.Resident t' va' g →
      s.frame g = some gr → ∃ gr', s'.frame g = some gr' ∧ gr'.kva = gr.kva := by
    intro t' va' g gr hne hr hg
    apply hdrop.kept hg
    intro hpf
    have htwo := (hc.mapped.counted hg).two_le (a := (t', va')) (b := (t, va)) hr (hcur hpf)
      (fun heq => hne ⟨congrArg Prod.fst heq, congrArg Prod.snd heq⟩)
    omega
  refine ⟨hc.registered.remove hp hat hpage hnp hproc halive, ⟨?_, ?_, ?_, ?_, ?_, ?_, ?_⟩,
    ⟨?_, ?_, ?_, ?_⟩⟩
  · intro g gr hg
    obtain ⟨gr', hg', -⟩ := hdrop.old hg
    rw [hnf]
    exact hc.mapped.fresh hg'
  · intro g h gr hr hg hh hk
    obtain ⟨gr', hg', hkg, -⟩ := hdrop.old hg
    obtain ⟨hr', hh', hkh, -⟩ := hdrop.old hh
    apply hc.mapped.kva_inj hg' hh'
    rw [← hkg, ← hkh, hk]
  · intro g gr hg
    obtain ⟨gr', hg', hkg, -⟩ := hdrop.old hg
    apply hdrop.used hg
    · rw [hkg]
      exact hc.mapped.used hg'
    · intro h hr hh hk
      apply hc.mapped.kva_inj hg' hh
      rw [hk, hkg]
  · intro t' va' g hr
    obtain ⟨hne, hr⟩ := hres hr
    obtain ⟨gr, hg, hmap⟩ := hc.mapped.resident hr
    obtain ⟨gr', hg', hk⟩ := hkeep hne hr hg
    refine ⟨gr', hg', ?_⟩
    rw [hk, hmaps]
    exact ⟨hne, hmap⟩
  · intro t' va' k hk
    obtain ⟨hne, hk⟩ := (hmaps t' va' k).mp hk
    obtain ⟨g, gr, hr, hg, rfl⟩ := hc.mapped.maps hk
    obtain ⟨gr', hg', hk'⟩ := hkeep hne hr hg
    obtain ⟨qg, hq, hqf⟩ := hr
    refine ⟨g, gr', ⟨qg, ?_, hqf⟩, hg', hk'⟩
    rw [hother t' va' hne]
    exact hq
  · intro g gr hg
    obtain ⟨gr', hg', -, href⟩ := hdrop.old hg
    rw [href]
    by_cases hpf : pg.frame = some g
    · rw [if_pos hpf]
      apply (hc.mapped.counted hg').remove (a := (t, va)) (hcur hpf)
      intro x hx
      obtain ⟨hne, hr⟩ := hres hx
      refine ⟨hr, ?_⟩
      rintro rfl
      exact hne ⟨rfl, rfl⟩
    · rw [if_neg hpf, sub_zero]
      exact (hc.mapped.counted hg').mono (fun x hx => (hres hx).2) le_rfl
  · intro t₁ va₁ t₂ va₂ g hr₁ hr₂
    exact hc.mapped.same_va (hres hr₁).2 (hres hr₂).2
  · rintro t' va' i ⟨qg, hq, hk⟩
    have hon : s.OnSlot t' va' i := ⟨qg, (hreg hq).2, hk⟩
    refine (htable i (hc.swapped.slot hon)).resolve_right fun hon' => (hreg hq).1 ?_
    exact hc.swapped.inj hon' hon
  · rintro t₁ va₁ t₂ va₂ i ⟨qg, hq, hk⟩ ⟨qg', hq', hk'⟩
    exact hc.swapped.inj ⟨qg, (hreg hq).2, hk⟩ ⟨qg', (hreg hq').2, hk'⟩
  · intro t' va' qg i hq hk
    exact hc.swapped.home (hreg hq).2 hk
  · intro t' va' qg u hq hk
    exact hc.swapped.untouched (hreg hq).2 hk

/-- The entry of `(t, va)` is out of the supplemental page table; the page-table
entry may be there still. -/
structure Erased (s s' : vm) (t va : ℕ) : Prop where
  page_at : ∀ t' va', s'.page_at t' va' = if t' = t ∧ va' = va then none else s.page_at t' va'
  maps : ∀ t' va' k, ¬ (t' = t ∧ va' = va) → (s'.Maps t' va' k ↔ s.Maps t' va' k)
  maps_self : ∀ k, s'.Maps t va k → s.Maps t va k
  alive : ∀ t', (s'.proc t').alive = (s.proc t').alive
  next_proc : s'.next_proc = s.next_proc
  page : s'.page = s.page
  next_page : s'.next_page = s.next_page
  next_frame : s'.next_frame = s.next_frame

/-- `hash_delete`, as the loop of exit does it. -/
theorem erased_spt (s : vm) (t va : ℕ) :
    Erased s (s.set_spt t ((s.proc t).spt.erase va)) t va where
  page_at t' va' := by
    rw [page_at_set_spt]
    by_cases ht : t' = t
    · subst ht
      by_cases hva : va' = va
      · subst hva
        simp [AList.lookup_erase]
      · simp [hva, AList.lookup_erase_ne hva, vm.page_at]
    · simp [ht]
  maps t' va' k _ := by
    unfold Maps
    rw [pte_at_set_spt]
  maps_self k := by
    unfold Maps
    rw [pte_at_set_spt]
    exact id
  alive t' := s.alive_set_spt t t' _
  next_proc := rfl
  page := rfl
  next_page := rfl
  next_frame := rfl

/-- `hash_delete` and `pml4_clear_page`, as `spt_remove_page` does it. -/
theorem erased_cleared (s : vm) (t va : ℕ) :
    Erased s (pml4_cleared (s.set_spt t ((s.proc t).spt.erase va)) t va) t va := by
  have h := erased_spt s t va
  refine ⟨fun t' va' => ?_, fun t' va' k hne => ?_, fun k hk => ?_, fun t' => ?_, rfl, rfl, rfl,
    rfl⟩
  · unfold pml4_cleared
    rw [page_at_modify_pte]
    exact h.page_at t' va'
  · rw [maps_cleared, h.maps t' va' k hne]
    exact and_iff_right hne
  · exact h.maps_self k ((maps_cleared _ _ _ _ _ _).mp hk).2
  · unfold pml4_cleared
    rw [alive_modify_pte]
    exact h.alive t'

/-- The states agree about pages and entries; frames may differ. -/
structure SamePages (s s' : vm) : Prop where
  page_at : ∀ t va, s'.page_at t va = s.page_at t va
  maps : ∀ t va k, s'.Maps t va k ↔ s.Maps t va k
  alive : ∀ t, (s'.proc t).alive = (s.proc t).alive
  next_proc : s'.next_proc = s.next_proc
  page : s'.page = s.page
  next_page : s'.next_page = s.next_page
  next_frame : s'.next_frame = s.next_frame

theorem SameTables.samePages (h : SameTables s s') : SamePages s s' :=
  ⟨h.page_at, h.maps, h.alive, h.next_proc, h.page, h.next_page, h.next_frame⟩

theorem SamePages.trans {s'' : vm} (h : SamePages s s') (h' : SamePages s' s'') :
    SamePages s s'' where
  page_at t va := (h'.page_at t va).trans (h.page_at t va)
  maps t va k := (h'.maps t va k).trans (h.maps t va k)
  alive t := (h'.alive t).trans (h.alive t)
  next_proc := h'.next_proc.trans h.next_proc
  page := h'.page.trans h.page
  next_page := h'.next_page.trans h.next_page
  next_frame := h'.next_frame.trans h.next_frame

theorem drop_ref_cases {f : Option ℕ} (h : drop_ref s f = .ok s') :
    (f = none ∧ s' = s) ∨ ∃ g fr, f = some g ∧ s.frame g = some fr
      ∧ s' = s.set_frame g { fr with ref_cnt := fr.ref_cnt - 1 } := by
  unfold drop_ref at h
  cases f with
  | none =>
      cases h
      exact .inl ⟨rfl, rfl⟩
  | some f =>
      obtain ⟨⟨g, fr⟩, hg, h⟩ := Outcome.bind_eq_ok.mp h
      obtain ⟨hfg, hfr⟩ := get_frame_eq_ok.mp hg
      obtain rfl := Option.some.inj hfg
      cases h
      exact .inr ⟨f, fr, rfl, hfr, rfl⟩

theorem drop_ref_refDropped {f : Option ℕ} (h : drop_ref s f = .ok s') : RefDropped s s' f := by
  rcases drop_ref_cases h with ⟨rfl, rfl⟩ | ⟨g, fr, rfl, hfr, rfl⟩
  · exact ⟨fun {g gr} hg => ⟨gr, hg, rfl, by simp⟩, fun {g gr} hg _ => ⟨gr, hg, rfl⟩,
      fun {g gr} _ hu _ => hu⟩
  · refine ⟨fun {h hr} hh => ?_, fun {h hr} hh _ => ?_, fun {h hr} _ hu _ => hu⟩
    · rw [set_frame_frame] at hh
      by_cases heq : h = g
      · subst heq
        rw [Function.update_self] at hh
        obtain rfl := Option.some.inj hh
        exact ⟨fr, hfr, rfl, by simp⟩
      · rw [Function.update_of_ne heq] at hh
        refine ⟨hr, hh, rfl, ?_⟩
        rw [if_neg (fun hgh => heq (Option.some.inj hgh).symm), sub_zero]
    · rw [set_frame_frame]
      by_cases heq : h = g
      · subst heq
        rw [Function.update_self]
        rw [hfr] at hh
        obtain rfl := Option.some.inj hh
        exact ⟨_, rfl, rfl⟩
      · rw [Function.update_of_ne heq]
        exact ⟨hr, hh, rfl⟩

theorem drop_ref_samePages {f : Option ℕ} (h : drop_ref s f = .ok s') :
    SamePages s s' ∧ s'.swap_table = s.swap_table := by
  rcases drop_ref_cases h with ⟨-, rfl⟩ | ⟨g, fr, -, -, rfl⟩
  · exact ⟨(SameTables.refl s').samePages, rfl⟩
  · refine ⟨?_, rfl⟩
    constructor <;> intros <;> rfl

/-- Freeing the frame is part of dropping the last reference. -/
theorem RefDropped.release {f : Option ℕ} {s₁ : vm} (hd : RefDropped s s₁ f)
    (h : release_frame s₁ f = .ok s') :
    RefDropped s s' f ∧ SamePages s₁ s' ∧ s'.swap_table = s₁.swap_table := by
  rcases release_frame_cases h with rfl | ⟨g, fr, rfl, hg, href, rfl⟩
  · exact ⟨hd, (SameTables.refl s').samePages, rfl⟩
  · have hold : ∀ {h hr}, Function.update s₁.frame g none h = some hr →
        h ≠ g ∧ s₁.frame h = some hr := by
      intro h hr hh
      by_cases heq : h = g
      · subst heq
        rw [Function.update_self] at hh
        cases hh
      · rw [Function.update_of_ne heq] at hh
        exact ⟨heq, hh⟩
    obtain ⟨gr, hgr, hkg, hrefg⟩ := hd.old hg
    refine ⟨⟨fun {h hr} hh => hd.old (hold hh).2, fun {h hr} hh hk => ?_,
      fun {h hr} hh hu hin => ?_⟩, ?_, rfl⟩
    · obtain ⟨hr', hh', hkva⟩ := hd.kept hh hk
      refine ⟨hr', ?_, hkva⟩
      show Function.update s₁.frame g none h = some hr'
      rw [Function.update_of_ne]
      · exact hh'
      · rintro rfl
        rw [hgr] at hh
        obtain rfl := Option.some.inj hh
        have := hk rfl
        rw [if_pos rfl] at hrefg
        omega
    · obtain ⟨hne, hh⟩ := hold hh
      show Function.update s₁.used fr.kva false hr.kva = true
      rw [Function.update_of_ne]
      · exact hd.used hh hu hin
      · intro hkva
        apply hne
        exact (hin hgr (by rw [← hkg, ← hkva])).symm
    · constructor <;> intros <;> rfl

/-- **`vm_dealloc_page`** of a page that has just been taken out of its table. -/
theorem vm_dealloc_page_coherent {s₁ : vm} (hc : s.Coherent) (hp : s.page_at t va = some p)
    (he : Erased s s₁ t va) (hframe : s₁.frame = s.frame) (hused : s₁.used = s.used)
    (htab : s₁.swap_table = s.swap_table) (h : vm_dealloc_page s₁ t p = .ok s') :
    s'.Coherent := by
  unfold vm_dealloc_page at h
  obtain ⟨pg, hpg, h⟩ := Outcome.bind_eq_ok.mp h
  obtain ⟨s₂, hdrop, h⟩ := Outcome.bind_eq_ok.mp h
  obtain ⟨s₃, hdes, h⟩ := Outcome.bind_eq_ok.mp h
  obtain rfl := Outcome.ok.inj h
  have hpg : s.page p = some pg := by
    rw [← he.page]
    exact get_page_eq_ok.mp hpg
  have hreg := registered_eq_some.mpr ⟨p, hp, hpg⟩
  have hva : pg.va = va := hc.registered.va hreg
  subst hva
  obtain ⟨hsame₂, htab₂⟩ := drop_ref_samePages hdrop
  have hdrop₂ : RefDropped s s₂ pg.frame := by
    have hd := drop_ref_refDropped hdrop
    refine ⟨fun {g gr} hg => ?_, fun {g gr} hg hk => ?_, fun {g gr} hg hu hin => ?_⟩
    · rw [← hframe]
      exact hd.old hg
    · rw [← hframe] at hg
      exact hd.kept hg hk
    · rw [← hframe] at hin
      rw [← hused] at hu
      exact hd.used hg hu hin
  -- whatever kind the page is, what is left to do is the same
  have finish : ∀ s₄ s₅ : vm, SamePages s₂ s₄ → RefDropped s s₅ pg.frame →
      (∀ t' va', s₅.page_at t' va' = s₄.page_at t' va') → s₅.page = s₄.page →
      (∀ t' va' k, s₅.Maps t' va' k ↔ ¬ (t' = t ∧ va' = pg.va) ∧ s₄.Maps t' va' k) →
      s₅.next_frame = s₄.next_frame → s₅.next_page = s₄.next_page →
      s₅.next_proc = s₄.next_proc → (∀ t', (s₅.proc t').alive = (s₄.proc t').alive) →
      (∀ i, s.swap_table i = true → s₅.swap_table i = true ∨ s.OnSlot t pg.va i) →
      (s₅.free_page p).Coherent := by
    intro s₄ s₅ hs₄ hd hat hpage hmaps hnf hnp hproc halive htable
    refine hc.remove hp hpg (fun t' va' => ?_) ?_ (fun t' va' k => ?_)
      (hd.congr rfl rfl) ?_ ?_ ?_ (fun t' => ?_) htable
    · rw [← he.page_at, ← hsame₂.page_at, ← hs₄.page_at]
      exact hat t' va'
    · rw [← he.page, ← hsame₂.page, ← hs₄.page, ← hpage]
      rfl
    · have : (s₅.free_page p).Maps t' va' k ↔ s₅.Maps t' va' k := Iff.rfl
      rw [this, hmaps, hs₄.maps, hsame₂.maps]
      constructor
      · rintro ⟨hne, hk⟩
        exact ⟨hne, (he.maps t' va' k hne).mp hk⟩
      · rintro ⟨hne, hk⟩
        exact ⟨hne, (he.maps t' va' k hne).mpr hk⟩
    · rw [← he.next_frame, ← hsame₂.next_frame, ← hs₄.next_frame]
      exact hnf
    · rw [← he.next_page, ← hsame₂.next_page, ← hs₄.next_page]
      exact hnp
    · rw [← he.next_proc, ← hsame₂.next_proc, ← hs₄.next_proc]
      exact hproc
    · rw [← he.alive, ← hsame₂.alive, ← hs₄.alive]
      exact halive t'
  have htable₂ : ∀ i, s.swap_table i = true → s₂.swap_table i = true ∨ s.OnSlot t pg.va i := by
    intro i hi
    rw [htab₂, htab]
    exact .inl hi
  have hrefl : SamePages s₂ s₂ := (SameTables.refl s₂).samePages
  cases destroy_cases hdes with
  | @uninit u hk =>
      -- a page that was never touched has no entry
      apply finish s₂ s₂ hrefl hdrop₂ (fun _ _ => rfl) rfl _ rfl rfl rfl (fun _ => rfl) htable₂
      intro t' va' k
      constructor
      · intro hmap
        refine ⟨?_, hmap⟩
        rintro ⟨rfl, rfl⟩
        obtain ⟨f, fr, ⟨qg, hq, hqf⟩, -, -⟩ :=
          hc.mapped.maps (he.maps_self k ((hsame₂.maps _ _ _).mp hmap))
        rw [hreg] at hq
        obtain rfl := Option.some.inj hq
        rw [hc.swapped.untouched hreg hk] at hqf
        cases hqf
      · exact fun hmap => hmap.2
  | @resident i hk hi =>
      exact finish s₂ _ hrefl (hdrop₂.congr rfl rfl) (s₂.page_at_modify_pte t pg.va · · _) rfl
        (maps_cleared s₂ t pg.va) rfl rfl rfl (s₂.alive_modify_pte t pg.va · _) htable₂
  | @swapped i hk hi =>
      refine finish s₂ _ hrefl (hdrop₂.congr rfl rfl) (s₂.page_at_modify_pte t pg.va · · _) rfl
        (maps_cleared s₂ t pg.va) rfl rfl rfl (s₂.alive_modify_pte t pg.va · _) ?_
      intro j hj
      by_cases hji : j = i.toNat
      · right
        refine ⟨pg, hreg, ?_⟩
        rw [hk, hji, Int.toNat_of_nonneg hi]
      · left
        rw [set_swap_swap_table, Function.update_of_ne hji]
        exact (htable₂ j hj).resolve_right fun hon => by
          obtain ⟨qg, hq, hqk⟩ := hon
          rw [hreg] at hq
          obtain rfl := Option.some.inj hq
          rw [hk] at hqk
          have : i = (j : ℤ) := by simpa using hqk
          omega
  | @file fp fs s₄ s₅ hk hallow hw hrel =>
      obtain ⟨hsame₄, htab₄⟩ := write_back_dirty_sameTables hw
      have hsame₄ := (SameTables.set_files s₂ fs).trans hsame₄
      have hdrop₄ := hdrop₂.congr hsame₄.frame hsame₄.used
      obtain ⟨hdrop₅, hsame₅, htab₅⟩ := hdrop₄.release hrel
      refine finish s₅ _ (hsame₄.samePages.trans hsame₅) (hdrop₅.congr rfl rfl)
        (s₅.page_at_modify_pte t pg.va · · _) rfl (maps_cleared s₅ t pg.va) rfl rfl rfl
        (s₅.alive_modify_pte t pg.va · _) ?_
      intro i hi
      show s₅.swap_table i = true ∨ _
      rw [htab₅, htab₄]
      exact htable₂ i hi

/-- What stays when a page is destroyed: the tables of supplemental pages, and no
entry appears. -/
structure Shrinks (s s' : vm) : Prop where
  page_at : ∀ t va, s'.page_at t va = s.page_at t va
  maps : ∀ t va k, s'.Maps t va k → s.Maps t va k
  alive : ∀ t, (s'.proc t).alive = (s.proc t).alive

theorem SamePages.shrinks (h : SamePages s s') : Shrinks s s' :=
  ⟨h.page_at, fun t va k => (h.maps t va k).mp, h.alive⟩

theorem Shrinks.trans {s'' : vm} (h : Shrinks s s') (h' : Shrinks s' s'') : Shrinks s s'' where
  page_at t va := (h'.page_at t va).trans (h.page_at t va)
  maps t va k hk := h.maps t va k (h'.maps t va k hk)
  alive t := (h'.alive t).trans (h.alive t)

theorem shrinks_cleared (s : vm) (t va : ℕ) : Shrinks s (pml4_cleared s t va) where
  page_at t' va' := s.page_at_modify_pte t va t' va' _
  maps t' va' k hk := ((maps_cleared s t va t' va' k).mp hk).2
  alive t' := s.alive_modify_pte t va t' _

theorem release_frame_samePages {f : Option ℕ} (h : release_frame s f = .ok s') :
    SamePages s s' := by
  rcases release_frame_cases h with rfl | ⟨g, fr, rfl, hg, href, rfl⟩
  · exact (SameTables.refl s').samePages
  · constructor <;> intros <;> rfl

theorem vm_dealloc_page_shrinks (h : vm_dealloc_page s t p = .ok s') : Shrinks s s' := by
  unfold vm_dealloc_page at h
  obtain ⟨pg, hpg, h⟩ := Outcome.bind_eq_ok.mp h
  obtain ⟨s₂, hdrop, h⟩ := Outcome.bind_eq_ok.mp h
  obtain ⟨s₃, hdes, h⟩ := Outcome.bind_eq_ok.mp h
  obtain rfl := Outcome.ok.inj h
  have hfree : Shrinks s₃ (s₃.free_page p) :=
    ⟨fun _ _ => rfl, fun _ _ _ hk => hk, fun _ => rfl⟩
  refine ((drop_ref_samePages hdrop).1.shrinks.trans ?_).trans hfree
  cases destroy_cases hdes with
  | uninit hk => exact (SameTables.refl s₂).samePages.shrinks
  | resident hk hi => exact shrinks_cleared s₂ t pg.va
  | @swapped i hk hi =>
      exact (shrinks_cleared s₂ t pg.va).trans
        (SameTables.set_swap _ s₂.swap_disk i.toNat false).samePages.shrinks
  | @file fp fs s₄ s₅ hk hallow hw hrel =>
      have h₄ := (SameTables.set_files s₂ fs).trans (write_back_dirty_sameTables hw).1
      exact (h₄.samePages.trans (release_frame_samePages hrel)).shrinks.trans
        (shrinks_cleared s₅ t pg.va)

/-! ## Exit -/

/-- The loop of `supplemental_page_table_kill`: each turn destroys one page. -/
theorem spt_kill_loop_coherent (t : ℕ) (entries : List (Sigma fun _ : ℕ => ℕ)) :
    ∀ {s s' : vm}, s.Coherent → (∀ x ∈ entries, s.page_at t x.1 = some x.2) →
      (entries.map Sigma.fst).Nodup → spt_kill_loop t entries s = .ok s' →
      s'.Coherent
        ∧ (∀ t' va, s'.page_at t' va
          = if t' = t ∧ va ∈ entries.map Sigma.fst then none else s.page_at t' va)
        ∧ (∀ t' va k, s'.Maps t' va k → s.Maps t' va k)
        ∧ ∀ t', (s'.proc t').alive = (s.proc t').alive := by
  induction entries with
  | nil =>
      intro s s' hc _ _ h
      cases h
      exact ⟨hc, fun _ _ => by simp, fun _ _ _ hk => hk, fun _ => rfl⟩
  | cons x entries ih =>
      intro s s' hc hin hnodup h
      obtain ⟨va, p⟩ := x
      rw [spt_kill_loop] at h
      obtain ⟨s₁, hs₁, h⟩ := Outcome.bind_eq_ok.mp h
      rw [List.map_cons, List.nodup_cons] at hnodup
      have he := erased_spt s t va
      have hc₁ := vm_dealloc_page_coherent hc (hin _ (List.mem_cons_self ..)) he rfl rfl rfl hs₁
      have hsh := vm_dealloc_page_shrinks hs₁
      -- the entries to come are still there
      have hin₁ : ∀ y ∈ entries, s₁.page_at t y.1 = some y.2 := by
        intro y hy
        rw [hsh.page_at, he.page_at, if_neg]
        · exact hin y (List.mem_cons_of_mem _ hy)
        · rintro ⟨-, hya⟩
          apply hnodup.1
          have hmem : y.1 ∈ entries.map Sigma.fst := List.mem_map_of_mem hy
          rw [hya] at hmem
          exact hmem
      obtain ⟨hc', hat, hmaps, halive⟩ := ih hc₁ hin₁ hnodup.2 h
      refine ⟨hc', fun t' va' => ?_, fun t' va' k hk => ?_, fun t' => ?_⟩
      · rw [hat, hsh.page_at, he.page_at, List.map_cons]
        by_cases ht : t' = t
        · subst ht
          by_cases hva : va' = va
          · simp [hva]
          · simp only [true_and, hva, List.mem_cons, false_or, if_false]
        · simp [ht]
      · have := hsh.maps t' va' k (hmaps t' va' k hk)
        by_cases heq : t' = t ∧ va' = va
        · obtain ⟨rfl, rfl⟩ := heq
          exact he.maps_self k this
        · exact (he.maps t' va' k heq).mp this
      · rw [halive, hsh.alive, he.alive]

/-- Nothing is present any more, so `pml4_destroy` frees nothing. -/
theorem pml4_destroy_loop_absent (entries : List (Sigma fun _ : ℕ => pte)) (s : vm)
    (habs : ∀ x ∈ entries, x.2.present = false) : pml4_destroy_loop entries s = .ok s := by
  induction entries with
  | nil => rfl
  | cons x entries ih =>
      obtain ⟨va, e⟩ := x
      have he : e.present = false := habs ⟨va, e⟩ (List.mem_cons_self ..)
      rw [pml4_destroy_loop, he, if_neg Bool.false_ne_true]
      exact ih fun y hy => habs y (List.mem_cons_of_mem _ hy)

theorem drop_process_coherent (hc : s.Coherent) (hno : ∀ va, s.page_at t va = none) :
    (s.drop_process t).Coherent ∧ ∀ t' va k, (s.drop_process t).Maps t' va k → s.Maps t' va k := by
  have hat : ∀ t' va, (s.drop_process t).page_at t' va = s.page_at t' va := by
    intro t' va
    unfold vm.page_at
    by_cases ht : t' = t
    · subst ht
      simp
    · simp [ht]
  have hreg : ∀ t' va, (s.drop_process t).registered t' va = s.registered t' va := fun t' va =>
    registered_congr (hat t' va) fun _ _ => rfl
  have hpte : ∀ t' va, (s.drop_process t).pte_at t' va = if t' = t then none
      else s.pte_at t' va := by
    intro t' va
    unfold vm.pte_at
    by_cases ht : t' = t
    · subst ht
      simp
    · simp [ht]
  have hmaps : ∀ t' va k, (s.drop_process t).Maps t' va k ↔ s.Maps t' va k := by
    intro t' va k
    by_cases ht : t' = t
    · subst ht
      constructor
      · rintro ⟨e, he, -⟩
        rw [hpte, if_pos rfl] at he
        cases he
      · intro hmap
        obtain ⟨f, fr, ⟨pg, hpg, -⟩, -⟩ := hc.mapped.maps hmap
        obtain ⟨p, hp, -⟩ := registered_eq_some.mp hpg
        rw [hno] at hp
        cases hp
    · unfold Maps
      rw [hpte, if_neg ht]
  refine ⟨⟨?_, ?_, hc.swapped.congr hreg rfl⟩, fun t' va k => (hmaps t' va k).mp⟩
  · refine hc.registered.congr hat (fun _ => rfl) rfl rfl fun t' ht' => ?_
    by_cases ht : t' = t
    · subst ht
      simp at ht'
    · simpa [ht] using ht'
  · refine hc.mapped.congr (fun t' va f => ?_) hmaps (fun _ => rfl) rfl fun _ hk => hk
    unfold Resident
    rw [hreg]

/-- Every page of the process is destroyed; after that its page table has nothing to free. -/
theorem process_cleanup_cases (hc : s.Coherent) (h : process_cleanup s t = .ok s') :
    ∃ s₁, spt_kill_loop t (s.proc t).spt.entries s = .ok s₁ ∧ s₁.Coherent
      ∧ (∀ t' va, s₁.page_at t' va
        = if t' = t ∧ va ∈ (s.proc t).spt.entries.map Sigma.fst then none else s.page_at t' va)
      ∧ (∀ t' va k, s₁.Maps t' va k → s.Maps t' va k)
      ∧ (∀ t', (s₁.proc t').alive = (s.proc t').alive) ∧ (∀ va, s₁.page_at t va = none)
      ∧ s' = s₁.drop_process t := by
  unfold process_cleanup supplemental_page_table_kill at h
  obtain ⟨s₁, hs₁, h⟩ := Outcome.bind_eq_ok.mp h
  obtain ⟨s₂, hs₂, h⟩ := Outcome.bind_eq_ok.mp h
  obtain rfl := Outcome.ok.inj h
  obtain ⟨hc₁, hat₁, hmaps₁, halive₁⟩ := spt_kill_loop_coherent t _ hc
    (fun x hx => AList.mem_lookup_iff.mpr hx) (s.proc t).spt.nodupKeys hs₁
  have hnone : ∀ va, s₁.page_at t va = none := by
    intro va
    rw [hat₁]
    by_cases hin : va ∈ (s.proc t).spt.entries.map Sigma.fst
    · simp [hin]
    · rw [if_neg (fun h => hin h.2)]
      exact AList.lookup_eq_none.mpr hin
  have habs : ∀ x ∈ (s₁.proc t).pml4.entries, x.2.present = false := by
    rintro ⟨va, e⟩ hx
    by_contra hpres
    have hmap : s₁.Maps t va e.kva :=
      ⟨e, AList.mem_lookup_iff.mpr hx, by simpa using hpres, rfl⟩
    obtain ⟨f, fr, ⟨pg, hpg, -⟩, -⟩ := hc₁.mapped.maps hmap
    obtain ⟨p, hp, -⟩ := registered_eq_some.mp hpg
    rw [hnone] at hp
    cases hp
  rw [pml4_destroy_loop_absent _ _ habs] at hs₂
  obtain rfl := Outcome.ok.inj hs₂
  exact ⟨s₁, hs₁, hc₁, hat₁, hmaps₁, halive₁, hnone, rfl⟩

/-- **Exit**: the process is gone, and what others map is as before. -/
theorem process_cleanup_coherent (hc : s.Coherent) (h : process_cleanup s t = .ok s') :
    s'.Coherent ∧ (∀ t' va k, s'.Maps t' va k → s.Maps t' va k)
      ∧ (∀ t' va, t' ≠ t → s'.page_at t' va = s.page_at t' va)
      ∧ (∀ va, s'.page_at t va = none)
      ∧ ∀ t', (s'.proc t').alive = if t' = t then false else (s.proc t').alive := by
  obtain ⟨s₁, -, hc₁, hat₁, hmaps₁, halive₁, hnone, rfl⟩ := process_cleanup_cases hc h
  obtain ⟨hc₂, hmaps₂⟩ := drop_process_coherent hc₁ hnone
  have hat₂ : ∀ t' va, (s₁.drop_process t).page_at t' va = s₁.page_at t' va := by
    intro t' va
    unfold vm.page_at
    by_cases ht : t' = t
    · subst ht
      simp
    · simp [ht]
  refine ⟨hc₂, fun t' va k hk => hmaps₁ t' va k (hmaps₂ t' va k hk), fun t' va ht => ?_,
    fun va => (hat₂ t va).trans (hnone va), fun t' => ?_⟩
  · rw [hat₂, hat₁, if_neg (fun h => ht h.1)]
  · by_cases ht : t' = t
    · subst ht
      simp
    · rw [if_neg ht, ← halive₁]
      simp [ht]

/-! ## `munmap` -/

/-- `spt_remove_page` of a page that is in the table. -/
theorem spt_remove_page_runs (hr : s.Registered) (hp : s.page_at t va = some p)
    (h : spt_remove_page s t p = .ok s') : ∃ pg, s.page p = some pg ∧ pg.va = va
      ∧ vm_dealloc_page (pml4_cleared (s.set_spt t ((s.proc t).spt.erase pg.va)) t pg.va) t p
        = .ok s' := by
  unfold spt_remove_page at h
  obtain ⟨pg, hpg, h⟩ := Outcome.bind_eq_ok.mp h
  have hpg := get_page_eq_ok.mp hpg
  have hva : pg.va = va := hr.va (registered_eq_some.mpr ⟨p, hp, hpg⟩)
  rw [hva, hp, if_pos Option.isSome_some] at h
  obtain ⟨s₁, hs₁, h⟩ := Outcome.bind_eq_ok.mp h
  obtain rfl := pml4_clear_page_eq_ok hs₁
  exact ⟨pg, hpg, hva, by rw [hva]; exact h⟩

/-- **`spt_remove_page`**: one virtual page less. -/
theorem spt_remove_page_coherent (hc : s.Coherent) (hp : s.page_at t va = some p)
    (h : spt_remove_page s t p = .ok s') :
    s'.Coherent
      ∧ (∀ t' va', s'.page_at t' va' = if t' = t ∧ va' = va then none else s.page_at t' va')
      ∧ (∀ t' va' k, s'.Maps t' va' k → s.Maps t' va' k)
      ∧ ∀ t', (s'.proc t').alive = (s.proc t').alive := by
  obtain ⟨pg, -, rfl, h⟩ := spt_remove_page_runs hc.registered hp h
  have he := erased_cleared s t pg.va
  have hsh := vm_dealloc_page_shrinks h
  refine ⟨vm_dealloc_page_coherent hc hp he rfl rfl rfl h, fun t' va' => ?_,
    fun t' va' k hk => ?_, fun t' => ?_⟩
  · rw [hsh.page_at, he.page_at]
  · have hk := hsh.maps t' va' k hk
    by_cases heq : t' = t ∧ va' = pg.va
    · obtain ⟨rfl, rfl⟩ := heq
      exact he.maps_self k hk
    · exact (he.maps t' va' k heq).mp hk
  · rw [hsh.alive, he.alive]

theorem is_my_mmap_some {addr : ℕ} {w : file_word} {n : ℤ} {q : ℕ}
    (h : is_my_mmap s t addr w n = .ok (some q)) : s.page_at t (pg_round_down addr) = some q := by
  unfold is_my_mmap spt_find_page at h
  cases hp : s.page_at t (pg_round_down addr) with
  | none =>
      rw [hp] at h
      cases h
  | some p =>
      rw [hp] at h
      obtain ⟨pg, -, h⟩ := Outcome.bind_eq_ok.mp h
      split at h
      · cases h
      · split at h
        · cases h
        · exact Outcome.ok.inj h

theorem pg_round_down_add_PGSIZE (addr : ℕ) :
    pg_round_down (addr + PGSIZE) = pg_round_down addr + PGSIZE := by
  unfold pg_round_down PGSIZE
  omega

/-- **The loop of `do_munmap`** keeps what removing a page from `lo` on keeps. -/
theorem munmap_loop_rule {I : vm → Prop} {lo : ℕ} (w : file_word)
    (hstep : ∀ {s s₁ : vm} {va q : ℕ}, I s → lo ≤ va → s.page_at t va = some q →
      spt_remove_page s t q = .ok s₁ → I s₁) (fuel : ℕ) :
    ∀ {s s' : vm} {addr : ℕ} {n : ℤ}, I s → lo ≤ pg_round_down addr →
      munmap_loop t w fuel s addr n = .ok s' → I s' := by
  induction fuel with
  | zero =>
      intro s s' addr n _ _ h
      cases h
  | succ fuel ih =>
      intro s s' addr n hI hlo h
      rw [munmap_loop] at h
      obtain ⟨found, hfound, h⟩ := Outcome.bind_eq_ok.mp h
      cases found with
      | none =>
          obtain rfl := Outcome.ok.inj h
          exact hI
      | some q =>
          obtain ⟨s₁, hs₁, h⟩ := Outcome.bind_eq_ok.mp h
          have hI₁ := hstep hI hlo (is_my_mmap_some hfound) hs₁
          refine ih hI₁ ?_ h
          rw [pg_round_down_add_PGSIZE]
          omega

/-- The pages below the one that the loop starts from stay. -/
theorem munmap_loop_above {I : vm → Prop} (w : file_word)
    (hstep : ∀ {s s₁ : vm} {va q : ℕ}, I s → s.page_at t va = some q →
      spt_remove_page s t q = .ok s₁ →
      I s₁ ∧ ∀ va', va' ≠ va → s₁.page_at t va' = s.page_at t va') (fuel : ℕ)
    {addr : ℕ} {n : ℤ} (hI : I s) (h : munmap_loop t w fuel s addr n = .ok s') :
    I s' ∧ ∀ va, va < pg_round_down addr → s'.page_at t va = s.page_at t va := by
  apply munmap_loop_rule (I := fun s₁ => I s₁ ∧ ∀ va, va < pg_round_down addr →
    s₁.page_at t va = s.page_at t va) w _ fuel ⟨hI, fun _ _ => rfl⟩ le_rfl h
  rintro s₁ s₂ va q ⟨hI₁, hbelow⟩ hlo hq hrun
  obtain ⟨hI₂, hat⟩ := hstep hI₁ hq hrun
  refine ⟨hI₂, fun va' hva' => ?_⟩
  rw [hat va' (hva'.trans_le hlo).ne]
  exact hbelow va' hva'

/-- **`do_munmap`** keeps what removing a registered page keeps. -/
theorem do_munmap_rule {I : vm → Prop}
    (hstep : ∀ {s s₁ : vm} {va q : ℕ}, I s → s.page_at t va = some q →
      spt_remove_page s t q = .ok s₁ →
      I s₁ ∧ ∀ va', va' ≠ va → s₁.page_at t va' = s.page_at t va')
    {addr : ℕ} (hI : I s) (h : do_munmap s t addr = .ok s') : I s' := by
  unfold do_munmap spt_find_page at h
  cases hp : s.page_at t (pg_round_down addr) with
  | none =>
      rw [hp] at h
      obtain rfl := Outcome.ok.inj h
      exact hI
  | some p =>
      rw [hp] at h
      obtain ⟨pg, -, h⟩ := Outcome.bind_eq_ok.mp h
      obtain ⟨s₁, hs₁, h⟩ := Outcome.bind_eq_ok.mp h
      obtain ⟨hI₁, hbelow⟩ := munmap_loop_above _ hstep _ hI hs₁
      -- the first page is below what the loop looks at
      have hp₁ : s₁.page_at t (pg_round_down addr) = some p := by
        rw [hbelow, hp]
        rw [pg_round_down_add_PGSIZE]
        unfold PGSIZE
        omega
      exact (hstep hI₁ hp₁ h).1

/-- **`do_munmap`.** -/
theorem do_munmap_coherent {addr : ℕ} (hc : s.Coherent) (h : do_munmap s t addr = .ok s') :
    s'.Coherent := by
  apply do_munmap_rule (I := vm.Coherent) _ hc h
  intro s s₁ va q hc hq hs₁
  obtain ⟨hc₁, hat, -, -⟩ := spt_remove_page_coherent hc hq hs₁
  refine ⟨hc₁, fun va' hne => ?_⟩
  rw [hat, if_neg fun hboth => hne hboth.2]

end vm

end Pintos
