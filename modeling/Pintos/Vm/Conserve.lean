/-
What an exit gives back to the user pool.

A physical page can go back in two places: `file_backed_destroy` frees the frame of a file
page when the last reference goes, and `pml4_destroy` frees what is still present in the
page table. `anon_destroy` clears the entry and frees nothing, so that the second place
never sees the page: the frames of anonymous pages stay taken.
-/
import Pintos.Vm.Mmap
import Pintos.Vm.Stale

set_option autoImplicit false

namespace Pintos

namespace vm

variable {s s' : vm} {t va p : ℕ} {pg : Pintos.page}

/-! ## One page -/

/-- Destroying the page at `(t, va)` frees the physical page `k`. -/
def Frees (s : vm) (t va k : ℕ) : Prop := ∃ pg fp f fr, s.registered t va = some pg
  ∧ pg.kind = .file fp ∧ pg.frame = some f ∧ s.frame f = some fr ∧ fr.kva = k ∧ fr.ref_cnt ≤ 1

/-- `release_frame` frees a frame exactly when no reference is left. -/
theorem release_frame_some {f : ℕ} {fr : Pintos.frame} (hf : s.frame f = some fr)
    (h : release_frame s (some f) = .ok s') : 1 ≤ fr.ref_cnt ∧ s' = s
      ∨ fr.ref_cnt < 1 ∧ s'.used = Function.update s.used fr.kva false
        ∧ s'.frame = Function.update s.frame f none ∧ s'.page = s.page := by
  unfold release_frame at h
  obtain ⟨⟨g, fr'⟩, hg, h⟩ := Outcome.bind_eq_ok.mp h
  obtain ⟨hfg, hfr'⟩ := get_frame_eq_ok.mp hg
  obtain rfl := Option.some.inj hfg
  dsimp only at hfr' h
  rw [hf] at hfr'
  obtain rfl := Option.some.inj hfr'
  by_cases href : fr.ref_cnt < 1
  · rw [if_pos href] at h
    obtain ⟨s₁, hs₁, h⟩ := Outcome.bind_eq_ok.mp h
    obtain rfl := Outcome.ok.inj h
    unfold palloc_free_page at hs₁
    obtain ⟨-, -, hs₁⟩ := Outcome.bind_eq_ok.mp hs₁
    obtain rfl := Outcome.ok.inj hs₁
    exact .inr ⟨href, rfl, rfl, rfl⟩
  · rw [if_neg href] at h
    exact .inl ⟨not_lt.mp href, (Outcome.ok.inj h).symm⟩

/-- What `vm_dealloc_page` does to the pool and to the frames. -/
structure Dealloc (s : vm) (pg : Pintos.page) (s' : vm) : Prop where
  used : ∀ k, s'.used k = true ↔ s.used k = true ∧ ¬ ∃ fp f fr, pg.kind = .file fp
    ∧ pg.frame = some f ∧ s.frame f = some fr ∧ fr.kva = k ∧ fr.ref_cnt ≤ 1
  frame : ∀ g, pg.frame ≠ some g → s'.frame g = s.frame g

theorem vm_dealloc_page_dealloc (hpg : s.page p = some pg) (h : vm_dealloc_page s t p = .ok s') :
    Dealloc s pg s' ∧ s'.page = Function.update s.page p none := by
  unfold vm_dealloc_page at h
  obtain ⟨pg', hpg', h⟩ := Outcome.bind_eq_ok.mp h
  obtain ⟨s₂, hdrop, h⟩ := Outcome.bind_eq_ok.mp h
  obtain ⟨s₃, hdes, h⟩ := Outcome.bind_eq_ok.mp h
  obtain rfl := Outcome.ok.inj h
  obtain rfl : pg' = pg := by
    have := get_page_eq_ok.mp hpg'
    rw [hpg] at this
    exact (Option.some.inj this).symm
  have hused₂ : s₂.used = s.used := by
    rcases drop_ref_cases hdrop with ⟨-, rfl⟩ | ⟨g, fr, -, -, rfl⟩
    · rfl
    · rfl
  have hframe₂ : ∀ g, pg'.frame ≠ some g → s₂.frame g = s.frame g := by
    intro g hg
    rcases drop_ref_cases hdrop with ⟨-, rfl⟩ | ⟨f, fr, hf, -, rfl⟩
    · rfl
    · apply Function.update_of_ne
      rintro rfl
      exact hg hf
  have hpage₂ := (drop_ref_samePages hdrop).1.page
  -- of the kinds only a file page frees anything
  have hkeep : (∀ fp, pg'.kind ≠ .file fp) → s₃.used = s₂.used → s₃.frame = s₂.frame →
      s₃.page = s₂.page → Dealloc s pg' (s₃.free_page p)
        ∧ (s₃.free_page p).page = Function.update s.page p none := by
    intro hkind hused hframe hpage
    refine ⟨⟨fun k => ?_, fun g hg => ?_⟩, ?_⟩
    · show s₃.used k = true ↔ _
      rw [hused, hused₂]
      constructor
      · refine fun hk => ⟨hk, ?_⟩
        rintro ⟨fp, f, fr, hfp, -⟩
        exact hkind fp hfp
      · exact fun hk => hk.1
    · show s₃.frame g = s.frame g
      rw [hframe]
      exact hframe₂ g hg
    · show Function.update s₃.page p none = _
      rw [hpage, hpage₂]
  cases destroy_cases hdes with
  | uninit hk =>
    apply hkeep _ rfl rfl rfl
    rw [hk]
    exact fun _ h => by cases h
  | resident hk _ =>
    apply hkeep _ rfl rfl rfl
    rw [hk]
    exact fun _ h => by cases h
  | swapped hk _ =>
    apply hkeep _ rfl rfl rfl
    rw [hk]
    exact fun _ h => by cases h
  | @file fp fs s₄ s₅ hk' hallow hw hrel =>
    have hsame := (SameTables.set_files s₂ fs).trans (write_back_dirty_sameTables hw).1
    rcases drop_ref_cases hdrop with ⟨hnone, rfl⟩ | ⟨f, fr, hf, hfr, rfl⟩
    · rw [hnone] at hrel
      obtain rfl := Outcome.ok.inj hrel
      refine ⟨⟨fun k => ?_, fun g _ => ?_⟩, ?_⟩
      · show s₄.used k = true ↔ _
        rw [hsame.used, hnone]
        simp
      · show s₄.frame g = s₂.frame g
        rw [hsame.frame]
      · show Function.update s₄.page p none = _
        rw [hsame.page]
    · have hf₄ : s₄.frame f = some { fr with ref_cnt := fr.ref_cnt - 1 } := by
        rw [hsame.frame]
        exact Function.update_self ..
      rw [hf] at hrel
      rcases release_frame_some hf₄ hrel with ⟨href, rfl⟩ | ⟨href, hused, hframe, hpage⟩
      · dsimp only at href
        refine ⟨⟨fun k => ?_, fun g hg => ?_⟩, ?_⟩
        · show s₅.used k = true ↔ _
          rw [hsame.used]
          constructor
          · refine fun hk => ⟨hk, ?_⟩
            rintro ⟨fp', f', fr', -, hf', hfr', -, hle⟩
            obtain rfl := Option.some.inj (hf.symm.trans hf')
            obtain rfl := Option.some.inj (hfr.symm.trans hfr')
            omega
          · exact fun hk => hk.1
        · show s₅.frame g = s.frame g
          rw [hsame.frame]
          exact hframe₂ g hg
        · show Function.update s₅.page p none = _
          rw [hsame.page]
          rfl
      · dsimp only at href hused
        refine ⟨⟨fun k => ?_, fun g hg => ?_⟩, ?_⟩
        · show s₅.used k = true ↔ _
          rw [hused, hsame.used]
          by_cases hk : k = fr.kva
          · rw [hk, Function.update_self]
            constructor
            · exact fun h => absurd h Bool.false_ne_true
            · exact fun h => absurd ⟨fp, f, fr, hk', hf, hfr, rfl, by omega⟩ h.2
          · rw [Function.update_of_ne hk]
            constructor
            · refine fun hu => ⟨hu, ?_⟩
              rintro ⟨fp', f', fr', -, hf', hfr', rfl, -⟩
              obtain rfl := Option.some.inj (hf.symm.trans hf')
              obtain rfl := Option.some.inj (hfr.symm.trans hfr')
              exact hk rfl
            · exact fun hu => hu.1
        · show s₅.frame g = s.frame g
          rw [hframe, Function.update_of_ne, hsame.frame]
          · exact hframe₂ g hg
          · rintro rfl
            exact hg hf
        · show Function.update s₅.page p none = _
          rw [hpage, hsame.page]
          rfl

/-! ## The whole table -/

/-- Destroying one page does not change what another page of the process frees. -/
theorem Frees.congr {s₁ : vm} {va' k : ℕ} (hc : s.Coherent) (hreg : s.registered t va = some pg)
    (hd : Dealloc s pg s₁) (hother : s₁.registered t va' = s.registered t va') (hne : va' ≠ va) :
    s₁.Frees t va' k ↔ s.Frees t va' k := by
  unfold Frees
  rw [hother]
  -- two pages of one process are never in one frame
  have hframe : ∀ pg' g, s.registered t va' = some pg' → pg'.frame = some g →
      s₁.frame g = s.frame g := by
    intro pg' g hpg' hg
    apply hd.frame
    intro hpf
    exact hne (hc.mapped.same_va ⟨pg, hreg, hpf⟩ ⟨pg', hpg', hg⟩)
  constructor
  · rintro ⟨pg', fp, g, gr, hpg', hk, hg, hgr, hrest⟩
    rw [hframe pg' g hpg' hg] at hgr
    exact ⟨pg', fp, g, gr, hpg', hk, hg, hgr, hrest⟩
  · rintro ⟨pg', fp, g, gr, hpg', hk, hg, hgr, hrest⟩
    rw [← hframe pg' g hpg' hg] at hgr
    exact ⟨pg', fp, g, gr, hpg', hk, hg, hgr, hrest⟩

theorem spt_kill_loop_frees (t : ℕ) (entries : List (Sigma fun _ : ℕ => ℕ)) :
    ∀ {s s' : vm}, s.Coherent → (∀ x ∈ entries, s.page_at t x.1 = some x.2) →
      (entries.map Sigma.fst).Nodup → spt_kill_loop t entries s = .ok s' →
      ∀ k, s'.used k = true ↔ s.used k = true ∧ ¬ ∃ x ∈ entries, s.Frees t x.1 k := by
  induction entries with
  | nil =>
    intro s s' _ _ _ h k
    obtain rfl := Outcome.ok.inj h
    simp
  | cons x entries ih =>
    intro s s' hc hin hnodup h k
    obtain ⟨va, p⟩ := x
    rw [spt_kill_loop] at h
    obtain ⟨s₁, hs₁, h⟩ := Outcome.bind_eq_ok.mp h
    rw [List.map_cons, List.nodup_cons] at hnodup
    have hp := hin ⟨va, p⟩ List.mem_cons_self
    have he := erased_spt s t va
    have hc₁ := vm_dealloc_page_coherent hc hp he rfl rfl rfl hs₁
    have hsh := vm_dealloc_page_shrinks hs₁
    obtain ⟨pg, hpg, -⟩ := hc.registered.page hp
    have hreg := registered_eq_some.mpr ⟨p, hp, hpg⟩
    have hpg₀ : (s.set_spt t ((s.proc t).spt.erase va)).page p = some pg := hpg
    obtain ⟨hdealloc, hpage⟩ := vm_dealloc_page_dealloc hpg₀ hs₁
    have hd : Dealloc s pg s₁ := ⟨hdealloc.used, hdealloc.frame⟩
    have hne : ∀ y ∈ entries, y.1 ≠ va := by
      intro y hy heq
      have hmem : y.1 ∈ entries.map Sigma.fst := List.mem_map_of_mem hy
      rw [heq] at hmem
      exact hnodup.1 hmem
    have hat : ∀ y ∈ entries, s₁.page_at t y.1 = s.page_at t y.1 := by
      intro y hy
      rw [hsh.page_at, he.page_at, if_neg fun hboth => hne y hy hboth.2]
    have hother : ∀ y ∈ entries, s₁.registered t y.1 = s.registered t y.1 := by
      intro y hy
      apply registered_congr (hat y hy)
      intro q hq
      rw [hpage]
      apply Function.update_of_ne
      rintro rfl
      exact hne y hy (hc.registered.inj hp hq).2
    have hin₁ : ∀ y ∈ entries, s₁.page_at t y.1 = some y.2 := by
      intro y hy
      rw [hat y hy]
      exact hin y (List.mem_cons_of_mem _ hy)
    have hself : (∃ fp f fr, pg.kind = .file fp ∧ pg.frame = some f ∧ s.frame f = some fr
        ∧ fr.kva = k ∧ fr.ref_cnt ≤ 1) ↔ s.Frees t va k := by
      constructor
      · rintro ⟨fp, f, fr, hk, hf, hfr, hrest⟩
        exact ⟨pg, fp, f, fr, hreg, hk, hf, hfr, hrest⟩
      · rintro ⟨pg', fp, f, fr, hpg', hk, hf, hfr, hrest⟩
        obtain rfl := Option.some.inj (hreg.symm.trans hpg')
        exact ⟨fp, f, fr, hk, hf, hfr, hrest⟩
    rw [ih hc₁ hin₁ hnodup.2 h, hd.used k, hself, and_assoc, ← not_or]
    have hrest : (∃ y ∈ entries, s₁.Frees t y.1 k) ↔ ∃ y ∈ entries, s.Frees t y.1 k := by
      constructor
      · rintro ⟨y, hy, hfree⟩
        exact ⟨y, hy, (Frees.congr hc hreg hd (hother y hy) (hne y hy)).mp hfree⟩
      · rintro ⟨y, hy, hfree⟩
        exact ⟨y, hy, (Frees.congr hc hreg hd (hother y hy) (hne y hy)).mpr hfree⟩
    rw [hrest, List.exists_mem_cons_iff]

/-- **Exit**: the frames that go back are those of file pages with no other reference. -/
theorem process_cleanup_frees (hc : s.Coherent) (h : process_cleanup s t = .ok s') (k : ℕ) :
    s'.used k = true ↔ s.used k = true ∧ ¬ ∃ va, s.Frees t va k := by
  obtain ⟨s₁, hs₁, -, -, -, -, -, rfl⟩ := process_cleanup_cases hc h
  have hloop := spt_kill_loop_frees t _ hc (fun x hx => AList.mem_lookup_iff.mpr hx)
    (s.proc t).spt.nodupKeys hs₁ k
  have hentry : (∃ x ∈ (s.proc t).spt.entries, s.Frees t x.1 k) ↔ ∃ va, s.Frees t va k := by
    constructor
    · rintro ⟨x, -, hfree⟩
      exact ⟨x.1, hfree⟩
    · rintro ⟨va, hfree⟩
      obtain ⟨pg, -, -, -, hpg, -⟩ := id hfree
      obtain ⟨p, hp, -⟩ := registered_eq_some.mp hpg
      exact ⟨⟨va, p⟩, AList.mem_lookup_iff.mp hp, hfree⟩
  rw [← hentry]
  exact hloop

/-! ## What should go back -/

/-- The physical pages that `t` alone maps are free after its exit, those that another process maps
as well are not. `palloc_free_page` asserts that a page is taken, so none is freed twice. -/
structure GivesBack (s : vm) (t : ℕ) (s' : vm) : Prop where
  own : ∀ va k, s.Maps t va k → (∀ t' va', s.Maps t' va' k → t' = t) → s'.used k = false
  shared : ∀ va t' va' k, s.Maps t va k → s.Maps t' va' k → t' ≠ t → s'.used k = true

/-- Every frame that `t` has for itself is that of a file page, with a reference count of one. -/
def OnlyFilePages (s : vm) (t : ℕ) : Prop := ∀ va f fr pg, s.registered t va = some pg →
  pg.frame = some f → s.frame f = some fr → (∀ t' va', s.Resident t' va' f → t' = t) →
    (∃ fp, pg.kind = .file fp) ∧ fr.ref_cnt ≤ 1

theorem process_cleanup_gives_back_iff (hc : s.Coherent) (h : process_cleanup s t = .ok s') :
    s.GivesBack t s' ↔ s.OnlyFilePages t := by
  have hused := process_cleanup_frees hc h
  -- who maps a physical page is who is resident in its frame
  have howner : ∀ {f fr t' va'}, s.frame f = some fr → s.Maps t' va' fr.kva →
      s.Resident t' va' f := by
    intro f fr t' va' hf hmap
    obtain ⟨g, gr, hr, hg, hk⟩ := hc.mapped.maps hmap
    rw [hc.mapped.kva_inj hf hg hk] at hr
    exact hr
  constructor
  · intro hgive va f fr pg hpg hpf hf halone
    obtain ⟨fr', hf', hmap⟩ := hc.mapped.resident ⟨pg, hpg, hpf⟩
    obtain rfl := Option.some.inj (hf.symm.trans hf')
    have hfree := hgive.own va fr.kva hmap fun t' va' hk => halone t' va' (howner hf hk)
    have hno : ¬ (s.used fr.kva = true ∧ ¬ ∃ va, s.Frees t va fr.kva) := by
      rw [← hused, hfree]
      exact Bool.false_ne_true
    have hthere : ∃ va, s.Frees t va fr.kva := by
      by_contra hnone
      exact hno ⟨hc.mapped.used hf, hnone⟩
    obtain ⟨va', pg', fp, g, gr, hpg', hk, hg, hgr, hkva, href⟩ := hthere
    have hgf := hc.mapped.kva_inj hf hgr hkva
    rw [hgf] at hg hgr
    obtain rfl := Option.some.inj (hf.symm.trans hgr)
    have hva := hc.mapped.same_va ⟨pg, hpg, hpf⟩ ⟨pg', hpg', hg⟩
    rw [hva, hpg] at hpg'
    obtain rfl := Option.some.inj hpg'
    exact ⟨⟨fp, hk⟩, href⟩
  · intro honly
    constructor
    · intro va k hmap halone
      obtain ⟨f, fr, ⟨pg, hpg, hpf⟩, hf, rfl⟩ := hc.mapped.maps hmap
      obtain ⟨⟨fp, hk⟩, href⟩ := honly va f fr pg hpg hpf hf fun t' va' hr => by
        obtain ⟨fr', hf', hmap'⟩ := hc.mapped.resident hr
        rw [← Option.some.inj (hf.symm.trans hf')] at hmap'
        exact halone t' va' hmap'
      rw [← Bool.not_eq_true, hused]
      exact fun hkept => hkept.2 ⟨va, pg, fp, f, fr, hpg, hk, hpf, hf, rfl, href⟩
    · intro va t' va' k hmap hmap' hne
      obtain ⟨f, fr, hr, hf, rfl⟩ := hc.mapped.maps hmap
      refine (hused _).mpr ⟨hc.mapped.used hf, ?_⟩
      rintro ⟨va₁, pg₁, fp, g, gr, hpg₁, -, hg, hgr, hkva, href⟩
      -- a frame with two users has two references
      have hgf := hc.mapped.kva_inj hf hgr hkva
      rw [hgf] at hgr
      obtain rfl := Option.some.inj (hf.symm.trans hgr)
      have hpair : (t, va) ≠ (t', va') := fun heq => hne (congrArg Prod.fst heq).symm
      have htwo := (hc.mapped.counted hf).two_le hr (howner hf hmap') hpair
      omega

/-- **Runs.** A process that has never lost or taken a foreign frame gives everything back exactly
if it has no anonymous page in a frame of its own. -/
theorem exit_gives_back_iff {es : List vm_event} {s₁ s₂ : vm} (hc : s.Coherent)
    (hgood : GoodRun es s) (hrun : vm_run es s = .ok s₁) (hexit : vm_step s₁ (.exit t) = .ok s₂) :
    s₁.GivesBack t s₂ ↔ s₁.OnlyFilePages t := by
  have hc₁ := vm_run_coherent es hc hgood hrun
  obtain ⟨-, hdid⟩ := vm_step_cases hexit
  cases hdid with
  | exit hcleanup => exact process_cleanup_gives_back_iff hc₁ hcleanup

/-! ## A mapped page and a page of stack -/

theorem file_machine_coherent : file_machine.Coherent :=
  .of_no_page (fun _ _ => rfl) (fun _ => rfl) file_machine_alive (fun _ => rfl) (fun _ _ => rfl)

/-- A page of a mapping goes back. -/
theorem mapped_page_given_back : ∃ s₁ s₂,
    vm_run [.mmap 0 0x10000000 100 true 0 0, .read 0 0x10000000 USER_STACK] file_machine = .ok s₁
      ∧ vm_step s₁ (.exit 0) = .ok s₂ ∧ s₁.Maps 0 0x10000000 0 ∧ s₁.GivesBack 0 s₂ := by
  obtain ⟨s₁, h₁⟩ : ∃ s₁, vm_run [.mmap 0 0x10000000 100 true 0 0,
      .read 0 0x10000000 USER_STACK] file_machine = .ok s₁ := ⟨_, rfl⟩
  obtain ⟨s₂, h₂⟩ : ∃ s₂, vm_step s₁ (.exit 0) = .ok s₂ := by
    cases h₁
    exact ⟨_, rfl⟩
  -- one page and one frame, that of the file
  obtain ⟨hmap, hpages, hframes, pg, hpg, ⟨fp, hkind⟩, fr, hfr, href⟩ :
      s₁.Maps 0 0x10000000 0 ∧ s₁.next_page = 1 ∧ s₁.next_frame = 1
        ∧ ∃ pg, s₁.page 0 = some pg ∧ (∃ fp, pg.kind = .file fp)
        ∧ ∃ fr, s₁.frame 0 = some fr ∧ fr.ref_cnt = 1 := by
    cases h₁
    exact ⟨⟨_, rfl, rfl, rfl⟩, rfl, rfl, _, rfl, ⟨_, rfl⟩, _, rfl, rfl⟩
  have hgood : GoodRun [.mmap 0 0x10000000 100 true 0 0, .read 0 0x10000000 USER_STACK]
      file_machine := by
    refine ⟨trivial, fun s' hs' => ⟨?_, fun _ _ => trivial⟩⟩
    have hfree : palloc_get_page s' = some 0 := by
      cases hs'
      rfl
    intro _ s₀ hdem hpal
    rcases frame_demand_cases hdem with ⟨rfl, -⟩ | ⟨rfl, -⟩
    · cases hfree.symm.trans hpal
    · cases hfree.symm.trans hpal
  have hc₁ := vm_run_coherent _ file_machine_coherent hgood h₁
  refine ⟨s₁, s₂, h₁, h₂, hmap,
    (exit_gives_back_iff file_machine_coherent hgood h₁ h₂).mpr fun va f fr' pg' hpg' _ hf _ => ?_⟩
  have hflt := hc₁.mapped.fresh hf
  obtain ⟨p, -, hp⟩ := registered_eq_some.mp hpg'
  have hplt := hc₁.registered.fresh hp
  obtain rfl : f = 0 := by omega
  obtain rfl : p = 0 := by omega
  obtain rfl := Option.some.inj (hpg.symm.trans hp)
  obtain rfl := Option.some.inj (hfr.symm.trans hf)
  exact ⟨⟨fp, hkind⟩, href.le⟩

/-- A page of stack stays taken for ever, and the pool of one page is empty. -/
theorem stack_page_leaks : ∃ s₁ s₂,
    vm_run [.write 0 (USER_STACK - 8) USER_STACK 1] one_page_pool = .ok s₁
      ∧ vm_step s₁ (.exit 0) = .ok s₂ ∧ ¬ s₁.GivesBack 0 s₂ ∧ palloc_get_page s₂ = none := by
  obtain ⟨s₁, h₁⟩ : ∃ s₁,
      vm_run [.write 0 (USER_STACK - 8) USER_STACK 1] one_page_pool = .ok s₁ := ⟨_, rfl⟩
  obtain ⟨s₂, h₂, hused, hpal⟩ : ∃ s₂, vm_step s₁ (.exit 0) = .ok s₂ ∧ s₂.used 0 = true
      ∧ palloc_get_page s₂ = none := by
    cases h₁
    exact ⟨_, rfl, rfl, rfl⟩
  obtain ⟨hmap, hat, hlast⟩ : s₁.Maps 0 (USER_STACK - PGSIZE) 0
      ∧ s₁.page_at 0 (USER_STACK - PGSIZE) = some 0 ∧ s₁.next_page = 1 := by
    cases h₁
    exact ⟨⟨_, rfl, rfl, rfl⟩, rfl, rfl⟩
  have hgood : GoodRun [.write 0 (USER_STACK - 8) USER_STACK 1] one_page_pool :=
    ⟨first_write_own, fun _ _ => trivial⟩
  have hc₁ := vm_run_coherent _ one_page_pool_coherent hgood h₁
  refine ⟨s₁, s₂, h₁, h₂, fun hgive => ?_, hpal⟩
  have hfree := hgive.own _ 0 hmap fun t' va' hk => by
    obtain ⟨f, fr, ⟨pg, hpg, -⟩, -⟩ := hc₁.mapped.maps hk
    obtain ⟨p, hp, hpage⟩ := registered_eq_some.mp hpg
    have hlt := hc₁.registered.fresh hpage
    obtain rfl : p = 0 := by omega
    exact (hc₁.registered.inj hat hp).1
  rw [hused] at hfree
  cases hfree

end vm

end Pintos
