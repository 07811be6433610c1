/-
Page faults and the frame table.

A frame is linked before it has a page: between `vm_get_frame` and the end of `vm_do_claim_page`
one linked frame names nothing. Whose page the victim is does not matter here.
-/
import Pintos.Vm.FrameTable

set_option autoImplicit false

namespace Pintos

/-! ## The list -/

section List

variable {s s' : vm} {t f v : ℕ}

theorem frame_list_remove_frame_table (h : frame_list_remove s f = .ok s') :
    s'.frame_table = s.frame_table.erase f := by
  unfold frame_list_remove at h
  dsimp only at h
  split at h
  · obtain rfl := Outcome.ok.inj h
    exact frame_table_split_eq_erase s.frame_table f
  · cases h

theorem frame_table_insert_frame_table (h : frame_table_insert s f = .ok s') :
    s'.frame_table = s.frame_table ++ [f] := by
  unfold frame_table_insert at h
  split at h
  · split at h
    · obtain rfl := Outcome.ok.inj h
      rfl
    · cases h
  · rename_i hlast
    obtain rfl := Outcome.ok.inj h
    rw [List.getLast?_eq_none_iff.mp hlast]
    rfl

theorem clock_scan_frame_table (t : ℕ) (l : List ℕ) :
    ∀ {s s' : vm} {found : Option ℕ}, clock_scan t l s = .ok (found, s') →
      s'.frame_table = s.frame_table := by
  induction l with
  | nil =>
      intro s s' found h
      cases h
      rfl
  | cons f fs ih =>
      intro s s' found h
      rw [clock_scan] at h
      obtain ⟨va, -, h⟩ := Outcome.bind_eq_ok.mp h
      split at h
      · have htable := ih h
        exact htable
      · cases h
        rfl

theorem vm_get_victim_frame_table (h : vm_get_victim s t = .ok (v, s')) :
    s'.frame_table = s.frame_table := by
  unfold vm_get_victim at h
  obtain ⟨order, -, h⟩ := Outcome.bind_eq_ok.mp h
  cases order with
  | nil => cases h
  | cons hand rest =>
      obtain ⟨⟨found, s₁⟩, hscan, h⟩ := Outcome.bind_eq_ok.mp h
      cases h
      have htable := clock_scan_frame_table t _ hscan
      exact htable

theorem swap_out_frame_table {p : ℕ} (h : swap_out s t p = .ok (true, s')) :
    s'.frame_table = s.frame_table := by
  obtain ⟨pg, f, fr, -, -, -, hout⟩ := swap_out_cases h
  cases hout with
  | anon hk hscan hd => rfl
  | file hk hw => cases hw <;> rfl

theorem vm_evict_frame_frame_table (h : vm_evict_frame s t = .ok (some v, s')) :
    s'.frame_table = s.frame_table.erase v := by
  unfold vm_evict_frame at h
  obtain ⟨⟨victim, s₁⟩, hv, h⟩ := Outcome.bind_eq_ok.mp h
  obtain ⟨⟨v', fr⟩, hf, h⟩ := Outcome.bind_eq_ok.mp h
  dsimp only at h
  split at h
  · cases h
  · obtain ⟨pg, -, h⟩ := Outcome.bind_eq_ok.mp h
    obtain ⟨⟨done, s₂⟩, hout, h⟩ := Outcome.bind_eq_ok.mp h
    dsimp only at h
    cases done with
    | false => cases h
    | true =>
        obtain ⟨s₃, hclear, h⟩ := Outcome.bind_eq_ok.mp h
        obtain ⟨s₄, hrem, h⟩ := Outcome.bind_eq_ok.mp h
        cases h
        rw [frame_list_remove_frame_table hrem, pml4_clear_page_eq_ok hclear]
        show s₂.frame_table.erase v = _
        rw [swap_out_frame_table hout, vm_get_victim_frame_table hv]

theorem vm_get_frame_linked (h : vm_get_frame s t = .ok (f, s')) :
    ∃ k s₁, frame_kva s t = .ok (k, s₁) ∧ f = s₁.next_frame
      ∧ vm.SameMap (s₁.new_frame { kva := k, ref_cnt := 1, page := none }) s'
      ∧ s'.frame_table = s₁.frame_table ++ [f] := by
  unfold vm_get_frame at h
  obtain ⟨⟨k, s₁⟩, hk, h⟩ := Outcome.bind_eq_ok.mp h
  dsimp only at h
  obtain ⟨s₂, hins, h⟩ := Outcome.bind_eq_ok.mp h
  cases h
  have htable := frame_table_insert_frame_table hins
  exact ⟨k, s₁, hk, rfl, frame_table_insert_eq_ok hins, htable⟩

end List

/-! ## Files only get longer -/

/-- The same files, and no inode is shorter. -/
structure Outlasts (fs fs' : filesys) : Prop where
  file : fs'.file = fs.file
  inode : ∀ {i ino}, fs.inode i = some ino →
    ∃ ino', fs'.inode i = some ino' ∧ inode_length ino ≤ inode_length ino'

theorem Outlasts.refl (fs : filesys) : Outlasts fs fs := ⟨rfl, fun hi => ⟨_, hi, le_rfl⟩⟩

theorem inode_extend_loop_longer {fuel : ℕ} : ∀ {d d' : disk} {fs fs' : fat_fs} {ino ino' : inode}
    {n : ℤ}, inode_extend_loop fuel d fs ino n = .ok (d', fs', ino') →
      inode_length ino ≤ inode_length ino' := by
  induction fuel with
  | zero =>
      intro d d' fs fs' ino ino' n h
      cases h
  | succ fuel ih =>
      intro d d' fs fs' ino ino' n h
      rw [inode_extend_loop] at h
      split at h
      · cases h
        exact le_rfl
      · obtain ⟨⟨c, fs₁⟩, -, h⟩ := Outcome.bind_eq_ok.mp h
        obtain ⟨d₁, -, h⟩ := Outcome.bind_eq_ok.mp h
        refine le_trans ?_ (ih h)
        unfold inode_length
        rw [inode.set_data_length]
        split
        · omega
        · omega

theorem inode_extend_longer {d d' : disk} {fs fs' : fat_fs} {ino ino' : inode} {size : ℤ}
    (hlt : inode_length ino < size) (h : inode_extend d fs ino size = .ok (d', fs', ino')) :
    inode_length ino ≤ inode_length ino' := by
  have htmod := Int.tmod_lt_of_pos (inode_length ino) (show (0 : ℤ) < 512 by decide)
  unfold inode_extend at h
  dsimp only at h
  split at h
  · obtain ⟨⟨start, fs₁⟩, -, h⟩ := Outcome.bind_eq_ok.mp h
    refine le_trans ?_ (inode_extend_loop_longer h)
    unfold inode_length at *
    rw [inode.set_data_length]
    split <;> omega
  · obtain ⟨⟨start, fs₁⟩, -, h⟩ := Outcome.bind_eq_ok.mp h
    refine le_trans ?_ (inode_extend_loop_longer h)
    unfold inode_length at *
    rw [inode.set_data_length]
    split <;> omega

theorem inode_write_at_longer {d d' : disk} {fs fs' : fat_fs} {ino ino' : inode} {b : Bytes}
    {size ofs n : ℤ} (h : inode_write_at d fs ino b size ofs = .ok (n, d', fs', ino')) :
    inode_length ino ≤ inode_length ino' := by
  unfold inode_write_at at h
  split at h
  · cases h
    exact le_rfl
  · dsimp only at h
    split at h
    · rename_i hlt
      obtain ⟨⟨d₁, fs₁, ino₁⟩, hext, h⟩ := Outcome.bind_eq_ok.mp h
      obtain ⟨⟨m, d₂⟩, -, h⟩ := Outcome.bind_eq_ok.mp h
      obtain ⟨d₃, -, h⟩ := Outcome.bind_eq_ok.mp h
      cases h
      exact inode_extend_longer hlt hext
    · obtain ⟨⟨d₁, fs₁, ino₁⟩, hext, h⟩ := Outcome.bind_eq_ok.mp h
      obtain ⟨⟨m, d₂⟩, -, h⟩ := Outcome.bind_eq_ok.mp h
      obtain ⟨d₃, -, h⟩ := Outcome.bind_eq_ok.mp h
      cases hext
      cases h
      exact le_rfl

theorem Outlasts.file_write_at {fs fs' : filesys} {f : ℕ} {b : Bytes} {size ofs n : ℤ}
    (h : Pintos.file_write_at fs f b size ofs = .ok (n, fs')) : Outlasts fs fs' := by
  unfold Pintos.file_write_at at h
  obtain ⟨fl, -, h⟩ := Outcome.bind_eq_ok.mp h
  obtain ⟨ino, hino, h⟩ := Outcome.bind_eq_ok.mp h
  obtain ⟨⟨m, d, fat, ino'⟩, hwrite, h⟩ := Outcome.bind_eq_ok.mp h
  cases h
  refine ⟨rfl, fun {i jno} hi => ?_⟩
  by_cases heq : i = fl.inode
  · subst heq
    obtain rfl := Option.some.inj ((filesys.get_inode_eq_ok.mp hino).symm.trans hi)
    exact ⟨ino', Function.update_self _ _ _, inode_write_at_longer hwrite⟩
  · exact ⟨jno, (Function.update_of_ne heq _ _).trans hi, le_rfl⟩

namespace vm

variable {s s' : vm} {t va p f v k : ℕ} {pg : Pintos.page} {fr : Pintos.frame} {kd : page_kind}

/-! ## Evicting -/

/-- What an eviction does, the victim's frame freed. -/
structure Evicted (s : vm) (v p : ℕ) (pg : Pintos.page) (kd : page_kind) (s' : vm) : Prop where
  kind : ∀ u, kd ≠ .uninit u
  page_at : ∀ t va, s'.page_at t va = s.page_at t va
  page : s'.page = Function.update s.page p (some { pg with frame := none, kind := kd })
  frame : s'.frame = Function.update s.frame v none
  used : s'.used = s.used
  frame_table : s'.frame_table = s.frame_table.erase v
  next_page : s'.next_page = s.next_page
  next_frame : s'.next_frame = s.next_frame
  next_proc : s'.next_proc = s.next_proc
  alive : ∀ t, (s'.proc t).alive = (s.proc t).alive
  maps : ∀ t va k, s'.Maps t va k → s.Maps t va k
  files : Outlasts s.files s'.files

theorem Listed.evict (h : Listed s none_new) (hv : s.frame v = some fr) (hp : fr.page = some p)
    (hpg : s.page p = some pg) (he : Evicted s v p pg kd s') : Listed s' none_new := by
  obtain ⟨q, t₀, va₀, hq, hat, hres⟩ := h.named hv id
  obtain rfl := Option.some.inj (hp.symm.trans hq)
  have hu : PageUpdate s s' t₀ va₀ { pg with frame := none, kind := kd } :=
    h.registered.pageUpdate hat he.page_at he.page
  have hframe : ∀ {g gr}, s'.frame g = some gr → g ≠ v ∧ s.frame g = some gr := by
    intro g gr hg
    rw [he.frame] at hg
    by_cases hgv : g = v
    · subst hgv
      rw [Function.update_self] at hg
      cases hg
    · rw [Function.update_of_ne hgv] at hg
      exact ⟨hgv, hg⟩
  have hold : ∀ {t va g}, s'.Resident t va g → s.Resident t va g := by
    intro t va g hr
    rcases hu.resident_iff.mp hr with ⟨-, -, hnone⟩ | ⟨-, hr⟩
    · cases hnone
    · exact hr
  refine ⟨?_, he.frame_table ▸ h.nodup.erase v, fun g => ?_, fun hg => ?_, fun {g gr} hg _ => ?_,
    fun hf hg => ?_, fun hg => ?_, fun hg => ?_, fun hr => ?_, fun {t va qg u} hr hk => ?_,
    fun {t va k} hk => ?_, fun {t va q} hq => ?_⟩
  · refine h.registered.congr he.page_at (fun q => ?_) he.next_page he.next_proc
      fun t ht => (he.alive t).symm.trans ht
    rw [he.page]
    by_cases hqp : q = p
    · subst hqp
      rw [Function.update_self, hpg]
      rfl
    · rw [Function.update_of_ne hqp]
  · rw [he.frame_table, h.nodup.mem_erase_iff, h.linked, he.frame]
    by_cases hgv : g = v
    · simp [hgv]
    · simp [hgv]
  · rw [he.next_frame]
    exact h.fresh (hframe hg).2
  · obtain ⟨hgv, hg⟩ := hframe hg
    obtain ⟨q, t, va, hq, hat', hr⟩ := h.named hg id
    refine ⟨q, t, va, hq, (he.page_at t va).trans hat', (hu.resident_other ?_).mpr hr⟩
    rintro ⟨rfl, rfl⟩
    exact hgv (hres.eq hr)
  · exact h.kva_inj (hframe hf).2 (hframe hg).2
  · rw [he.used]
    exact h.used (hframe hg).2
  · exact (h.counted (hframe hg).2).mono (fun x hx => hold hx) le_rfl
  · rw [he.next_frame]
    exact h.bound (hold hr)
  · by_cases heq : t = t₀ ∧ va = va₀
    · obtain ⟨rfl, rfl⟩ := heq
      rw [hu.self] at hr
      obtain rfl := Option.some.inj hr
      exact absurd hk (he.kind u)
    · rw [hu.other t va heq] at hr
      exact h.touched hr hk
  · obtain ⟨qg, hq, hkind⟩ := h.maps (he.maps t va k hk)
    by_cases heq : t = t₀ ∧ va = va₀
    · obtain ⟨rfl, rfl⟩ := heq
      exact ⟨_, hu.self, he.kind⟩
    · exact ⟨qg, (hu.other t va heq).trans hq, hkind⟩
  · rw [he.next_proc]
    exact h.owned ((he.page_at t va).symm.trans hq)

/-- **Evicting the victim**, whoever it belongs to. -/
theorem Listed.vm_evict_frame (h : Listed s none_new)
    (hrun : Pintos.vm_evict_frame s t = .ok (some v, s')) :
    ∃ fr p pg kd, s.frame v = some fr ∧ fr.page = some p ∧ s.page p = some pg
      ∧ s'.frame v = some { fr with page := none } ∧ Evicted s v p pg kd (s'.free_frame v) := by
  have htable : s'.frame_table = s.frame_table.erase v := vm_evict_frame_frame_table hrun
  obtain ⟨s₁, fr, p, pg, s₂, hv, hf, hp, hpg, hout, hsame⟩ := vm_evict_frame_cases hrun
  have hscan := vm_get_victim_sameMap hv
  rw [hscan.frame] at hf
  rw [hscan.page] at hpg
  obtain ⟨q, t₀, va₀, hq, hat, qg, hqg, hqf⟩ := h.named hf id
  obtain rfl := Option.some.inj (hp.symm.trans hq)
  obtain ⟨pg', f, fr', hpg', hpf, hf', hswapped⟩ := swap_out_cases hout
  rw [hscan.page] at hpg'
  rw [hscan.frame] at hf'
  obtain rfl := Option.some.inj (hpg.symm.trans hpg')
  -- the frame of the page is the one that names it
  have hreg := registered_eq_some.mp hqg
  obtain ⟨q', hat', hq'⟩ := hreg
  obtain rfl := Option.some.inj (hat.symm.trans hat')
  obtain rfl := Option.some.inj (hpg.symm.trans hq')
  obtain rfl := Option.some.inj (hpf.symm.trans hqf)
  obtain rfl := Option.some.inj (hf.symm.trans hf')
  have key : ∀ (s₃ : vm) (kd : page_kind), (∀ u, kd ≠ .uninit u) → SameTables s₁ s₃ →
      Outlasts s₁.files s₃.files → s₂ = s₃.unlink p pg f fr kd →
      ∃ kd, s'.frame f = some { fr with page := none } ∧ Evicted s f p pg kd (s'.free_frame f) := by
    intro s₃ kd hkd hs₃ hfiles heq
    subst heq
    have htabs := hscan.sameTables.trans hs₃
    obtain ⟨hat₃, hpage₃, hmaps₃⟩ := unlink_cleared_fields s₃ t p pg f fr kd
    refine ⟨kd, ?_, hkd, fun t' va' => ?_, ?_, ?_, ?_, htable, ?_, ?_, ?_, fun t' => ?_,
      fun t' va' k hk => ?_, ?_⟩
    · rw [hsame.frame]
      exact Function.update_self _ _ _
    · exact (hsame.page_at t' va').trans ((hat₃ t' va').trans (htabs.page_at t' va'))
    · rw [← htabs.page]
      exact hsame.page.trans hpage₃
    · show Function.update s'.frame f none = _
      rw [hsame.frame, ← htabs.frame]
      exact Function.update_idem _ _ _
    · exact hsame.used.trans htabs.used
    · exact hsame.next_page.trans htabs.next_page
    · exact hsame.next_frame.trans htabs.next_frame
    · exact hsame.next_proc.trans htabs.next_proc
    · exact (hsame.alive t').trans ((alive_modify_pte _ _ _ _ _).trans (htabs.alive t'))
    · exact (htabs.maps t' va' k).mp ((hmaps₃ t' va' k).mp
        ((hsame.sameTables.maps t' va' k).mp hk)).2
    · show Outlasts s.files s'.files
      rw [hsame.files, ← hscan.files]
      exact hfiles
  obtain ⟨kd, hlast, hkd⟩ : ∃ kd, s'.frame f = some { fr with page := none }
      ∧ Evicted s f p pg kd (s'.free_frame f) := by
    cases hswapped with
    | @anon i idx d hk hscan' hd =>
        exact key _ (.anon idx) (fun u hu => by cases hu) (.set_swap s₁ d idx true) (.refl _) rfl
    | @file fp s₃ hk hw =>
        refine key s₃ (.file fp) (fun u hu => by cases hu) (vm.WrittenBack.sameTables hw).1 ?_ rfl
        cases hw with
        | clean hd => exact .refl _
        | dirty hd hw => exact .file_write_at hw
  exact ⟨fr, p, pg, kd, hf, hp, hpg, hlast, hkd⟩

/-! ## Getting a frame -/

/-- A new frame at the end of the list. -/
theorem Listed.new_frame (h : Listed s none_new) (hused : s.used k = true)
    (hfree : ∀ {g gr}, s.frame g = some gr → gr.kva ≠ k)
    (hsame : SameMap (s.new_frame { kva := k, ref_cnt := 1, page := none }) s')
    (htable : s'.frame_table = s.frame_table ++ [s.next_frame]) :
    Listed s' (· = s.next_frame) ∧ (∀ t va, ¬ s'.Resident t va s.next_frame)
      ∧ s'.frame s.next_frame = some { kva := k, ref_cnt := 1, page := none }
      ∧ ∀ {g gr}, g ≠ s.next_frame → s'.frame g = some gr → s.frame g = some gr := by
  have hres : ∀ {t va g}, s'.Resident t va g ↔ s.Resident t va g :=
    fun {t va g} => hsame.sameTables.resident t va g
  have hunused : ∀ t va, ¬ s'.Resident t va s.next_frame :=
    fun t va hr => (h.bound (hres.mp hr)).false
  have hnew : s.frame s.next_frame = none := by
    by_contra hsome
    obtain ⟨fr, hf⟩ := Option.ne_none_iff_exists'.mp hsome
    exact (h.fresh hf).false
  have hself : s'.frame s.next_frame = some { kva := k, ref_cnt := 1, page := none } := by
    rw [hsame.frame]
    exact Function.update_self _ _ _
  have hother : ∀ {g}, g ≠ s.next_frame → s'.frame g = s.frame g := by
    intro g hg
    rw [hsame.frame]
    exact Function.update_of_ne hg _ _
  have hcases : ∀ {g gr}, s'.frame g = some gr →
      (g = s.next_frame ∧ gr = { kva := k, ref_cnt := 1, page := none })
        ∨ (g ≠ s.next_frame ∧ s.frame g = some gr) := by
    intro g gr hg
    by_cases heq : g = s.next_frame
    · subst heq
      exact .inl ⟨rfl, (Option.some.inj (hself.symm.trans hg)).symm⟩
    · exact .inr ⟨heq, (hother heq).symm.trans hg⟩
  have hregistered : ∀ t va, s'.registered t va = s.registered t va :=
    hsame.sameTables.registered
  refine ⟨⟨?_, ?_, fun g => ?_, fun {g gr} hg => ?_, fun {g gr} hg hne => ?_,
    fun {g g' gr gr'} hg hg' hk => ?_, fun {g gr} hg => ?_, fun {g gr} hg => ?_, fun hr => ?_,
    fun hr hu => ?_, fun hk => ?_, fun hq => ?_⟩, hunused, hself,
    fun {g gr} hne hg => (hother hne).symm.trans hg⟩
  · exact h.registered.congr hsame.page_at (fun q => by rw [hsame.page]; rfl) hsame.next_page
      hsame.next_proc fun t ht => (hsame.alive t).symm.trans ht
  · rw [htable, List.nodup_append]
    refine ⟨h.nodup, List.nodup_singleton _, fun g hg g' hg' heq => ?_⟩
    obtain ⟨fr, hf⟩ := (h.linked g).mp hg
    rw [heq, List.mem_singleton.mp hg', hnew] at hf
    cases hf
  · rw [htable, List.mem_append, List.mem_singleton, h.linked]
    by_cases heq : g = s.next_frame
    · subst heq
      simp [hself]
    · simp [heq, hother heq]
  · rw [hsame.next_frame]
    rcases hcases hg with ⟨rfl, -⟩ | ⟨-, hg⟩
    · exact Nat.lt_succ_self _
    · exact Nat.lt_succ_of_lt (h.fresh hg)
  · obtain ⟨q, t, va, hq, hat, hr⟩ := h.named ((hother hne).symm.trans hg) id
    exact ⟨q, t, va, hq, (hsame.page_at t va).trans hat, hres.mpr hr⟩
  · rcases hcases hg with ⟨rfl, rfl⟩ | ⟨-, hg⟩
    · rcases hcases hg' with ⟨rfl, -⟩ | ⟨-, hg'⟩
      · rfl
      · exact absurd hk (hfree hg')
    · rcases hcases hg' with ⟨rfl, rfl⟩ | ⟨-, hg'⟩
      · exact absurd hk.symm (hfree hg)
      · exact h.kva_inj hg hg' hk
  · rw [hsame.used]
    rcases hcases hg with ⟨-, rfl⟩ | ⟨-, hg⟩
    · exact hused
    · exact h.used hg
  · rcases hcases hg with ⟨rfl, rfl⟩ | ⟨-, hg⟩
    · exact .of_empty (fun x => hunused x.1 x.2) zero_le_one
    · exact (h.counted hg).mono (fun x hx => hres.mp hx) le_rfl
  · rw [hsame.next_frame]
    exact Nat.lt_succ_of_lt (h.bound (hres.mp hr))
  · exact h.touched ((hregistered _ _).symm.trans hr) hu
  · obtain ⟨qg, hq, hkind⟩ := h.maps ((hsame.sameTables.maps _ _ _).mp hk)
    exact ⟨qg, (hregistered _ _).trans hq, hkind⟩
  · rw [hsame.next_proc]
    exact h.owned ((hsame.page_at _ _).symm.trans hq)

/-- What getting a frame does: the frame `f` names nothing yet, and a page that no frame named is
as it was. -/
structure GotNew (s : vm) (f : ℕ) (s' : vm) : Prop where
  listed : Listed s' (· = f)
  unused : ∀ t va, ¬ s'.Resident t va f
  frame : ∃ k, s'.frame f = some { kva := k, ref_cnt := 1, page := none }
  others : ∀ {g gr}, g ≠ f → s'.frame g = some gr → s.frame g = some gr
  page_at : ∀ t va, s'.page_at t va = s.page_at t va
  page : ∀ {q}, ¬ s.Named q → s'.page q = s.page q
  files : Outlasts s.files s'.files

/-- **`vm_get_frame`**: a free page, or the page of a victim. -/
theorem Listed.vm_get_frame (h : Listed s none_new) (hrun : Pintos.vm_get_frame s t = .ok (f, s')) :
    GotNew s f s' := by
  obtain ⟨k, s₁, hkva, rfl, hsame, htable⟩ := vm_get_frame_linked hrun
  have hat := hsame.page_at
  rcases frame_kva_cases hkva with ⟨hpal, rfl⟩ | ⟨-, v, s₂, fr, hev, hf, rfl, rfl⟩
  · have h₁ : Listed (s.take_page k) none_new := by
      refine h.congr (fun _ _ => rfl) rfl rfl (fun j hj => ?_) rfl rfl rfl rfl (fun _ ht => ht)
        fun _ _ _ hk => h.maps hk
      rw [take_page_used, Function.update_apply]
      split
      · rfl
      · exact hj
    have hfree := palloc_get_page_free hpal
    obtain ⟨hl, hunused, hself, hother⟩ := h₁.new_frame (k := k) (Function.update_self _ _ _)
      (fun {g gr} hg heq => by
        have hgr : s.frame g = some gr := hg
        have := h.used hgr
        rw [heq, hfree] at this
        cases this) hsame htable
    exact ⟨hl, hunused, ⟨k, hself⟩, hother, hat, fun _ => by rw [hsame.page]; rfl,
      by rw [hsame.files]; exact .refl _⟩
  · obtain ⟨vr, p, pg, kd, hv, hp, hpg, hlast, he⟩ := h.vm_evict_frame hev
    obtain rfl := Option.some.inj (hlast.symm.trans hf)
    have h₁ := h.evict hv hp hpg he
    have hback : ∀ {g gr}, (s₂.free_frame v).frame g = some gr → g ≠ v ∧ s.frame g = some gr := by
      intro g gr hg
      rw [he.frame] at hg
      by_cases hgv : g = v
      · subst hgv
        rw [Function.update_self] at hg
        cases hg
      · rw [Function.update_of_ne hgv] at hg
        exact ⟨hgv, hg⟩
    have hused : (s₂.free_frame v).used vr.kva = true := by
      rw [he.used]
      exact h.used hv
    obtain ⟨hl, hunused, hself, hother⟩ := h₁.new_frame (k := vr.kva) hused
      (fun {g gr} hg hk => (hback hg).1 (h.kva_inj hv (hback hg).2 hk)) hsame htable
    refine ⟨hl, hunused, ⟨vr.kva, hself⟩, fun hne hg => (hback (hother hne hg)).2,
      fun t va => (hat t va).trans (he.page_at t va), fun {q} hno => ?_, ?_⟩
    · rw [hsame.page]
      show (s₂.free_frame v).page q = s.page q
      rw [he.page, Function.update_of_ne]
      rintro rfl
      exact hno ⟨v, vr, hv, hp⟩
    · rw [hsame.files]
      exact he.files

/-! ## A page joins a frame -/

/-- A page moves to the frame `f`, which is stored as `fr`. -/
structure Joined (s : vm) (t va p : ℕ) (pg : Pintos.page) (f : ℕ) (fr : Pintos.frame)
    (kd : page_kind) (s' : vm) : Prop where
  kind : ∀ u, kd ≠ .uninit u
  page_at : ∀ t va, s'.page_at t va = s.page_at t va
  page : s'.page = Function.update s.page p (some { pg with frame := some f, kind := kd })
  frame : s'.frame = Function.update s.frame f (some fr)
  used : s'.used = s.used
  frame_table : s'.frame_table = s.frame_table
  next_page : s'.next_page = s.next_page
  next_frame : s'.next_frame = s.next_frame
  next_proc : s'.next_proc = s.next_proc
  alive : ∀ t, (s'.proc t).alive = (s.proc t).alive
  maps : ∀ t' va' k, s'.Maps t' va' k → (t' = t ∧ va' = va) ∨ s.Maps t' va' k

/-- **A page that no other frame names joins a frame**, which names it or has named another page. -/
theorem Listed.join {new : ℕ → Prop} {fr₀ : Pintos.frame} (h : Listed s new)
    (hnew : ∀ g, g ≠ f → ¬ new g) (hp : s.page_at t va = some p) (hpg : s.page p = some pg)
    (hf : s.frame f = some fr₀) (hkva : fr.kva = fr₀.kva)
    (hcnt : Counted (fun x : ℕ × ℕ => s.Resident x.1 x.2 f ∨ x = (t, va)) fr.ref_cnt)
    (hname : fr.page = some p ∨ ¬ new f ∧ fr.page = fr₀.page ∧ fr₀.page ≠ some p)
    (hno : ∀ {g gr}, g ≠ f → s.frame g = some gr → gr.page ≠ some p)
    (hc : Joined s t va p pg f fr kd s') : Listed s' none_new := by
  have hu : PageUpdate s s' t va { pg with frame := some f, kind := kd } :=
    h.registered.pageUpdate hp hc.page_at hc.page
  have hself : s'.frame f = some fr := by
    rw [hc.frame]
    exact Function.update_self _ _ _
  have hother : ∀ {g}, g ≠ f → s'.frame g = s.frame g := by
    intro g hg
    rw [hc.frame]
    exact Function.update_of_ne hg _ _
  have hback : ∀ {g gr}, s'.frame g = some gr →
      ∃ gr₀, s.frame g = some gr₀ ∧ gr.kva = gr₀.kva := by
    intro g gr hg
    by_cases hgf : g = f
    · subst hgf
      obtain rfl := Option.some.inj (hself.symm.trans hg)
      exact ⟨fr₀, hf, hkva⟩
    · exact ⟨gr, (hother hgf).symm.trans hg, rfl⟩
  have hres : ∀ {t' va' g}, s'.Resident t' va' g →
      (t' = t ∧ va' = va ∧ g = f) ∨ s.Resident t' va' g := by
    intro t' va' g hr
    rcases hu.resident_iff.mp hr with ⟨ht, hva, hfg⟩ | ⟨-, hr⟩
    · exact .inl ⟨ht, hva, (Option.some.inj hfg).symm⟩
    · exact .inr hr
  refine ⟨?_, hc.frame_table ▸ h.nodup, fun g => ?_, fun hg => ?_, fun {g gr} hg _ => ?_,
    fun {g g' gr gr'} hg hg' hk => ?_, fun hg => ?_, fun {g gr} hg => ?_, fun hr => ?_,
    fun {t' va' qg u} hr hk => ?_, fun {t' va' k} hk => ?_, fun hq => ?_⟩
  · refine h.registered.congr hc.page_at (fun q => ?_) hc.next_page hc.next_proc
      fun t' ht => (hc.alive t').symm.trans ht
    rw [hc.page]
    by_cases hqp : q = p
    · subst hqp
      rw [Function.update_self, hpg]
      rfl
    · rw [Function.update_of_ne hqp]
  · rw [hc.frame_table, h.linked]
    by_cases hgf : g = f
    · subst hgf
      simp [hf, hself]
    · rw [hother hgf]
  · obtain ⟨gr₀, hg₀, -⟩ := hback hg
    rw [hc.next_frame]
    exact h.fresh hg₀
  · -- a frame with a name of its own keeps it
    have hkeeps : ∀ {gr₀}, s.frame g = some gr₀ → gr.page = gr₀.page → ¬ new g → gr₀.page ≠ some p →
        ∃ q t va, gr.page = some q ∧ s'.page_at t va = some q ∧ s'.Resident t va g := by
      intro gr₀ hg₀ hsame hold hne
      obtain ⟨q, t', va', hq, hat, hr⟩ := h.named hg₀ hold
      refine ⟨q, t', va', hsame.trans hq, (hc.page_at t' va').trans hat,
        (hu.resident_other ?_).mpr hr⟩
      rintro ⟨rfl, rfl⟩
      exact hne (hq.trans (hat.symm.trans hp))
    by_cases hgf : g = f
    · subst hgf
      obtain rfl := Option.some.inj (hself.symm.trans hg)
      rcases hname with hname | ⟨hold, hsame, hne⟩
      · exact ⟨p, t, va, hname, (hc.page_at t va).trans hp, hu.resident_self.mpr rfl⟩
      · exact hkeeps hf hsame hold hne
    · have hg₀ := (hother hgf).symm.trans hg
      exact hkeeps hg₀ rfl (hnew g hgf) (hno hgf hg₀)
  · obtain ⟨gr₀, hg₀, hk₀⟩ := hback hg
    obtain ⟨gr₁, hg₁, hk₁⟩ := hback hg'
    exact h.kva_inj hg₀ hg₁ (by rw [← hk₀, ← hk₁, hk])
  · obtain ⟨gr₀, hg₀, hk₀⟩ := hback hg
    rw [hc.used, hk₀]
    exact h.used hg₀
  · by_cases hgf : g = f
    · subst hgf
      obtain rfl := Option.some.inj (hself.symm.trans hg)
      refine hcnt.mono (fun x hx => ?_) le_rfl
      rcases hres hx with ⟨ht, hva, -⟩ | hr
      · exact .inr (Prod.ext ht hva)
      · exact .inl hr
    · refine (h.counted ((hother hgf).symm.trans hg)).mono (fun x hx => ?_) le_rfl
      rcases hres hx with ⟨-, -, hgf'⟩ | hr
      · exact absurd hgf' hgf
      · exact hr
  · rw [hc.next_frame]
    rcases hres hr with ⟨-, -, rfl⟩ | hr
    · exact h.fresh hf
    · exact h.bound hr
  · by_cases heq : t' = t ∧ va' = va
    · obtain ⟨rfl, rfl⟩ := heq
      obtain rfl := Option.some.inj (hu.self.symm.trans hr)
      exact absurd hk (hc.kind u)
    · exact h.touched ((hu.other t' va' heq).symm.trans hr) hk
  · by_cases heq : t' = t ∧ va' = va
    · obtain ⟨rfl, rfl⟩ := heq
      exact ⟨_, hu.self, hc.kind⟩
    · rcases hc.maps t' va' k hk with heq' | hk
      · exact absurd heq' heq
      · obtain ⟨qg, hq, hkind⟩ := h.maps hk
        exact ⟨qg, (hu.other t' va' heq).trans hq, hkind⟩
  · rw [hc.next_proc]
    exact h.owned ((hc.page_at _ _).symm.trans hq)

/-- **The new frame gets its page**, which no other frame names. -/
theorem Listed.claim (h : Listed s (· = f)) (hp : s.page_at t va = some p)
    (hpg : s.page p = some pg)
    (hf : s.frame f = some fr) (href : 1 ≤ fr.ref_cnt) (hunused : ∀ t va, ¬ s.Resident t va f)
    (hno : ∀ {g gr}, g ≠ f → s.frame g = some gr → gr.page ≠ some p)
    (hc : Joined s t va p pg f { fr with page := some p } kd s') : Listed s' none_new := by
  have hone : Counted (fun x : ℕ × ℕ => s.Resident x.1 x.2 f ∨ x = (t, va)) (0 + 1) :=
    (Counted.of_empty (fun x => hunused x.1 x.2) le_rfl).insert fun _ hx => hx
  have hkva : ({ fr with page := some p } : Pintos.frame).kva = fr.kva := rfl
  exact h.join (fun _ hg => hg) hp hpg hf hkva (hone.mono (fun _ hx => hx) href) (.inl rfl) hno hc

/-- Claiming a page attaches the frame, then fills it. -/
theorem SwappedIn.joined {done : Bool} (h : SwappedIn (s.attach t p pg f fr) p
    { pg with frame := some f } fr.kva done s') :
    ∃ kd, Joined s t pg.va p pg f { fr with page := some p } kd s' := by
  have hself : (s.attach t p pg f fr).page p = some { pg with frame := some f } :=
    Function.update_self _ _ _
  -- whatever kind the page was, `s₁` has the contents and the page is stored last
  have key : ∀ (s₁ : vm) (kd : page_kind), (∀ u, kd ≠ .uninit u) →
      SameTables (s.attach t p pg f fr) s₁ → s₁.frame_table = s.frame_table →
      s' = s₁.set_page p { pg with frame := some f, kind := kd } →
      ∃ kd, Joined s t pg.va p pg f { fr with page := some p } kd s' := by
    intro s₁ kd hkd hs₁ htable heq
    subst heq
    refine ⟨kd, hkd, fun t' va' => ?_, ?_, hs₁.frame, hs₁.used, htable, hs₁.next_page,
      hs₁.next_frame, hs₁.next_proc, fun t' => ?_, fun t' va' k hk => ?_⟩
    · exact (hs₁.page_at t' va').trans (page_at_set_pte _ _ _ _ _ _)
    · show Function.update s₁.page p _ = _
      rw [hs₁.page]
      exact Function.update_idem _ _ _
    · exact (hs₁.alive t').trans (alive_set_pte _ _ _ _ _)
    · have hk' : (s.attach t p pg f fr).Maps t' va' k := (hs₁.maps t' va' k).mp hk
      unfold vm.attach at hk'
      rcases (maps_set_pte _ _ _ _ _ _ _).mp hk' with ⟨ht, hva, -⟩ | ⟨-, hk'⟩
      · exact .inl ⟨ht, hva⟩
      · exact .inr hk'
  cases h with
  | @uninit u kd m done hk hkd =>
      refine key ((s.attach t p pg f fr).set_mem fr.kva m) kd (fun u' hu => ?_)
        (.set_mem _ _ _) rfl rfl
      rcases hkd with rfl | ⟨fp, rfl⟩
      · cases hu
      · cases hu
  | @stay i hk hi =>
      refine key (s.attach t p pg f fr) pg.kind (fun u hu => ?_)
        (.refl _) rfl (set_page_self hself).symm
      rw [show pg.kind = .anon i from hk] at hu
      cases hu
  | @anon i m hk hi hm =>
      exact key (((s.attach t p pg f fr).set_mem fr.kva m).set_swap (s.attach t p pg f fr).swap_disk
        i.toNat false) (.anon (-1)) (fun u hu => by cases hu)
        ((SameTables.set_mem _ _ _).trans (.set_swap _ _ _ _)) rfl rfl
  | @file fp m done hk hload =>
      refine key ((s.attach t p pg f fr).set_mem fr.kva m) pg.kind (fun u hu => ?_)
        (.set_mem _ _ _) rfl (set_page_self ?_).symm
      · rw [show pg.kind = .file fp from hk] at hu
        cases hu
      · exact hself

end vm

/-! ## Loading a page -/

/-- The file has `r` bytes from offset `o` on. -/
def FileReaches (fs : filesys) (f : ℕ) (o : ℤ) (r : ℕ) : Prop :=
  ∃ fl ino, fs.file f = some fl ∧ fs.inode fl.inode = some ino ∧ 0 ≤ i32 r
    ∧ (0 < i32 r → o + i32 r ≤ inode_length ino)

theorem Outlasts.reaches {fs fs' : filesys} {f r : ℕ} {o : ℤ} (h : Outlasts fs fs')
    (hr : FileReaches fs f o r) : FileReaches fs' f o r := by
  obtain ⟨fl, ino, hf, hi, hpos, hlen⟩ := hr
  obtain ⟨ino', hi', hle⟩ := h.inode hi
  exact ⟨fl, ino', h.file ▸ hf, hi', hpos, fun hlt => (hlen hlt).trans hle⟩

theorem inode_read_at_loop_whole {d : disk} {fs : fat_fs} {ino : inode} {fuel : ℕ} :
    ∀ {b b' : Bytes} {size ofs done n : ℤ}, 0 ≤ size → (0 < size → ofs + size ≤ inode_length ino) →
      inode_read_at_loop d fs ino fuel b size ofs done = .ok (n, b') → n = done + size := by
  induction fuel with
  | zero =>
      intro b b' size ofs done n _ _ h
      cases h
  | succ fuel ih =>
      intro b b' size ofs done n hpos hlen h
      rw [inode_read_at_loop] at h
      split at h
      · cases h
        omega
      · rename_i hlt
        have hlt : 0 < size := not_le.mp hlt
        have hlen := hlen hlt
        have htmod := Int.tmod_lt_of_pos ofs (show (0 : ℤ) < 512 by decide)
        obtain ⟨sector, -, h⟩ := Outcome.bind_eq_ok.mp h
        dsimp only at h
        generalize hchunk : (if size < (if inode_length ino - ofs < 512 - ofs.tmod 512 then
          inode_length ino - ofs else 512 - ofs.tmod 512) then size else
            if inode_length ino - ofs < 512 - ofs.tmod 512 then inode_length ino - ofs
            else 512 - ofs.tmod 512) = chunk at h
        have hbounds : 0 < chunk ∧ chunk ≤ size := by
          rw [← hchunk]
          split_ifs <;> omega
        rw [if_neg (by omega)] at h
        obtain ⟨bytes, -, h⟩ := Outcome.bind_eq_ok.mp h
        have hrest := ih (by omega) (by omega) h
        omega

/-- **A read inside the file**, if it returns, delivers all that is asked for. -/
theorem FileReaches.read {fs : filesys} {f r : ℕ} {o n : ℤ} {b b' : Bytes}
    (hr : FileReaches fs f o r) (h : file_read_at fs f b (i32 r) o = .ok (n, b')) : n = i32 r := by
  obtain ⟨fl, ino, hf, hi, hpos, hlen⟩ := hr
  unfold file_read_at at h
  rw [filesys.get_file_eq_ok.mpr hf, Outcome.ok_bind, filesys.get_inode_eq_ok.mpr hi,
    Outcome.ok_bind] at h
  have hcount := inode_read_at_loop_whole hpos hlen h
  omega

/-- The part of a file that a page is loaded from. -/
def file_part : page_kind → Option lazy_load_info
  | .uninit u =>
      match u.init, u.aux with
      | some .lazy_load_segment, .info i => some i
      | some .lazy_load_segment, .mmap i _ => some i
      | _, _ => none
  | .anon _ => none
  | .file fp =>
      some { file := fp.file, offset := fp.offset, readbyte := fp.read_byte, zerobyte := fp.zero_byte }

/-- The contents of the page can be loaded: from its swap slot, or from its file. -/
def Loads (fs : filesys) (kd : page_kind) : Prop :=
  (∀ i, kd = .anon i → 0 ≤ i)
    ∧ ∀ i, file_part kd = some i → FileReaches fs i.file i.offset i.readbyte

theorem Outlasts.loads {fs fs' : filesys} {kd : page_kind} (h : Outlasts fs fs')
    (hl : Loads fs kd) : Loads fs' kd := ⟨hl.1, fun i hi => h.reaches (hl.2 i hi)⟩

section Load

variable {s s' : vm} {p kva : ℕ} {pg : page} {done : Bool}

theorem load_page_reaches {f r z : ℕ} {o : ℤ} (hr : FileReaches s.files f o r)
    (h : load_page s kva f o r z = .ok (done, s')) : done = true := by
  obtain ⟨n, b, hread, ⟨-, hne, -⟩ | ⟨hdone, -⟩⟩ := load_page_eq_ok h
  · exact absurd (hr.read hread) hne
  · exact hdone

theorem run_page_initializer_files {u : uninit_page} (h : run_page_initializer s p u kva = .ok s') :
    s'.files = s.files := by
  unfold run_page_initializer at h
  cases hi : u.page_initializer with
  | anon_initializer =>
      rw [hi] at h
      dsimp only at h
      unfold anon_initializer at h
      obtain ⟨pg, -, h⟩ := Outcome.bind_eq_ok.mp h
      obtain ⟨x, -, h⟩ := Outcome.bind_eq_ok.mp h
      dsimp only at h
      rw [← Outcome.ok.inj h]
      split <;> rfl
  | file_backed_initializer =>
      rw [hi] at h
      dsimp only at h
      unfold file_backed_initializer at h
      cases haux : u.aux with
      | null =>
          rw [haux] at h
          cases h
      | info i =>
          rw [haux] at h
          cases h
      | mmap i c =>
          rw [haux] at h
          obtain ⟨pg, -, h⟩ := Outcome.bind_eq_ok.mp h
          rw [← Outcome.ok.inj h]
          rfl

/-- The record that `lazy_load_segment` gets is that of the page. -/
theorem uninit_aux_file_part {u : uninit_page} {i : lazy_load_info} {init : vm_initializer}
    (hinit : u.init = some init) (h : uninit_aux u = .ok (.info i)) :
    file_part (.uninit u) = some i := by
  cases init
  unfold uninit_aux at h
  dsimp only [file_part]
  rw [hinit]
  split at h
  · cases haux : u.aux with
    | null =>
        rw [haux] at h
        cases h
    | info j =>
        rw [haux] at h
        cases h
    | mmap j c =>
        rw [haux] at h
        obtain rfl := aux_ptr.info.inj (Outcome.ok.inj h)
        rfl
  · rw [Outcome.ok.inj h]

theorem swap_in_loads (hpg : s.page p = some pg) (hl : Loads s.files pg.kind)
    (h : swap_in s p kva = .ok (done, s')) : done = true := by
  unfold swap_in at h
  obtain ⟨pg', hpg', h⟩ := Outcome.bind_eq_ok.mp h
  obtain rfl := Option.some.inj ((vm.get_page_eq_ok.mp hpg').symm.trans hpg)
  cases hk : pg'.kind with
  | uninit u =>
      rw [hk] at h hl
      dsimp only at h
      unfold uninit_initialize at h
      obtain ⟨aux, haux, h⟩ := Outcome.bind_eq_ok.mp h
      obtain ⟨s₁, hs₁, h⟩ := Outcome.bind_eq_ok.mp h
      have hfiles := run_page_initializer_files hs₁
      cases hinit : u.init with
      | none =>
          rw [hinit] at h
          exact (Outcome.ok_pair h).1.symm
      | some init =>
          rw [hinit] at h
          have h : lazy_load_segment s₁ p aux = .ok (done, s') := by
            cases init
            exact h
          cases aux with
          | null => cases h
          | mmap i c => cases h
          | info i =>
              obtain ⟨pg₁, -, h⟩ := Outcome.bind_eq_ok.mp h
              obtain ⟨x, -, h⟩ := Outcome.bind_eq_ok.mp h
              have hreach := hl.2 i (uninit_aux_file_part hinit haux)
              exact load_page_reaches (hfiles ▸ hreach) h
  | anon i =>
      rw [hk] at h
      dsimp only at h
      unfold anon_swap_in at h
      rw [if_neg (not_lt.mpr (hl.1 i hk))] at h
      obtain ⟨pg₁, -, h⟩ := Outcome.bind_eq_ok.mp h
      obtain ⟨b, -, h⟩ := Outcome.bind_eq_ok.mp h
      exact (Outcome.ok_pair h).1.symm
  | file fp =>
      rw [hk] at h hl
      exact load_page_reaches (hl.2 _ rfl) h

end Load

namespace vm

variable {s s' : vm} {t va p f : ℕ} {pg : Pintos.page} {fr : Pintos.frame} {done : Bool}

/-! ## Faults -/

/-- **A claim** of a page that no frame names. -/
theorem Listed.vm_do_claim_page (h : Listed s none_new) (hp : s.page_at t va = some p)
    (hpg : s.page p = some pg) (hno : ¬ s.Named p)
    (hrun : Pintos.vm_do_claim_page s t p = .ok (done, s')) :
    Listed s' none_new ∧ (Loads s.files pg.kind → done = true) := by
  obtain ⟨f, s₁, fr, pg₁, hget, hf, hpg₁, hin, hswapped⟩ := vm_do_claim_page_cases hrun
  have hnew := h.vm_get_frame hget
  obtain rfl := Option.some.inj ((hnew.page hno).symm.trans hpg₁ |>.symm.trans hpg)
  obtain ⟨pg', hpg', rfl⟩ := h.registered.page hp
  obtain rfl := Option.some.inj (hpg.symm.trans hpg')
  obtain ⟨k, hfk⟩ := hnew.frame
  obtain rfl := Option.some.inj (hf.symm.trans hfk)
  obtain ⟨kd, hjoined⟩ := SwappedIn.joined hswapped
  refine ⟨hnew.listed.claim ((hnew.page_at t pg₁.va).trans hp) hpg₁ hf le_rfl hnew.unused
    (fun {g gr} hne hg hq => hno ⟨g, gr, hnew.others hne hg, hq⟩) hjoined, fun hl => ?_⟩
  have hpage : (s₁.attach t p pg₁ f { kva := k, ref_cnt := 1, page := none }).page p
      = some { pg₁ with frame := some f } := Function.update_self _ _ _
  exact swap_in_loads hpage (hnew.files.loads hl) hin

/-- A page that is alone on its frame becomes writable. -/
theorem Listed.make_writable {cf : ℕ} {cfr : Pintos.frame} (h : Listed s none_new)
    (hp : s.page_at t pg.va = some p) (hpg : s.page p = some pg) (hpf : pg.frame = some cf)
    (hcf : s.frame cf = some cfr) (href : cfr.ref_cnt ≤ 1) :
    Listed (s.make_writable t p pg cf cfr) none_new := by
  have hreg := registered_eq_some.mpr ⟨p, hp, hpg⟩
  -- the frame names the page already
  have hself : s.set_frame cf { cfr with page := some p } = s := by
    obtain ⟨q, t', va', hq, hat, hr⟩ := h.named hcf id
    have heq : (t', va') = (t, pg.va) := by
      by_contra hne
      have := (h.counted hcf).two_le (a := (t', va')) (b := (t, pg.va)) hr ⟨pg, hreg, hpf⟩ hne
      omega
    rw [(Prod.mk.inj heq).1, (Prod.mk.inj heq).2, hp] at hat
    unfold vm.set_frame
    rw [hat, ← hq, ← hcf, Function.update_eq_self]
  have hkind : ∀ u, pg.kind ≠ .uninit u := by
    intro u hu
    rw [h.touched hreg hu] at hpf
    cases hpf
  unfold vm.make_writable
  rw [hself]
  refine h.congr (fun t' va' => page_at_set_pte _ _ _ _ _ _) rfl rfl (fun _ hk => hk)
    rfl rfl rfl rfl
    (fun t' ht' => (alive_set_pte s t pg.va t' _).symm.trans ht') fun t' va' k hk => ?_
  rcases (maps_set_pte _ _ _ _ _ _ _).mp hk with ⟨rfl, rfl, -⟩ | ⟨-, hk⟩
  · exact ⟨pg, hreg, hkind⟩
  · exact h.maps hk

/-- A frame never names a page that does not exist yet. -/
theorem Listed.not_named_next (h : Listed s none_new) : ¬ s.Named s.next_page := by
  rintro ⟨g, gr, hg, hq⟩
  obtain ⟨q, t, va, hq', hat, -⟩ := h.named hg id
  obtain rfl := Option.some.inj (hq.symm.trans hq')
  obtain ⟨qg, hqg, -⟩ := h.registered.page hat
  exact (h.registered.fresh hqg).false

/-- **The stack grows.** -/
theorem Listed.vm_stack_growth (h : Listed s none_new) (ht : t < s.next_proc)
    (hround : pg_round_down va = va) (hnone : s.page_at t va = none)
    (hrun : Pintos.vm_stack_growth s t va = .ok s') : Listed s' none_new := by
  obtain ⟨done, hclaim⟩ := vm_stack_growth_cases hround hnone hrun
  have h₁ := h.register (stack_page va) ht hround hnone rfl
  have hp : (s.register t (stack_page va)).page_at t va = some s.next_page := by
    rw [page_at_register, if_pos ⟨rfl, rfl⟩]
  exact (h₁.vm_do_claim_page hp (Function.update_self _ _ _) h.not_named_next hclaim).1

/-- The fault at `va` neither copies a shared frame, nor claims a page that a frame names or whose
contents do not load, nor kills a process that has a page named by a frame. -/
def FaultOk (s : vm) (t va : ℕ) (write : Bool) : Prop :=
  match s.page_at t va with
  | none => is_stack_growth s t va = true ∨ s.ExitOk t
  | some p => ∀ pg, s.page p = some pg →
      if write && !pg.writable then s.ExitOk t
      else if write && pg.frame.isSome then ∀ fr, pg.frame.bind s.frame = some fr → fr.ref_cnt ≤ 1
      else ¬ s.Named p ∧ Loads s.files pg.kind

/-- **One page fault.** -/
theorem Listed.vm_try_handle_fault {addr : ℕ} {write : Bool} (h : Listed s none_new)
    (ht : t < s.next_proc) (hok : s.FaultOk t (pg_round_down addr) write)
    (hrun : Pintos.vm_try_handle_fault s t addr write = .ok (done, s')) :
    Listed s' none_new ∧ (done = false → s'.ExitOk t) := by
  unfold Pintos.vm_try_handle_fault at hrun
  dsimp only [spt_find_page] at hrun
  rw [pg_round_down_idem] at hrun
  unfold FaultOk at hok
  cases hp : s.page_at t (pg_round_down addr) with
  | none =>
      rw [hp] at hrun hok
      dsimp only at hrun hok
      split at hrun
      · obtain ⟨s₁, hgrow, hrun⟩ := Outcome.bind_eq_ok.mp hrun
        obtain ⟨rfl, rfl⟩ := Outcome.ok_pair hrun
        exact ⟨h.vm_stack_growth ht (pg_round_down_idem addr) hp hgrow, nofun⟩
      · rename_i hno
        obtain ⟨rfl, rfl⟩ := Outcome.ok_pair hrun
        exact ⟨h, fun _ => hok.resolve_left hno⟩
  | some p =>
      rw [hp] at hrun hok
      obtain ⟨pg, hpg, hrun⟩ := Outcome.bind_eq_ok.mp hrun
      have hpg := get_page_eq_ok.mp hpg
      have hok := hok pg hpg
      obtain ⟨pg', hpg', hva⟩ := h.registered.page hp
      obtain rfl := Option.some.inj (hpg.symm.trans hpg')
      by_cases hro : (write && !pg.writable) = true
      · rw [if_pos hro] at hrun hok
        obtain ⟨rfl, rfl⟩ := Outcome.ok_pair hrun
        exact ⟨h, fun _ => hok⟩
      · rw [if_neg hro] at hrun hok
        by_cases hwp : (write && pg.writable && pg.frame.isSome) = true
        · rw [if_pos hwp] at hrun
          simp only [Bool.and_eq_true] at hwp
          rw [if_pos (by simp [hwp.1.1, hwp.2])] at hok
          obtain ⟨rfl, hcase⟩ := vm_handle_wp_cases hrun
          refine ⟨?_, nofun⟩
          cases hcase with
          | @copy pg₁ pg₂ cf f cfr cfr₂ fr s₁ hpg₁ hpf hcf href hget hfr hpg₂ hcf₂ =>
              obtain rfl := Option.some.inj (hpg.symm.trans hpg₁)
              have hle := hok cfr (by rw [hpf]; exact hcf)
              omega
          | @own pg₁ cf cfr hpg₁ hpf hcf href =>
              obtain rfl := Option.some.inj (hpg.symm.trans hpg₁)
              exact h.make_writable (hva ▸ hp) hpg hpf hcf href
        · rw [if_neg hwp] at hrun
          have hclaim : ¬ (write && pg.frame.isSome) = true := by
            simp only [Bool.and_eq_true, Bool.not_eq_true', not_and, Bool.not_eq_false] at hro hwp ⊢
            intro hw
            exact hwp ⟨hw, hro hw⟩
          rw [if_neg hclaim] at hok
          obtain ⟨hl, hdone⟩ := h.vm_do_claim_page hp hpg hok.1 hrun
          refine ⟨hl, fun hfalse => ?_⟩
          rw [hdone hok.2] at hfalse
          cases hfalse

/-! ## Accesses -/

/-- If the access faults, the fault is one that `FaultOk` allows. -/
def AccessKeeps (s : vm) (t addr rsp : ℕ) (write : Bool) : Prop :=
  pte_allows s t addr write = none → (s.set_rsp t rsp).FaultOk t (pg_round_down addr) write

theorem Listed.user_access {addr rsp : ℕ} {write : Bool} {e : Option pte} (h : Listed s none_new)
    (ht : t < s.next_proc) (hok : s.AccessKeeps t addr rsp write)
    (hrun : Pintos.user_access s t addr rsp write = .ok (e, s')) :
    Listed s' none_new ∧ ∀ e', e = some e' → s'.pte_at t (pg_round_down addr) = some e' := by
  unfold Pintos.user_access at hrun
  cases hdir : pte_allows s t addr write with
  | some e' =>
      rw [hdir] at hrun
      obtain ⟨rfl, rfl⟩ := Outcome.ok_pair hrun
      refine ⟨h, fun e'' heq => ?_⟩
      obtain rfl := Option.some.inj heq
      exact (pte_allows_eq_some hdir).1
  | none =>
      rw [hdir] at hrun
      obtain ⟨⟨handled, s₁⟩, hfault, hrun⟩ := Outcome.bind_eq_ok.mp hrun
      dsimp only at hrun
      have h₀ : Listed (s.set_rsp t rsp) none_new := h.same (SameMap.set_rsp s t rsp).sameTables rfl
      obtain ⟨h₁, hexit⟩ := h₀.vm_try_handle_fault ht (hok hdir) hfault
      cases handled with
      | true =>
          rw [if_pos rfl] at hrun
          cases hallow : pte_allows s₁ t addr write with
          | none =>
              rw [hallow] at hrun
              cases hrun
          | some e' =>
              rw [hallow] at hrun
              obtain ⟨rfl, rfl⟩ := Outcome.ok_pair hrun
              refine ⟨h₁, fun e'' heq => ?_⟩
              obtain rfl := Option.some.inj heq
              exact (pte_allows_eq_some hallow).1
      | false =>
          rw [if_neg Bool.false_ne_true] at hrun
          obtain ⟨s₂, hcleanup, hrun⟩ := Outcome.bind_eq_ok.mp hrun
          obtain ⟨rfl, rfl⟩ := Outcome.ok_pair hrun
          exact ⟨h₁.process_cleanup (hexit rfl) hcleanup, nofun⟩

theorem Listed.user_read {addr rsp : ℕ} {b : Option UInt8} (h : Listed s none_new)
    (ht : t < s.next_proc) (hok : s.AccessKeeps t addr rsp false)
    (hrun : Pintos.user_read s t addr rsp = .ok (b, s')) : Listed s' none_new := by
  unfold Pintos.user_read at hrun
  obtain ⟨⟨e, s₁⟩, hacc, hrun⟩ := Outcome.bind_eq_ok.mp hrun
  obtain ⟨h₁, hpte⟩ := h.user_access ht hok hacc
  cases e with
  | none =>
      obtain ⟨rfl, rfl⟩ := Outcome.ok_pair hrun
      exact h₁
  | some e =>
      obtain ⟨rfl, rfl⟩ := Outcome.ok_pair hrun
      exact h₁.same (.set_pte s₁ (hpte e rfl) rfl rfl) rfl

theorem Listed.user_write {addr rsp : ℕ} {b : UInt8} (h : Listed s none_new)
    (ht : t < s.next_proc) (hok : s.AccessKeeps t addr rsp true)
    (hrun : Pintos.user_write s t addr rsp b = .ok (done, s')) : Listed s' none_new := by
  unfold Pintos.user_write at hrun
  obtain ⟨⟨e, s₁⟩, hacc, hrun⟩ := Outcome.bind_eq_ok.mp hrun
  obtain ⟨h₁, hpte⟩ := h.user_access ht hok hacc
  cases e with
  | none =>
      obtain ⟨rfl, rfl⟩ := Outcome.ok_pair hrun
      exact h₁
  | some e =>
      obtain ⟨rfl, rfl⟩ := Outcome.ok_pair hrun
      exact h₁.same ((SameTables.set_mem s₁ e.kva _).trans (.set_pte _ (hpte e rfl) rfl rfl)) rfl

end vm

end Pintos
