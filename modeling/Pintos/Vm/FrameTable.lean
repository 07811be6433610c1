/-
The frame table.

A frame is linked when it is got and unlinked when it is evicted. `Listed` says what the next
eviction relies on: a linked frame is not freed and names a page that is registered and has it.
Nothing is assumed about whose frames are evicted, so page tables and pages need not agree here.
-/
import Pintos.Vm.Conserve

set_option autoImplicit false

namespace Pintos

theorem frame_table_split_eq_erase (l : List ℕ) (f : ℕ) :
    (frame_table_split l f).1 ++ (frame_table_split l f).2 = l.erase f := by
  unfold frame_table_split
  induction l with
  | nil => rfl
  | cons g l ih =>
      by_cases hg : g = f
      · simp [hg]
      · rw [List.erase_cons_tail (by simpa using hg)]
        simp [hg, ← ih]

namespace vm

variable {s s' : vm} {t va p f v : ℕ} {pg : Pintos.page} {fr : Pintos.frame}

/-- What holds of the frame table between events; the frames that are `new` name no page yet. -/
structure Listed (s : vm) (new : ℕ → Prop) : Prop where
  registered : s.Registered
  nodup : s.frame_table.Nodup
  linked : ∀ f, f ∈ s.frame_table ↔ ∃ fr, s.frame f = some fr
  fresh : ∀ {f fr}, s.frame f = some fr → f < s.next_frame
  named : ∀ {f fr}, s.frame f = some fr → ¬ new f →
    ∃ p t va, fr.page = some p ∧ s.page_at t va = some p ∧ s.Resident t va f
  kva_inj : ∀ {f g fr gr}, s.frame f = some fr → s.frame g = some gr → gr.kva = fr.kva → g = f
  used : ∀ {f fr}, s.frame f = some fr → s.used fr.kva = true
  counted : ∀ {f fr}, s.frame f = some fr
    → Counted (fun x : ℕ × ℕ => s.Resident x.1 x.2 f) fr.ref_cnt
  bound : ∀ {t va f}, s.Resident t va f → f < s.next_frame
  touched : ∀ {t va pg u}, s.registered t va = some pg → pg.kind = .uninit u → pg.frame = none
  maps : ∀ {t va k}, s.Maps t va k → ∃ pg, s.registered t va = some pg ∧ ∀ u, pg.kind ≠ .uninit u
  owned : ∀ {t va p}, s.page_at t va = some p → t < s.next_proc

/-- No frame on the list. -/
def none_new : ℕ → Prop := fun _ => False

variable {new : ℕ → Prop}

/-! ## Changes that do not touch the list -/

theorem Listed.congr (h : Listed s new) (hat : ∀ t va, s'.page_at t va = s.page_at t va)
    (hpage : s'.page = s.page) (hframe : s'.frame = s.frame)
    (hused : ∀ k, s.used k = true → s'.used k = true)
    (htable : s'.frame_table = s.frame_table) (hnp : s'.next_page = s.next_page)
    (hnf : s'.next_frame = s.next_frame) (hprocs : s'.next_proc = s.next_proc)
    (halive : ∀ t, (s'.proc t).alive = true → (s.proc t).alive = true)
    (hmaps : ∀ t va k, s'.Maps t va k →
      ∃ pg, s.registered t va = some pg ∧ ∀ u, pg.kind ≠ .uninit u) : Listed s' new := by
  have hreg : ∀ t va, s'.registered t va = s.registered t va := fun t va =>
    registered_congr (hat t va) fun _ _ => by rw [hpage]
  have hres : ∀ {t va f}, s'.Resident t va f ↔ s.Resident t va f := by
    intro t va f
    unfold Resident
    rw [hreg]
  refine ⟨h.registered.congr hat (fun p => by rw [hpage]) hnp hprocs halive, htable ▸ h.nodup,
    fun f => ?_, fun hf => ?_, fun hf hnew => ?_, fun hf hg => ?_, fun hf => ?_, fun hf => ?_,
    fun hr => ?_, fun hr => ?_, fun hk => ?_, fun hp => ?_⟩
  · rw [htable, hframe, h.linked]
  · rw [hframe] at hf
    rw [hnf]
    exact h.fresh hf
  · rw [hframe] at hf
    obtain ⟨p, t, va, hp, hat', hr⟩ := h.named hf hnew
    exact ⟨p, t, va, hp, (hat t va).trans hat', hres.mpr hr⟩
  · rw [hframe] at hf hg
    exact h.kva_inj hf hg
  · rw [hframe] at hf
    exact hused _ (h.used hf)
  · rw [hframe] at hf
    exact (h.counted hf).mono (fun x hx => hres.mp hx) le_rfl
  · rw [hnf]
    exact h.bound (hres.mp hr)
  · exact h.touched ((hreg _ _).symm.trans hr)
  · obtain ⟨pg, hpg, hkind⟩ := hmaps _ _ _ hk
    exact ⟨pg, (hreg _ _).trans hpg, hkind⟩
  · rw [hprocs]
    exact h.owned ((hat _ _).symm.trans hp)

theorem Listed.same (h : Listed s new) (hs : SameTables s s')
    (htable : s'.frame_table = s.frame_table) : Listed s' new :=
  h.congr hs.page_at hs.page hs.frame (fun k hk => by rw [hs.used]; exact hk) htable hs.next_page
    hs.next_frame hs.next_proc
    (fun t ht => (hs.alive t).symm.trans ht) fun t va k hk => h.maps ((hs.maps t va k).mp hk)

/-- An entry of a page table that is no longer present. -/
theorem Listed.cleared (h : Listed s new) (t va : ℕ) : Listed (pml4_cleared s t va) new :=
  h.congr (s.page_at_modify_pte t va · · _) rfl rfl (fun _ hk => hk) rfl rfl rfl rfl
    (fun t' ht' => (s.alive_modify_pte t va t' _).symm.trans ht')
    fun t' va' k hk => h.maps ((maps_cleared s t va t' va' k).mp hk).2

/-- A process with no pages is gone. -/
theorem Listed.drop_process (h : Listed s new) (t : ℕ) : Listed (s.drop_process t) new := by
  refine h.congr (fun t' va => ?_) rfl rfl (fun _ hk => hk) rfl rfl rfl rfl (fun t' ht' => ?_)
    fun t' va k hk => ?_
  · unfold vm.page_at
    by_cases ht : t' = t
    · simp [ht]
    · simp [ht]
  · by_cases ht : t' = t
    · simp [ht] at ht'
    · simpa [ht] using ht'
  · apply h.maps (k := k)
    obtain ⟨e, he, hrest⟩ := hk
    unfold vm.pte_at at he
    by_cases ht : t' = t
    · simp [ht] at he
    · refine ⟨e, ?_, hrest⟩
      unfold vm.pte_at
      simpa [ht] using he

/-- What a new entry of a table of pages does to what is registered. -/
theorem registered_register (hr : s.Registered) (t : ℕ) (pg : Pintos.page) (t' va' : ℕ) :
    (s.register t pg).registered t' va'
      = if t' = t ∧ va' = pg.va then some pg else s.registered t' va' := by
  unfold vm.registered
  rw [page_at_register]
  by_cases heq : t' = t ∧ va' = pg.va
  · rw [if_pos heq, if_pos heq]
    exact Function.update_self _ _ _
  · rw [if_neg heq, if_neg heq]
    cases hq : s.page_at t' va' with
    | none => rfl
    | some q =>
        obtain ⟨qg, hqg, -⟩ := hr.page hq
        exact Function.update_of_ne (hr.fresh hqg).ne _ _

/-- A new page where there was none. -/
theorem Listed.register (h : Listed s new) (pg : Pintos.page) (ht : t < s.next_proc)
    (hround : pg_round_down pg.va = pg.va) (hnone : s.page_at t pg.va = none)
    (hframe : pg.frame = none) : Listed (s.register t pg) new := by
  have hreg := registered_register h.registered t pg
  have hres : ∀ {t' va' f}, (s.register t pg).Resident t' va' f ↔ s.Resident t' va' f := by
    intro t' va' f
    unfold Resident
    rw [hreg]
    by_cases heq : t' = t ∧ va' = pg.va
    · obtain ⟨rfl, rfl⟩ := heq
      have hno : s.registered t' pg.va = none := by
        unfold vm.registered
        rw [hnone]
        rfl
      simp [hno, hframe]
    · rw [if_neg heq]
  have hmaps : ∀ {t' va' k}, (s.register t pg).Maps t' va' k ↔ s.Maps t' va' k := by
    intro t' va' k
    unfold vm.register Maps
    rw [pte_at_set_spt]
    rfl
  refine ⟨h.registered.register t pg hround, h.nodup, h.linked, h.fresh, fun hf hnew => ?_,
    h.kva_inj, h.used, fun hf => (h.counted hf).mono (fun x hx => hres.mp hx) le_rfl,
    fun hr => h.bound (hres.mp hr), fun hr hu => ?_, fun {t' va' k} hk => ?_,
      fun {t' va' q} hq => ?_⟩
  · obtain ⟨p, t', va', hp, hat, hr⟩ := h.named hf hnew
    refine ⟨p, t', va', hp, ?_, hres.mpr hr⟩
    rw [page_at_register, if_neg]
    · exact hat
    · rintro ⟨rfl, rfl⟩
      rw [hnone] at hat
      cases hat
  · rw [hreg] at hr
    split at hr
    · obtain rfl := Option.some.inj hr
      exact hframe
    · exact h.touched hr hu
  · obtain ⟨qg, hq, hkind⟩ := h.maps (hmaps.mp hk)
    refine ⟨qg, ?_, hkind⟩
    rw [hreg, if_neg]
    · exact hq
    · rintro ⟨rfl, rfl⟩
      obtain ⟨q, hat, -⟩ := registered_eq_some.mp hq
      rw [hnone] at hat
      cases hat
  · rw [page_at_register] at hq
    split at hq
    · rename_i heq
      exact heq.1 ▸ ht
    · exact h.owned hq

/-! ## Destroying a page -/

/-- What destroying a page does if others have its frame too. -/
structure Discarded (s : vm) (t p : ℕ) (pg : Pintos.page) (s' : vm) : Prop where
  frame : ∃ s₁, drop_ref s pg.frame = .ok s₁ ∧ s'.frame = s₁.frame
  used : s'.used = s.used
  frame_table : s'.frame_table = s.frame_table
  word : s'.lazy_load_segment_word = s.lazy_load_segment_word
  page : s'.page = Function.update s.page p none
  next_page : s'.next_page = s.next_page
  next_proc : s'.next_proc = s.next_proc
  next_frame : s'.next_frame = s.next_frame
  page_at : ∀ t' va', s'.page_at t' va' = s.page_at t' va'
  alive : ∀ t', (s'.proc t').alive = (s.proc t').alive
  maps : ∀ {t' va' k}, s'.Maps t' va' k →
    s.Maps t' va' k ∧ (t' = t → va' = pg.va → ∃ u, pg.kind = .uninit u)

theorem write_back_dirty_frame_table {fp : file_page} {done : Bool}
    (h : write_back_dirty s t pg fp = .ok (done, s')) :
    s'.frame_table = s.frame_table ∧ s'.lazy_load_segment_word = s.lazy_load_segment_word := by
  unfold write_back_dirty at h
  split at h
  · unfold write_back at h
    obtain ⟨⟨f, fr⟩, -, h⟩ := Outcome.bind_eq_ok.mp h
    obtain ⟨⟨n, fs⟩, -, h⟩ := Outcome.bind_eq_ok.mp h
    dsimp only at h
    split at h
    · obtain rfl := (Outcome.ok_pair h).2
      exact ⟨rfl, rfl⟩
    · obtain rfl := (Outcome.ok_pair h).2
      exact ⟨rfl, rfl⟩
  · obtain rfl := (Outcome.ok_pair h).2
    exact ⟨rfl, rfl⟩

theorem vm_dealloc_page_discarded (hpg : s.page p = some pg)
    (hcnt : ∀ {f fr}, pg.frame = some f → s.frame f = some fr → 2 ≤ fr.ref_cnt)
    (h : vm_dealloc_page s t p = .ok s') : Discarded s t p pg s' := by
  have hsh := vm_dealloc_page_shrinks h
  obtain ⟨-, hpage⟩ := vm_dealloc_page_dealloc hpg h
  unfold vm_dealloc_page at h
  obtain ⟨pg', hpg', h⟩ := Outcome.bind_eq_ok.mp h
  obtain rfl : pg' = pg := Option.some.inj ((get_page_eq_ok.mp hpg').symm.trans hpg)
  obtain ⟨s₁, hdrop, h⟩ := Outcome.bind_eq_ok.mp h
  obtain ⟨s₂, hdes, h⟩ := Outcome.bind_eq_ok.mp h
  obtain rfl := Outcome.ok.inj h
  obtain ⟨hsame₁, -⟩ := drop_ref_samePages hdrop
  have hdropped : s₁.used = s.used ∧ s₁.frame_table = s.frame_table
      ∧ s₁.lazy_load_segment_word = s.lazy_load_segment_word := by
    rcases drop_ref_cases hdrop with ⟨-, rfl⟩ | ⟨g, gr, -, -, rfl⟩
    · exact ⟨rfl, rfl, rfl⟩
    · exact ⟨rfl, rfl, rfl⟩
  -- whatever kind the page is, only its entry goes
  have finish : ∀ s₃ : vm, SameTables s₁ s₃ → s₃.frame_table = s₁.frame_table →
      s₃.lazy_load_segment_word = s₁.lazy_load_segment_word → s₂ = pml4_cleared s₃ t pg'.va →
      Discarded s t p pg' (s₂.free_page p) := by
    intro s₃ hs₃ htable hword heq
    subst heq
    refine ⟨⟨s₁, hdrop, hs₃.frame⟩, hs₃.used.trans hdropped.1, htable.trans hdropped.2.1,
      hword.trans hdropped.2.2, hpage,
      hs₃.next_page.trans hsame₁.next_page, hs₃.next_proc.trans hsame₁.next_proc,
      hs₃.next_frame.trans hsame₁.next_frame, hsh.page_at, hsh.alive, fun {t' va' k} hk => ?_⟩
    refine ⟨hsh.maps t' va' k hk, fun ht hva => ?_⟩
    exact absurd ⟨ht, hva⟩ ((maps_cleared s₃ t pg'.va t' va' k).mp hk).1
  cases destroy_cases hdes with
  | @uninit u hk =>
      exact ⟨⟨s₁, hdrop, rfl⟩, hdropped.1, hdropped.2.1, hdropped.2.2, hpage, hsame₁.next_page,
        hsame₁.next_proc,
        hsame₁.next_frame, hsh.page_at, hsh.alive,
          fun hk' => ⟨hsh.maps _ _ _ hk', fun _ _ => ⟨u, hk⟩⟩⟩
  | resident hk hi => exact finish s₁ (.refl s₁) rfl rfl rfl
  | @swapped i hk hi =>
      exact finish (s₁.set_swap s₁.swap_disk i.toNat false) (.set_swap s₁ _ _ _) rfl rfl rfl
  | @file fp fs s₃ s₄ hk hallow hw hrel =>
      have hsame₃ := (SameTables.set_files s₁ fs).trans (write_back_dirty_sameTables hw).1
      have hlist₃ := write_back_dirty_frame_table hw
      have heq : s₄ = s₃ := by
        rcases release_frame_cases hrel with heq | ⟨g, gr, hpf, hgr, hless, -⟩
        · exact heq
        · rcases drop_ref_cases hdrop with ⟨hnone, -⟩ | ⟨g', gr', hpf', hgr', rfl⟩
          · rw [hpf] at hnone
            cases hnone
          · obtain rfl := Option.some.inj (hpf.symm.trans hpf')
            rw [hsame₃.frame, set_frame_frame, Function.update_self] at hgr
            obtain rfl := Option.some.inj hgr
            have htwo := hcnt hpf hgr'
            dsimp only at hless
            omega
      exact finish s₃ hsame₃ hlist₃.1 hlist₃.2 (by rw [heq])

/-- **A page that no frame names goes**, out of its table and from the heap. -/
theorem Listed.dealloc {s₁ : vm} (h : Listed s none_new) (hp : s.page_at t va = some p)
    (he : Erased s s₁ t va) (hframe : s₁.frame = s.frame) (hused : s₁.used = s.used)
    (htable : s₁.frame_table = s.frame_table)
    (hno : ∀ f fr, s.frame f = some fr → fr.page ≠ some p)
    (hrun : vm_dealloc_page s₁ t p = .ok s') :
    Listed s' none_new ∧ (∀ f fr', s'.frame f = some fr' → ∃ fr, s.frame f = some fr
      ∧ fr'.page = fr.page)
      ∧ (∀ t' va', s'.page_at t' va' = if t' = t ∧ va' = va then none else s.page_at t' va')
      ∧ s'.page = Function.update s.page p none
      ∧ s'.lazy_load_segment_word = s₁.lazy_load_segment_word := by
  obtain ⟨pg, hpg, rfl⟩ := h.registered.page hp
  have hreg := registered_eq_some.mpr ⟨p, hp, hpg⟩
  -- the page that the frame names has it too
  have hcnt : ∀ {f fr}, pg.frame = some f → s.frame f = some fr → 2 ≤ fr.ref_cnt := by
    intro f fr hpf hf
    obtain ⟨q, t', va', hq, hat, hres⟩ := h.named hf id
    refine (h.counted hf).two_le (a := (t', va')) (b := (t, pg.va)) hres ⟨pg, hreg, hpf⟩ ?_
    intro heq
    rw [(Prod.mk.inj heq).1, (Prod.mk.inj heq).2, hp] at hat
    exact hno f fr hf (hq.trans hat.symm)
  have hd : Discarded s₁ t p pg s' := vm_dealloc_page_discarded (he.page ▸ hpg)
    (fun hpf hf => hcnt hpf (hframe ▸ hf)) hrun
  have hat : ∀ t' va', s'.page_at t' va' = if t' = t ∧ va' = pg.va then none
      else s.page_at t' va' :=
    fun t' va' => (hd.page_at t' va').trans (he.page_at t' va')
  have hpage : s'.page = Function.update s.page p none := hd.page.trans (by rw [he.page])
  have hother : ∀ t' va', ¬ (t' = t ∧ va' = pg.va)
      → s'.registered t' va' = s.registered t' va' := by
    intro t' va' hne
    refine registered_congr ((hat t' va').trans (if_neg hne)) fun q hq => ?_
    rw [hpage, Function.update_of_ne]
    rintro rfl
    exact hne (h.registered.inj hp hq)
  have hold : ∀ {t' va' qg}, s'.registered t' va' = some qg →
      ¬ (t' = t ∧ va' = pg.va) ∧ s.registered t' va' = some qg := by
    intro t' va' qg hq
    have hne : ¬ (t' = t ∧ va' = pg.va) := by
      intro heq
      obtain ⟨q, hq, -⟩ := registered_eq_some.mp hq
      rw [hat, if_pos heq] at hq
      cases hq
    exact ⟨hne, (hother t' va' hne).symm.trans hq⟩
  have hres : ∀ {t' va' g}, s'.Resident t' va' g → ¬ (t' = t ∧ va' = pg.va)
      ∧ s.Resident t' va' g := by
    rintro t' va' g ⟨qg, hq, hg⟩
    exact ⟨(hold hq).1, qg, (hold hq).2, hg⟩
  -- the frames, one reference less
  have hframes : ∀ g, s'.frame g = (s.frame g).map fun gr =>
      if pg.frame = some g then { gr with ref_cnt := gr.ref_cnt - 1 } else gr := by
    intro g
    obtain ⟨s₂, hdrop, hf₂⟩ := hd.frame
    rw [hf₂]
    rcases drop_ref_cases hdrop with ⟨hnone, rfl⟩ | ⟨f, fr, hpf, hf, rfl⟩
    · rw [hframe, hnone]
      cases s.frame g <;> rfl
    · rw [set_frame_frame, hframe]
      by_cases heq : g = f
      · subst heq
        rw [hframe] at hf
        rw [Function.update_self, hf, Option.map_some, if_pos hpf]
      · rw [Function.update_of_ne heq]
        have hne : pg.frame ≠ some g := by
          rw [hpf]
          exact fun hfg => heq (Option.some.inj hfg).symm
        simp only [if_neg hne]
        cases s.frame g <;> rfl
  have hback : ∀ {g gr'}, s'.frame g = some gr' → ∃ gr, s.frame g = some gr ∧ gr'.page = gr.page
      ∧ gr'.kva = gr.kva ∧ gr'.ref_cnt = gr.ref_cnt - if pg.frame = some g then 1 else 0 := by
    intro g gr' hg
    rw [hframes, Option.map_eq_some_iff] at hg
    obtain ⟨gr, hg, rfl⟩ := hg
    refine ⟨gr, hg, ?_⟩
    split
    · exact ⟨rfl, rfl, rfl⟩
    · exact ⟨rfl, rfl, by omega⟩
  refine ⟨⟨?_, ?_, fun f => ?_, fun {f fr} hf => ?_, fun {f fr} hf _ => ?_,
    fun {f g fr gr} hf hg hk => ?_,
    fun {f fr} hf => ?_, fun {f fr} hf => ?_, fun hr => ?_, fun hr hu => ?_,
      fun {t' va' k} hk => ?_,
    fun {t' va' q} hq => ?_⟩, fun f fr' hf => ?_, hat, hpage, hd.word⟩
  · exact h.registered.remove hp hat hpage (hd.next_page.trans he.next_page)
      (hd.next_proc.trans he.next_proc) fun t' => (hd.alive t').trans (he.alive t')
  · rw [hd.frame_table, htable]
    exact h.nodup
  · rw [hd.frame_table, htable, h.linked, hframes]
    simp [Option.map_eq_some_iff]
  · obtain ⟨gr, hg, -⟩ := hback hf
    rw [hd.next_frame, he.next_frame]
    exact h.fresh hg
  · obtain ⟨gr, hg, hpf, -⟩ := hback hf
    obtain ⟨q, t', va', hq, hat', qg, hq', hqf⟩ := h.named hg id
    have hne : ¬ (t' = t ∧ va' = pg.va) := by
      rintro ⟨rfl, rfl⟩
      rw [hp] at hat'
      exact hno f gr hg (hq.trans hat'.symm)
    exact ⟨q, t', va', hpf.trans hq, (hat t' va').trans (by rw [if_neg hne, hat']), qg,
      (hother t' va' hne).trans hq', hqf⟩
  · obtain ⟨fr₁, hf₁, -, hkf, -⟩ := hback hf
    obtain ⟨gr₁, hg₁, -, hkg, -⟩ := hback hg
    exact h.kva_inj hf₁ hg₁ (by rw [← hkf, ← hkg, hk])
  · obtain ⟨gr, hg, -, hk, -⟩ := hback hf
    rw [hd.used, hused, hk]
    exact h.used hg
  · obtain ⟨gr, hg, -, -, href⟩ := hback hf
    rw [href]
    by_cases hpf : pg.frame = some f
    · rw [if_pos hpf]
      refine (h.counted hg).remove (a := (t, pg.va)) ⟨pg, hreg, hpf⟩ fun x hx => ?_
      refine ⟨(hres hx).2, ?_⟩
      rintro rfl
      exact (hres hx).1 ⟨rfl, rfl⟩
    · rw [if_neg hpf, sub_zero]
      exact (h.counted hg).mono (fun x hx => (hres hx).2) le_rfl
  · rw [hd.next_frame, he.next_frame]
    exact h.bound (hres hr).2
  · exact h.touched (hold hr).2 hu
  · obtain ⟨hk₁, hun⟩ := hd.maps hk
    have hne : ¬ (t' = t ∧ va' = pg.va) := by
      rintro ⟨rfl, rfl⟩
      obtain ⟨u, hu⟩ := hun rfl rfl
      obtain ⟨qg, hq, hkind⟩ := h.maps (he.maps_self k hk₁)
      obtain rfl := Option.some.inj (hreg.symm.trans hq)
      exact hkind u hu
    obtain ⟨qg, hq, hkind⟩ := h.maps ((he.maps t' va' k hne).mp hk₁)
    exact ⟨qg, (hother t' va' hne).trans hq, hkind⟩
  · rw [hat] at hq
    split at hq
    · cases hq
    · rw [hd.next_proc, he.next_proc]
      exact h.owned hq
  · obtain ⟨gr, hg, hpf, -⟩ := hback hf
    exact ⟨gr, hg, hpf⟩

/-- A frame names the page. -/
def Named (s : vm) (p : ℕ) : Prop := ∃ f fr, s.frame f = some fr ∧ fr.page = some p

/-- **`spt_remove_page`** of a page that no frame names. -/
theorem Listed.remove (h : Listed s none_new) (hp : s.page_at t va = some p) (hno : ¬ s.Named p)
    (hrun : spt_remove_page s t p = .ok s') :
    Listed s' none_new ∧ (∀ q, s'.Named q → s.Named q)
      ∧ (∀ t' va', s'.page_at t' va' = if t' = t ∧ va' = va then none else s.page_at t' va')
      ∧ s'.page = Function.update s.page p none
      ∧ s'.lazy_load_segment_word = s.lazy_load_segment_word := by
  obtain ⟨pg, hpg, rfl, hrun⟩ := spt_remove_page_runs h.registered hp hrun
  obtain ⟨hs', hnames, hat, hpage, hword⟩ := h.dealloc hp (erased_cleared s t pg.va) rfl rfl rfl
    (fun f fr hf heq => hno ⟨f, fr, hf, heq⟩) hrun
  refine ⟨hs', ?_, hat, hpage, hword⟩
  rintro q ⟨f, fr', hf, hq⟩
  obtain ⟨fr, hf', hsame⟩ := hnames f fr' hf
  exact ⟨f, fr, hf', hsame ▸ hq⟩

/-! ## Exit -/

theorem Listed.spt_kill_loop (t : ℕ) (entries : List (Sigma fun _ : ℕ => ℕ)) :
    ∀ {s s' : vm}, Listed s none_new → (∀ x ∈ entries, s.page_at t x.1 = some x.2 ∧ ¬ s.Named x.2) →
      (entries.map Sigma.fst).Nodup → Pintos.spt_kill_loop t entries s = .ok s' →
      Listed s' none_new ∧ ∀ t' va, s'.page_at t' va
        = if t' = t ∧ va ∈ entries.map Sigma.fst then none else s.page_at t' va := by
  induction entries with
  | nil =>
      intro s s' h _ _ hrun
      obtain rfl := Outcome.ok.inj hrun
      exact ⟨h, fun _ _ => by simp⟩
  | cons x entries ih =>
      intro s s' h hin hnodup hrun
      obtain ⟨va, p⟩ := x
      rw [Pintos.spt_kill_loop] at hrun
      obtain ⟨s₁, hs₁, hrun⟩ := Outcome.bind_eq_ok.mp hrun
      rw [List.map_cons, List.nodup_cons] at hnodup
      obtain ⟨hp, hno⟩ := hin ⟨va, p⟩ List.mem_cons_self
      obtain ⟨h₁, hnames, hat, -⟩ := h.dealloc hp (erased_spt s t va) rfl rfl rfl
        (fun f fr hf heq => hno ⟨f, fr, hf, heq⟩) hs₁
      -- the entries to come are still there
      have hin₁ : ∀ y ∈ entries, s₁.page_at t y.1 = some y.2 ∧ ¬ s₁.Named y.2 := by
        intro y hy
        obtain ⟨hq, hno'⟩ := hin y (List.mem_cons_of_mem _ hy)
        refine ⟨?_, ?_⟩
        · rw [hat, if_neg]
          · exact hq
          · rintro ⟨-, heq⟩
            have hmem : y.1 ∈ entries.map Sigma.fst := List.mem_map_of_mem hy
            exact hnodup.1 (heq ▸ hmem)
        · rintro ⟨f, fr', hf, hpf⟩
          obtain ⟨fr, hf', hsame⟩ := hnames f fr' hf
          exact hno' ⟨f, fr, hf', hsame ▸ hpf⟩
      obtain ⟨h', hat'⟩ := ih h₁ hin₁ hnodup.2 hrun
      refine ⟨h', fun t' va' => ?_⟩
      rw [hat', hat, List.map_cons]
      by_cases ht : t' = t
      · subst ht
        by_cases hva : va' = va
        · simp [hva]
        · simp only [true_and, hva, List.mem_cons, false_or, if_false]
      · simp [ht]

/-- No frame names a page of the process. -/
def ExitOk (s : vm) (t : ℕ) : Prop := ∀ va p, s.page_at t va = some p → ¬ s.Named p

/-- **Exit** of a process whose pages no frame names. -/
theorem Listed.process_cleanup (h : Listed s none_new) (hok : s.ExitOk t)
    (hrun : Pintos.process_cleanup s t = .ok s') : Listed s' none_new := by
  unfold Pintos.process_cleanup supplemental_page_table_kill at hrun
  obtain ⟨s₁, hs₁, hrun⟩ := Outcome.bind_eq_ok.mp hrun
  obtain ⟨s₂, hs₂, hrun⟩ := Outcome.bind_eq_ok.mp hrun
  obtain rfl := Outcome.ok.inj hrun
  have hentries : ∀ x ∈ (s.proc t).spt.entries, s.page_at t x.1 = some x.2 :=
    fun x hx => AList.mem_lookup_iff.mpr hx
  obtain ⟨h₁, hat⟩ := Listed.spt_kill_loop t _ h
    (fun x hx => ⟨hentries x hx, hok _ _ (hentries x hx)⟩) (s.proc t).spt.nodupKeys hs₁
  have hnone : ∀ va, s₁.page_at t va = none := by
    intro va
    rw [hat]
    by_cases hin : va ∈ (s.proc t).spt.entries.map Sigma.fst
    · simp [hin]
    · rw [if_neg fun h => hin h.2]
      exact AList.lookup_eq_none.mpr hin
  -- what is present belongs to a page
  have habs : ∀ x ∈ (s₁.proc t).pml4.entries, x.2.present = false := by
    rintro ⟨va, e⟩ hx
    by_contra hpres
    have hmap : s₁.Maps t va e.kva := ⟨e, AList.mem_lookup_iff.mpr hx, by simpa using hpres, rfl⟩
    obtain ⟨pg, hpg, -⟩ := h₁.maps hmap
    obtain ⟨p, hp, -⟩ := registered_eq_some.mp hpg
    rw [hnone] at hp
    cases hp
  rw [pml4_destroy_loop_absent _ _ habs] at hs₂
  obtain rfl := Outcome.ok.inj hs₂
  exact h₁.drop_process t

end vm

end Pintos
