/-
Where the page table allows stores, the supplemental page table does: an invariant of all runs.

`pml4_set_page` gets its permission from `page->writable`, or true after the fault handler has
looked at it, or false in a fork. Nothing is assumed about evictions here: a process may lose a
frame to another and keep a stale entry, but the entry is no more than its page permits.
-/
import Pintos.Vm.Fork
import Pintos.Vm.Kept

set_option autoImplicit false

namespace Pintos

namespace vm

variable {s s' s'' : vm} {t va p : ℕ} {pg : Pintos.page} {done : Bool}

/-- The tables of all processes are in order, and no entry permits more than its page. -/
structure Sane (s : vm) : Prop where
  registered : s.Registered
  pteOk : s.PteOk

theorem Sane.kept (h : s.Sane) (hk : Kept s s') : s'.Sane :=
  ⟨hk.registered h.registered, hk.pteOk h.pteOk⟩

theorem Sane.extended (h : s.Sane) (he : Extended s s') : s'.Sane :=
  ⟨he.registered h.registered, he.pteOk h.pteOk⟩

/-- A new page where there was none. -/
theorem Sane.register (h : s.Sane) (t : ℕ) (pg : Pintos.page) (hround : pg_round_down pg.va = pg.va)
    (hnone : s.page_at t pg.va = none) : (s.register t pg).Sane := by
  refine ⟨h.registered.register t pg hround, fun t' va' hw => ?_⟩
  have hold : s.Writable t' va' := by
    obtain ⟨e, he, hrest⟩ := hw
    unfold vm.register at he
    rw [pte_at_set_spt] at he
    exact ⟨e, he, hrest⟩
  obtain ⟨p, pg', hp, hpg', hw'⟩ := h.pteOk t' va' hold
  refine ⟨p, pg', ?_, ?_, hw'⟩
  · rw [page_at_register, if_neg]
    · exact hp
    · rintro ⟨rfl, rfl⟩
      rw [hnone] at hp
      cases hp
  · rw [← hpg']
    exact Function.update_of_ne (h.registered.fresh hpg').ne _ _

/-! ## Destroying pages -/

/-- Pages and permissions may go; the tables of supplemental pages are as before. -/
structure Dropped (s s' : vm) (gone : ℕ → Prop) : Prop where
  page_at : ∀ t va, s'.page_at t va = s.page_at t va
  page : ∀ q, ¬ gone q → s'.page q = s.page q
  fresh : ∀ q pg, s'.page q = some pg → ∃ pg', s.page q = some pg'
  next_page : s'.next_page = s.next_page
  next_proc : s'.next_proc = s.next_proc
  alive : ∀ t, (s'.proc t).alive = (s.proc t).alive
  writable : ∀ t va, s'.Writable t va → s.Writable t va

namespace Dropped

variable {gone gone' : ℕ → Prop}

theorem refl (s : vm) (gone : ℕ → Prop) : Dropped s s gone :=
  ⟨fun _ _ => rfl, fun _ _ => rfl, fun _ pg h => ⟨pg, h⟩, rfl, rfl, fun _ => rfl, fun _ _ h => h⟩

theorem trans (h : Dropped s s' gone) (h' : Dropped s' s'' gone) : Dropped s s'' gone where
  page_at t va := (h'.page_at t va).trans (h.page_at t va)
  page q hq := (h'.page q hq).trans (h.page q hq)
  fresh q pg hq := by
    obtain ⟨pg', hq'⟩ := h'.fresh q pg hq
    exact h.fresh q pg' hq'
  next_page := h'.next_page.trans h.next_page
  next_proc := h'.next_proc.trans h.next_proc
  alive t := (h'.alive t).trans (h.alive t)
  writable t va hw := h.writable t va (h'.writable t va hw)

theorem of_rest (hproc : s'.proc = s.proc) (hprocs : s'.next_proc = s.next_proc)
    (hpage : s'.page = s.page) (hpages : s'.next_page = s.next_page) : Dropped s s' gone := by
  refine ⟨fun t va => ?_, fun q _ => by rw [hpage], fun q pg hq => ⟨pg, hpage ▸ hq⟩, hpages, hprocs,
    fun t => by rw [hproc], fun t va hw => ?_⟩
  · unfold vm.page_at
    rw [hproc]
  · unfold Writable vm.pte_at at hw ⊢
    rw [← hproc]
    exact hw

theorem modify_pte (s : vm) (t va : ℕ) {g : pte → pte}
    (hpresent : ∀ e, (g e).present = true → e.present = true)
    (hwritable : ∀ e, (g e).writable = true → e.writable = true) :
    Dropped s (s.modify_pte t va g) gone where
  page_at t' va' := s.page_at_modify_pte t va t' va' g
  page _ _ := rfl
  fresh _ pg hq := ⟨pg, hq⟩
  next_page := rfl
  next_proc := rfl
  alive t' := s.alive_modify_pte t va t' g
  writable t' va' := by
    rintro ⟨e', he', hp, hw⟩
    rw [pte_at_modify_pte] at he'
    split at he'
    · rename_i heq
      obtain ⟨e, he, rfl⟩ := Option.map_eq_some_iff.mp he'
      refine ⟨e, ?_, hpresent e hp, hwritable e hw⟩
      rw [heq.1, heq.2]
      exact he
    · exact ⟨e', he', hp, hw⟩

end Dropped

theorem dropped_cleared (s : vm) (t va : ℕ) (gone : ℕ → Prop) :
    Dropped s (pml4_cleared s t va) gone :=
  .modify_pte s t va (fun _ h => by cases h) (fun _ h => h)

theorem write_back_dirty_dropped {fp : file_page} {gone : ℕ → Prop}
    (h : write_back_dirty s t pg fp = .ok (done, s')) : Dropped s s' gone := by
  unfold write_back_dirty at h
  split at h
  · unfold write_back at h
    obtain ⟨⟨f, fr⟩, -, h⟩ := Outcome.bind_eq_ok.mp h
    obtain ⟨⟨n, fs⟩, -, h⟩ := Outcome.bind_eq_ok.mp h
    dsimp only at h
    have hfiles : Dropped s (s.set_files fs) gone := .of_rest rfl rfl rfl rfl
    split at h
    · obtain rfl := (Outcome.ok_pair h).2
      exact hfiles
    · obtain rfl := (Outcome.ok_pair h).2
      exact hfiles.trans (.modify_pte _ t pg.va (fun _ h => h) (fun _ h => h))
  · obtain rfl := (Outcome.ok_pair h).2
    exact .refl _ _

theorem vm_dealloc_page_dropped {gone : ℕ → Prop} (hgone : gone p)
    (h : vm_dealloc_page s t p = .ok s') : Dropped s s' gone := by
  unfold vm_dealloc_page at h
  obtain ⟨pg, hpg, h⟩ := Outcome.bind_eq_ok.mp h
  obtain ⟨s₁, hdrop, h⟩ := Outcome.bind_eq_ok.mp h
  obtain ⟨s₂, hdes, h⟩ := Outcome.bind_eq_ok.mp h
  obtain rfl := Outcome.ok.inj h
  have hfirst : Dropped s s₁ gone := by
    rcases drop_ref_cases hdrop with ⟨-, rfl⟩ | ⟨g, fr, -, -, rfl⟩
    · exact .refl _ _
    · exact .of_rest rfl rfl rfl rfl
  have hdestroyed : Dropped s₁ s₂ gone := by
    cases destroy_cases hdes with
    | uninit _ => exact .refl _ _
    | resident _ _ => exact dropped_cleared _ _ _ _
    | swapped _ _ => exact (dropped_cleared s₁ t pg.va gone).trans (.of_rest rfl rfl rfl rfl)
    | @file fp fs s₃ s₄ _ _ hw hrel =>
        have hfiles : Dropped s₁ (s₁.set_files fs) gone := .of_rest rfl rfl rfl rfl
        have hrelease : Dropped s₃ s₄ gone := by
          rcases release_frame_cases hrel with rfl | ⟨g, fr, -, -, -, rfl⟩
          · exact .refl _ _
          · exact .of_rest rfl rfl rfl rfl
        exact ((hfiles.trans (write_back_dirty_dropped hw)).trans hrelease).trans
          (dropped_cleared s₄ t pg.va gone)
  refine (hfirst.trans hdestroyed).trans ⟨fun _ _ => rfl, fun q hq => ?_,
    fun q pg' hq => ?_, rfl, rfl, fun _ => rfl, fun _ _ hw => hw⟩
  · apply Function.update_of_ne
    rintro rfl
    exact hq hgone
  · by_cases heq : q = p
    · rw [heq, free_page_page, Function.update_self] at hq
      cases hq
    · rw [free_page_page, Function.update_of_ne heq] at hq
      exact ⟨pg', hq⟩

/-- Entries may vanish, with their permission and their page. -/
theorem Sane.shrink (h : s.Sane)
    (hat : ∀ {t va p}, s'.page_at t va = some p → s.page_at t va = some p)
    (hpage : ∀ {t va p}, s'.page_at t va = some p → s'.page p = s.page p)
    (hfresh : ∀ q pg, s'.page q = some pg → ∃ pg', s.page q = some pg')
    (hnext : s.next_page ≤ s'.next_page)
    (halive : ∀ t, (s'.proc t).alive = true → t < s'.next_proc)
    (hw : ∀ {t va}, s'.Writable t va →
      s.Writable t va ∧ ∀ p, s.page_at t va = some p → s'.page_at t va = some p) : s'.Sane := by
  refine ⟨⟨?_, ?_, ?_, ?_, ?_⟩, ?_⟩
  · intro t va p hp
    obtain ⟨pg, hpg, hva⟩ := h.registered.page (hat hp)
    exact ⟨pg, (hpage hp).trans hpg, hva⟩
  · exact fun hp hp' => h.registered.inj (hat hp) (hat hp')
  · exact fun hp => h.registered.aligned (hat hp)
  · intro q pg hq
    obtain ⟨pg', hq'⟩ := hfresh q pg hq
    exact lt_of_lt_of_le (h.registered.fresh hq') hnext
  · exact fun ht => halive _ ht
  · intro t va hwr
    obtain ⟨hold, hstays⟩ := hw hwr
    obtain ⟨p, pg, hp, hpg, hwp⟩ := h.pteOk t va hold
    have hp' := hstays p hp
    exact ⟨p, pg, hp', (hpage hp').trans hpg, hwp⟩

/-- **A page is unmapped**: its entry is out of the table and its permission is gone, then it is
destroyed. -/
theorem spt_remove_page_sane (h : s.Sane) (hp : s.page_at t va = some p)
    (hrun : spt_remove_page s t p = .ok s') : s'.Sane := by
  obtain ⟨pg, hpg, rfl, hrun⟩ := spt_remove_page_runs h.registered hp hrun
  have he := erased_cleared s t pg.va
  have hd : Dropped _ s' fun q => q = p := vm_dealloc_page_dropped rfl hrun
  have hat : ∀ {t' va' q}, s'.page_at t' va' = some q →
      ¬ (t' = t ∧ va' = pg.va) ∧ s.page_at t' va' = some q := by
    intro t' va' q hq
    rw [hd.page_at, he.page_at] at hq
    split at hq
    · cases hq
    · rename_i hne
      exact ⟨hne, hq⟩
  refine h.shrink (fun hq => (hat hq).2) (fun hq => ?_) (fun q pg' hq => ?_) ?_ (fun t' ht' => ?_)
    fun {t' va'} hw => ?_
  · obtain ⟨hne, hq⟩ := hat hq
    rw [hd.page _ fun heq => hne (h.registered.inj hp (heq ▸ hq)), he.page]
  · obtain ⟨pg'', hq'⟩ := hd.fresh q pg' hq
    exact ⟨pg'', he.page ▸ hq'⟩
  · rw [hd.next_page, he.next_page]
  · rw [hd.alive, he.alive] at ht'
    rw [hd.next_proc, he.next_proc]
    exact h.registered.alive ht'
  · -- the entry was cleared before the page was destroyed
    obtain ⟨e, hpte, hpresent, hwr⟩ := hd.writable t' va' hw
    have hmap : (pml4_cleared (s.set_spt t ((s.proc t).spt.erase pg.va)) t pg.va).Maps
        t' va' e.kva :=
      ⟨e, hpte, hpresent, rfl⟩
    have hne := ((maps_cleared _ _ _ _ _ _).mp hmap).1
    refine ⟨?_, fun q hq => ?_⟩
    · unfold pml4_cleared at hpte
      rw [pte_at_modify_pte, if_neg hne, pte_at_set_spt] at hpte
      exact ⟨e, hpte, hpresent, hwr⟩
    · rw [hd.page_at, he.page_at, if_neg hne]
      exact hq

/-! ## Exit -/

theorem spt_kill_loop_dropped (t : ℕ) (entries : List (Sigma fun _ : ℕ => ℕ)) :
    ∀ {s s' : vm}, spt_kill_loop t entries s = .ok s' →
      (∀ t', t' ≠ t → ∀ va, s'.page_at t' va = s.page_at t' va)
        ∧ (∀ va p, s'.page_at t va = some p → s.page_at t va = some p ∧ va ∉ entries.map Sigma.fst)
        ∧ (∀ q, q ∉ entries.map Sigma.snd → s'.page q = s.page q)
        ∧ (∀ q pg, s'.page q = some pg → ∃ pg', s.page q = some pg')
        ∧ s'.next_page = s.next_page ∧ s'.next_proc = s.next_proc
        ∧ (∀ t', (s'.proc t').alive = (s.proc t').alive)
        ∧ ∀ t' va, s'.Writable t' va → s.Writable t' va := by
  induction entries with
  | nil =>
      intro s s' h
      obtain rfl := Outcome.ok.inj h
      exact ⟨fun _ _ _ => rfl, fun va p hp => ⟨hp, List.not_mem_nil⟩, fun _ _ => rfl,
        fun _ pg h => ⟨pg, h⟩, rfl, rfl, fun _ => rfl, fun _ _ h => h⟩
  | cons x entries ih =>
      intro s s' h
      obtain ⟨va, p⟩ := x
      rw [spt_kill_loop] at h
      obtain ⟨s₁, hs₁, h⟩ := Outcome.bind_eq_ok.mp h
      have he := erased_spt s t va
      have hd : Dropped _ s₁ fun q => q = p := vm_dealloc_page_dropped rfl hs₁
      obtain ⟨hother, hself, hpage, hfresh, hnext, hprocs, halive, hw⟩ := ih h
      refine ⟨fun t' ht' va' => ?_, fun va' q hq => ?_, fun q hq => ?_, fun q pg hq => ?_, ?_, ?_,
        fun t' => ?_, fun t' va' hwr => ?_⟩
      · rw [hother t' ht', hd.page_at, he.page_at, if_neg fun hboth => ht' hboth.1]
      · obtain ⟨hq₁, hnot⟩ := hself va' q hq
        rw [hd.page_at, he.page_at] at hq₁
        split at hq₁
        · cases hq₁
        · rename_i hne
          refine ⟨hq₁, fun hmem => ?_⟩
          rcases List.mem_cons.mp hmem with heq | hmem
          · exact hne ⟨rfl, heq⟩
          · exact hnot hmem
      · rw [List.map_cons, List.mem_cons, not_or] at hq
        rw [hpage q hq.2, hd.page q hq.1, he.page]
      · obtain ⟨pg', hq'⟩ := hfresh q pg hq
        obtain ⟨pg'', hq''⟩ := hd.fresh q pg' hq'
        exact ⟨pg'', he.page ▸ hq''⟩
      · rw [hnext, hd.next_page, he.next_page]
      · rw [hprocs, hd.next_proc, he.next_proc]
      · rw [halive, hd.alive, he.alive]
      · obtain ⟨e, hpte, hrest⟩ := hd.writable t' va' (hw t' va' hwr)
        rw [pte_at_set_spt] at hpte
        exact ⟨e, hpte, hrest⟩

theorem pml4_destroy_loop_proc (entries : List (Sigma fun _ : ℕ => pte)) :
    ∀ {s s' : vm}, pml4_destroy_loop entries s = .ok s' →
      s'.proc = s.proc ∧ s'.next_proc = s.next_proc ∧ s'.page = s.page ∧ s'.next_page = s.next_page
        ∧ s'.files = s.files := by
  induction entries with
  | nil =>
      intro s s' h
      obtain rfl := Outcome.ok.inj h
      exact ⟨rfl, rfl, rfl, rfl, rfl⟩
  | cons x entries ih =>
      intro s s' h
      obtain ⟨va, e⟩ := x
      rw [pml4_destroy_loop] at h
      split at h
      · obtain ⟨s₁, hs₁, h⟩ := Outcome.bind_eq_ok.mp h
        unfold palloc_free_page at hs₁
        obtain ⟨_, _, hs₁⟩ := Outcome.bind_eq_ok.mp hs₁
        obtain rfl := Outcome.ok.inj hs₁
        obtain ⟨hproc, hprocs, hpage, hnext, hfiles⟩ := ih h
        exact ⟨hproc, hprocs, hpage, hnext, hfiles⟩
      · exact ih h

/-- **Exit.** -/
theorem process_cleanup_sane (h : s.Sane) (hrun : process_cleanup s t = .ok s') : s'.Sane := by
  unfold process_cleanup supplemental_page_table_kill at hrun
  obtain ⟨s₁, hs₁, hrun⟩ := Outcome.bind_eq_ok.mp hrun
  obtain ⟨s₂, hs₂, hrun⟩ := Outcome.bind_eq_ok.mp hrun
  obtain rfl := Outcome.ok.inj hrun
  obtain ⟨hother, hself, hpage, hfresh, hnext, hprocs, halive, hw⟩ := spt_kill_loop_dropped t _ hs₁
  obtain ⟨hproc₂, hprocs₂, hpage₂, hnext₂, -⟩ := pml4_destroy_loop_proc _ hs₂
  have hproc : ∀ t', (s₂.drop_process t).proc t'
      = if t' = t then { s₁.proc t with pml4 := ∅, alive := false } else s₁.proc t' := by
    intro t'
    rw [drop_process_proc, Function.update_apply, hproc₂]
  have hat₂ : ∀ t' va, (s₂.drop_process t).page_at t' va = s₁.page_at t' va := by
    intro t' va
    unfold vm.page_at
    rw [hproc]
    split
    · rename_i ht
      rw [ht]
    · rfl
  -- the table of `t` is empty
  have hnone : ∀ va, s₁.page_at t va = none := by
    intro va
    cases hp : s₁.page_at t va with
    | none => rfl
    | some p =>
        obtain ⟨hp', hnot⟩ := hself va p hp
        exact absurd (List.mem_map_of_mem (AList.mem_lookup_iff.mp hp')) hnot
  have hat : ∀ {t' va q}, (s₂.drop_process t).page_at t' va = some q →
      t' ≠ t ∧ s.page_at t' va = some q := by
    intro t' va q hq
    rw [hat₂] at hq
    have ht : t' ≠ t := by
      rintro rfl
      rw [hnone] at hq
      cases hq
    exact ⟨ht, (hother t' ht va).symm.trans hq⟩
  refine h.shrink (fun hq => (hat hq).2) (fun {t' va q} hq => ?_) (fun q pg hq => ?_) ?_
    (fun t' ht' => ?_) fun {t' va} hwr => ?_
  · obtain ⟨ht, hq⟩ := hat hq
    have hstays : q ∉ (s.proc t).spt.entries.map Sigma.snd := by
      intro hmem
      obtain ⟨⟨va', q'⟩, hentry, rfl⟩ := List.mem_map.mp hmem
      have hq' : s.page_at t va' = some q' := AList.mem_lookup_iff.mpr hentry
      exact ht (h.registered.inj hq' hq).1
    show s₂.page q = s.page q
    rw [hpage₂, hpage q hstays]
  · apply hfresh q pg
    rw [← hpage₂]
    exact hq
  · show s.next_page ≤ s₂.next_page
    rw [hnext₂, hnext]
  · show t' < s₂.next_proc
    rw [hprocs₂, hprocs]
    rw [hproc] at ht'
    split at ht'
    · cases ht'
    · rw [halive] at ht'
      exact h.registered.alive ht'
  · obtain ⟨e, hpte, hpresent, hwr⟩ := hwr
    unfold vm.pte_at at hpte
    rw [hproc] at hpte
    split at hpte
    · cases hpte
    · rename_i ht
      refine ⟨hw t' va ⟨e, hpte, hpresent, hwr⟩, fun p hp => ?_⟩
      rw [hat₂, hother t' ht]
      exact hp

/-! ## Accesses -/

/-- What an access by user code calls. -/
theorem user_access_calls {addr rsp : ℕ} {write : Bool} {e : Option pte}
    (h : user_access s t addr rsp write = .ok (e, s')) :
    s' = s ∨ ∃ handled s₁, vm_try_handle_fault (s.set_rsp t rsp) t addr write = .ok (handled, s₁)
      ∧ (s' = s₁ ∨ process_cleanup s₁ t = .ok s') := by
  unfold user_access at h
  cases hok : pte_allows s t addr write with
  | some e' =>
      rw [hok] at h
      exact .inl (Outcome.ok_pair h).2.symm
  | none =>
      rw [hok] at h
      obtain ⟨⟨handled, s₁⟩, hfault, h⟩ := Outcome.bind_eq_ok.mp h
      refine .inr ⟨handled, s₁, hfault, ?_⟩
      cases handled with
      | true =>
          dsimp only at h
          rw [if_pos rfl] at h
          cases hok' : pte_allows s₁ t addr write with
          | none =>
              rw [hok'] at h
              cases h
          | some e' =>
              rw [hok'] at h
              exact .inl (Outcome.ok_pair h).2.symm
      | false =>
          dsimp only at h
          rw [if_neg Bool.false_ne_true] at h
          obtain ⟨s₂, hexit, h⟩ := Outcome.bind_eq_ok.mp h
          obtain rfl := (Outcome.ok_pair h).2
          exact .inr hexit

theorem user_access_sane {addr rsp : ℕ} {write : Bool} {e : Option pte} (h : s.Sane)
    (hrun : user_access s t addr rsp write = .ok (e, s')) : s'.Sane := by
  rcases user_access_calls hrun with rfl | ⟨handled, s₁, hfault, hend⟩
  · exact h
  · have h₀ : (s.set_rsp t rsp).Sane := h.kept (.of_sameMap (.set_rsp s t rsp))
    have h₁ := h₀.extended (vm_try_handle_fault_extended h₀.registered hfault)
    rcases hend with rfl | hexit
    · exact h₁
    · exact process_cleanup_sane h₁ hexit

/-- Setting the accessed and the dirty bit. -/
theorem Sane.set_bits (h : s.Sane) {e e' : pte} (he : s.pte_at t va = some e)
    (hpresent : e.present = true) (hwr : e'.writable = e.writable) : (s.set_pte t va e').Sane :=
  h.kept (.set_pte fun hw => h.pteOk t va ⟨e, he, hpresent, hwr.symm.trans hw⟩)

theorem user_read_sane {addr rsp : ℕ} {b : Option UInt8} (h : s.Sane)
    (hrun : user_read s t addr rsp = .ok (b, s')) : s'.Sane := by
  unfold user_read at hrun
  obtain ⟨⟨e, s₁⟩, hacc, hrun⟩ := Outcome.bind_eq_ok.mp hrun
  have h₁ := user_access_sane h hacc
  cases e with
  | none =>
      obtain rfl := (Outcome.ok_pair hrun).2
      exact h₁
  | some e =>
      obtain rfl := (Outcome.ok_pair hrun).2
      obtain ⟨he, hpresent, -⟩ := accessed_pte_at (user_access_cases hacc)
      exact h₁.set_bits he hpresent rfl

theorem user_write_sane {addr rsp : ℕ} {b : UInt8} (h : s.Sane)
    (hrun : user_write s t addr rsp b = .ok (done, s')) : s'.Sane := by
  unfold user_write at hrun
  obtain ⟨⟨e, s₁⟩, hacc, hrun⟩ := Outcome.bind_eq_ok.mp hrun
  have h₁ := user_access_sane h hacc
  cases e with
  | none =>
      obtain rfl := (Outcome.ok_pair hrun).2
      exact h₁
  | some e =>
      obtain rfl := (Outcome.ok_pair hrun).2
      obtain ⟨he, hpresent, -⟩ := accessed_pte_at (user_access_cases hacc)
      have hmem : Kept s₁ (s₁.set_mem e.kva (Function.update (s₁.mem e.kva) (pg_ofs addr) b)) :=
        .of_rest rfl rfl rfl rfl
      exact (h₁.kept hmem).set_bits he hpresent rfl

/-! ## `mmap` and `munmap` -/

theorem vm_alloc_page_sane {type : vm_type} {upage : ℕ} {writable : Bool}
    {init : Option vm_initializer} {aux : aux_ptr} (h : s.Sane)
    (hround : pg_round_down upage = upage)
    (hrun : vm_alloc_page_with_initializer s t type upage writable init aux = (done, s')) :
    s'.Sane ∧ (∀ t', t' ≠ t → ∀ va, s'.page_at t' va = s.page_at t' va)
      ∧ (done = true → ∃ pg, pg.va = upage ∧ s'.page_at t upage = some s.next_page
        ∧ s'.page s.next_page = some pg) := by
  rcases vm_alloc_page_cases hrun with ⟨rfl, rfl⟩ | ⟨-, hnone, pi, -, rfl⟩
  · exact ⟨h, fun _ _ _ => rfl, nofun⟩
  · refine ⟨h.register t _ hround hnone, fun t' ht' va => ?_,
      fun _ => ⟨_, rfl, ?_, Function.update_self _ _ _⟩⟩
    · rw [page_at_register, if_neg fun hboth => ht' hboth.1]
    · rw [page_at_register, if_pos ⟨rfl, rfl⟩]

theorem pg_round_down_add {a : ℕ} (h : pg_round_down a = a) :
    pg_round_down (a + PGSIZE) = a + PGSIZE := by
  rw [pg_round_down_add_PGSIZE, h]

/-- **The loop of `do_mmap`** keeps what asking for one page of the mapping keeps. -/
theorem mmap_loop_rule {I : vm → Prop} {file : ℕ} {writable : Bool}
    (hstep : ∀ {s s' : vm} {done : Bool} {upage : ℕ} {i : lazy_load_info} {c : ℤ}, I s →
      pg_round_down upage = upage → i.file = file →
      vm_alloc_page_with_initializer s t .VM_MMAP upage writable (some .lazy_load_segment)
        (.mmap i c) = (done, s') → I s') (fuel : ℕ) : ∀ {s s' : vm}
    {remain_length cur_addr : ℕ} {cur_offset mapping_count : ℤ}, I s →
      pg_round_down cur_addr = cur_addr →
      mmap_loop t file writable fuel s remain_length cur_addr cur_offset mapping_count = .ok s' →
      I s' := by
  induction fuel with
  | zero =>
      intro s s' remain_length cur_addr cur_offset mapping_count _ _ hrun
      cases hrun
  | succ fuel ih =>
      intro s s' remain_length cur_addr cur_offset mapping_count h hround hrun
      rw [mmap_loop] at hrun
      split at hrun
      · obtain rfl := Outcome.ok.inj hrun
        exact h
      · dsimp only at hrun
        generalize hnext : vm_alloc_page_with_initializer s t .VM_MMAP cur_addr writable
          (some .lazy_load_segment) _ = next at hrun
        have h₁ := hstep h hround rfl hnext
        split at hrun
        · obtain rfl := Outcome.ok.inj hrun
          exact h₁
        · exact ih h₁ (pg_round_down_add hround) hrun

theorem do_mmap_eq_ok {addr file : ℕ} {writable : Bool} {offset : ℤ}
    (hrun : do_mmap s t addr writable file offset = .ok s') :
    ∃ reopen_file fs fuel n, file_reopen s.files file = .ok (reopen_file, fs)
      ∧ mmap_loop t reopen_file writable fuel (s.set_files fs) n addr offset 0 = .ok s' := by
  unfold do_mmap at hrun
  obtain ⟨_, -, hrun⟩ := Outcome.bind_eq_ok.mp hrun
  obtain ⟨⟨reopen_file, fs⟩, hreopen, hrun⟩ := Outcome.bind_eq_ok.mp hrun
  exact ⟨reopen_file, fs, _, _, hreopen, hrun⟩

/-- The checks of `sys_mmap` see to it that the mapping starts at a page. -/
theorem sys_mmap_cases {addr length file : ℕ} {writable : Bool} {offset : ℤ}
    (hrun : sys_mmap s t addr length writable file offset = .ok s') :
    s' = s ∨ pg_round_down addr = addr ∧ do_mmap s t addr writable file offset = .ok s' := by
  unfold sys_mmap at hrun
  obtain ⟨file_size, -, hrun⟩ := Outcome.bind_eq_ok.mp hrun
  split at hrun
  · rename_i hchecks
    have halign : addr % PGSIZE = 0 := by
      unfold mmap_checks at hchecks
      rw [Bool.and_eq_true, decide_eq_true_iff] at hchecks
      exact hchecks.1.2.2.2.2.1
    refine .inr ⟨?_, hrun⟩
    unfold pg_round_down
    omega
  · exact .inl (Outcome.ok.inj hrun).symm

theorem do_mmap_sane {addr file : ℕ} {writable : Bool} {offset : ℤ} (h : s.Sane)
    (hround : pg_round_down addr = addr) (hrun : do_mmap s t addr writable file offset = .ok s') :
    s'.Sane := by
  obtain ⟨reopen_file, fs, fuel, n, -, hloop⟩ := do_mmap_eq_ok hrun
  have hfiles : Kept s (s.set_files fs) := .of_rest rfl rfl rfl rfl
  exact mmap_loop_rule (fun h hround _ hnext => (vm_alloc_page_sane h hround hnext).1) fuel
    (h.kept hfiles) hround hloop

theorem sys_mmap_sane {addr length file : ℕ} {writable : Bool} {offset : ℤ} (h : s.Sane)
    (hrun : sys_mmap s t addr length writable file offset = .ok s') : s'.Sane := by
  rcases sys_mmap_cases hrun with rfl | ⟨hround, hrun⟩
  · exact h
  · exact do_mmap_sane h hround hrun

/-- What unmapping a page does to the tables and to the other pages. -/
theorem spt_remove_page_tables (hr : s.Registered) (hp : s.page_at t va = some p)
    (hrun : spt_remove_page s t p = .ok s') :
    (∀ t' va', s'.page_at t' va' = if t' = t ∧ va' = va then none else s.page_at t' va')
      ∧ ∀ q, q ≠ p → s'.page q = s.page q := by
  obtain ⟨pg, hpg, rfl, hrun⟩ := spt_remove_page_runs hr hp hrun
  have he := erased_cleared s t pg.va
  have hd : Dropped _ s' fun q => q = p := vm_dealloc_page_dropped rfl hrun
  refine ⟨fun t' va' => ?_, fun q hq => ?_⟩
  · rw [hd.page_at, he.page_at]
  · rw [hd.page q hq, he.page]

/-- Unmapping a page takes it out of its table only. -/
theorem spt_remove_page_sane_at (h : s.Sane) (hp : s.page_at t va = some p)
    (hrun : spt_remove_page s t p = .ok s') :
    s'.Sane ∧ ∀ va', va' ≠ va → s'.page_at t va' = s.page_at t va' := by
  obtain ⟨hat, -⟩ := spt_remove_page_tables h.registered hp hrun
  refine ⟨spt_remove_page_sane h hp hrun, fun va' hne => ?_⟩
  rw [hat, if_neg fun hboth => hne hboth.2]

theorem do_munmap_sane {addr : ℕ} (h : s.Sane) (hrun : do_munmap s t addr = .ok s') : s'.Sane :=
  do_munmap_rule spt_remove_page_sane_at h hrun

/-! ## Fork -/

/-- The child's page joins the frame with an entry that is read-only. -/
theorem share_kept {f : ℕ} {fr : Pintos.frame} (hpg : s.page p = some pg) :
    Kept s (s.share t p pg f fr) := by
  have hjoined : Kept s ((s.set_frame f { fr with ref_cnt := fr.ref_cnt + 1 }).set_page p
      { pg with frame := some f }) := .of_page rfl rfl hpg rfl rfl rfl
  exact hjoined.trans (.set_pte fun hw => by cases hw)

theorem vm_copy_claim_page_kept {src : ℕ} (hr : s.Registered)
    (h : vm_copy_claim_page s t va src = .ok (done, s')) : Kept s s' := by
  cases hp : s.page_at t (pg_round_down va) with
  | none =>
      unfold vm_copy_claim_page spt_find_page at h
      rw [hp] at h
      obtain rfl := (Outcome.ok_pair h).2
      exact .refl s
  | some p =>
      obtain ⟨pg, hpg, -⟩ := hr.page hp
      obtain ⟨ppg, f, fr, -, -, -, hcase⟩ := vm_copy_claim_page_cases hp hpg h
      rcases hcase with ⟨-, rfl⟩ | hin
      · exact .of_rest rfl rfl rfl rfl
      · have hpg₁ : (s.share t p pg f fr).page p = some { pg with frame := some f } :=
          Function.update_self _ _ _
        have hfr₁ : (s.share t p pg f fr).frame f = some { fr with ref_cnt := fr.ref_cnt + 1 } :=
          Function.update_self _ _ _
        exact (share_kept hpg).trans (SwappedIn.kept hpg₁ (swap_in_cases hin hpg₁ rfl hfr₁ rfl))

theorem copy_frame_contents_eq_ok {src : ℕ} (h : copy_frame_contents s t va src = .ok s') :
    ∃ k m, s' = s.set_mem k m := by
  unfold copy_frame_contents at h
  split at h
  · cases h
  · obtain ⟨_, -, h⟩ := Outcome.bind_eq_ok.mp h
    obtain ⟨⟨_, dfr⟩, -, h⟩ := Outcome.bind_eq_ok.mp h
    obtain ⟨_, -, h⟩ := Outcome.bind_eq_ok.mp h
    obtain ⟨⟨_, sfr⟩, -, h⟩ := Outcome.bind_eq_ok.mp h
    obtain rfl := Outcome.ok.inj h
    exact ⟨_, _, rfl⟩

/-- **One page of a fork**: the parent's table is not touched. -/
theorem copy_page_sane {src : ℕ} (h : s.Sane)
    (hround : ∀ {pg}, s.page src = some pg → pg_round_down pg.va = pg.va)
    (hrun : copy_page s t src = .ok (done, s')) :
    s'.Sane ∧ ∀ t', t' ≠ t → ∀ va, s'.page_at t' va = s.page_at t' va := by
  unfold copy_page at hrun
  obtain ⟨pg, hpg, hrun⟩ := Outcome.bind_eq_ok.mp hrun
  have hround := hround (get_page_eq_ok.mp hpg)
  have hfiles : ∀ fs : filesys, (s.set_files fs).Sane := fun fs => h.kept (.of_rest rfl rfl rfl rfl)
  cases hk : pg.kind with
  | uninit u =>
      rw [hk] at hrun
      obtain ⟨⟨aux, s₁⟩, haux, hrun⟩ := Outcome.bind_eq_ok.mp hrun
      obtain ⟨-, -, fs, -, rfl, -⟩ := duplicate_aux_eq_ok haux
      obtain rfl := (Outcome.ok_pair hrun).2
      obtain ⟨hsane, hother, -⟩ := vm_alloc_page_sane (hfiles fs) hround rfl
      exact ⟨hsane, hother⟩
  | file fp =>
      rw [hk] at hrun
      obtain ⟨⟨file, fs⟩, -, hrun⟩ := Outcome.bind_eq_ok.mp hrun
      dsimp only at hrun
      generalize hnext : vm_alloc_page_with_initializer (s.set_files fs) t .VM_FILE
        pg.va pg.writable (some .lazy_load_segment) _ = next at hrun
      obtain ⟨hsane, hother, -⟩ := vm_alloc_page_sane (hfiles fs) hround hnext
      split at hrun
      · have hkept := vm_copy_claim_page_kept hsane.registered hrun
        exact ⟨hsane.kept hkept, fun t' ht' va' => (hkept.page_at t' va').trans (hother t' ht' va')⟩
      · obtain rfl := (Outcome.ok_pair hrun).2
        exact ⟨hsane, hother⟩
  | anon i =>
      rw [hk] at hrun
      unfold copy_anon at hrun
      dsimp only at hrun
      generalize hnext : vm_alloc_page_with_initializer s t .VM_ANON pg.va pg.writable none .null
        = next at hrun
      obtain ⟨hsane, hother, -⟩ := vm_alloc_page_sane h hround hnext
      split at hrun
      · obtain ⟨⟨claimed, s₁⟩, hclaim, hrun⟩ := Outcome.bind_eq_ok.mp hrun
        have hkept := vm_copy_claim_page_kept hsane.registered hclaim
        have h₁ : s₁.Sane ∧ ∀ t', t' ≠ t → ∀ va, s₁.page_at t' va = s.page_at t' va :=
          ⟨hsane.kept hkept, fun t' ht' va' => (hkept.page_at t' va').trans (hother t' ht' va')⟩
        cases claimed with
        | false =>
            obtain rfl := (Outcome.ok_pair hrun).2
            exact h₁
        | true =>
            obtain ⟨s₂, hcopy, hrun⟩ := Outcome.bind_eq_ok.mp hrun
            obtain rfl := (Outcome.ok_pair hrun).2
            have hmem : ∃ k m, s₂ = s₁.set_mem k m := copy_frame_contents_eq_ok hcopy
            obtain ⟨k, m, rfl⟩ := hmem
            exact ⟨h₁.1.kept (.of_rest rfl rfl rfl rfl), h₁.2⟩
      · obtain rfl := (Outcome.ok_pair hrun).2
        exact ⟨hsane, hother⟩

/-- What every `copy_page` keeps, the loop over the parent's pages keeps. -/
theorem supplemental_page_table_copy_related {parent : ℕ} (hne : parent ≠ t) {R : vm → vm → Prop}
    (hrefl : ∀ s, R s s) (htrans : ∀ {s₁ s₂ s₃}, R s₁ s₂ → R s₂ s₃ → R s₁ s₃)
    (hone : ∀ {s s' : vm} {src : ℕ} {done : Bool}, s.Sane →
      (∀ {pg}, s.page src = some pg → pg_round_down pg.va = pg.va) →
      copy_page s t src = .ok (done, s') → R s s')
    (entries : List (Sigma fun _ : ℕ => ℕ)) : ∀ {s s' : vm} {done : Bool}, s.Sane →
      (∀ x ∈ entries, s.page_at parent x.1 = some x.2) →
      supplemental_page_table_copy t entries s = .ok (done, s') → s'.Sane ∧ R s s' := by
  induction entries with
  | nil =>
      intro s s' done h _ hrun
      obtain rfl := (Outcome.ok_pair hrun).2
      exact ⟨h, hrefl s⟩
  | cons x entries ih =>
      intro s s' done h hentries hrun
      obtain ⟨va, src⟩ := x
      rw [supplemental_page_table_copy] at hrun
      obtain ⟨⟨copied, s₁⟩, hcopy, hrun⟩ := Outcome.bind_eq_ok.mp hrun
      have hsrc : s.page_at parent va = some src := hentries ⟨va, src⟩ List.mem_cons_self
      have hround : ∀ {pg}, s.page src = some pg → pg_round_down pg.va = pg.va := by
        intro pg hpg
        rw [h.registered.va (registered_eq_some.mpr ⟨src, hsrc, hpg⟩)]
        exact h.registered.aligned hsrc
      obtain ⟨h₁, hother⟩ := copy_page_sane h hround hcopy
      have hR := hone h hround hcopy
      cases copied with
      | false =>
          obtain rfl := (Outcome.ok_pair hrun).2
          exact ⟨h₁, hR⟩
      | true =>
          refine (ih h₁ (fun x hx => ?_) hrun).imp_right (htrans hR)
          rw [hother parent hne]
          exact hentries x (List.mem_cons_of_mem _ hx)

theorem new_process_sane (h : s.Sane) : s.new_process.Sane := by
  have hproc : ∀ t', s.new_process.proc t' = if t' = s.next_proc then process.empty
      else s.proc t' :=
    fun t' => Function.update_apply _ _ _ _
  have hat : ∀ {t' va q}, s.new_process.page_at t' va = some q → s.page_at t' va = some q := by
    intro t' va q hq
    unfold vm.page_at at hq ⊢
    rw [hproc] at hq
    split at hq
    · cases hq
    · exact hq
  refine h.shrink hat (fun _ => rfl) (fun q pg hq => ⟨pg, hq⟩) le_rfl (fun t' ht' => ?_)
    fun {t' va} hw => ?_
  · rw [hproc] at ht'
    show t' < s.next_proc + 1
    split at ht'
    · omega
    · exact (h.registered.alive ht').trans (Nat.lt_succ_self _)
  · obtain ⟨e, hpte, hrest⟩ := hw
    unfold vm.pte_at at hpte
    unfold vm.page_at
    rw [hproc] at hpte ⊢
    split at hpte
    · cases hpte
    · rename_i ht
      rw [if_neg ht]
      exact ⟨⟨e, hpte, hrest⟩, fun p hp => hp⟩

/-- What `copy_page`, the making of the process and its end keep, `process_fork` keeps. -/
theorem process_fork_related {parent : ℕ} {R : vm → vm → Prop}
    (hrefl : ∀ s, R s s) (htrans : ∀ {s₁ s₂ s₃}, R s₁ s₂ → R s₂ s₃ → R s₁ s₃)
    (hone : ∀ {s s' : vm} {t src : ℕ} {done : Bool}, s.Sane →
      (∀ {pg}, s.page src = some pg → pg_round_down pg.va = pg.va) →
      copy_page s t src = .ok (done, s') → R s s')
    (hnew : R s s.new_process) (hexit : ∀ {s s' t}, process_cleanup s t = .ok s' → R s s')
    (h : s.Sane) (halive : (s.proc parent).alive = true)
    (hrun : process_fork s parent = .ok (done, s')) : s'.Sane ∧ R s s' := by
  have hne : parent ≠ s.next_proc := (h.registered.alive halive).ne
  unfold process_fork at hrun
  obtain ⟨⟨copied, s₁⟩, hcopy, hrun⟩ := Outcome.bind_eq_ok.mp hrun
  have hboth := supplemental_page_table_copy_related hne hrefl htrans hone _
    (new_process_sane h) (fun x hx => ?_) hcopy
  · obtain ⟨h₁, hR⟩ := hboth
    cases copied with
    | true =>
        obtain rfl := (Outcome.ok_pair hrun).2
        exact ⟨h₁, htrans hnew hR⟩
    | false =>
        -- what was copied so far is cleaned up again
        obtain ⟨s₂, hend, hrun⟩ := Outcome.bind_eq_ok.mp hrun
        obtain rfl := (Outcome.ok_pair hrun).2
        exact ⟨process_cleanup_sane h₁ hend, htrans (htrans hnew hR) (hexit hend)⟩
  · unfold vm.page_at
    rw [new_process_proc, Function.update_of_ne hne]
    exact AList.mem_lookup_iff.mpr hx

theorem process_fork_sane {parent : ℕ} (h : s.Sane) (halive : (s.proc parent).alive = true)
    (hrun : process_fork s parent = .ok (done, s')) : s'.Sane :=
  (process_fork_related (R := fun _ _ => True) (fun _ => trivial) (fun _ _ => trivial)
    (fun _ _ _ => trivial) trivial (fun _ => trivial) h halive hrun).1

/-! ## Runs -/

/-- **One event** keeps the tables in order. -/
theorem vm_step_sane {e : vm_event} (h : s.Sane) (hstep : vm_step s e = .ok s') : s'.Sane := by
  obtain ⟨halive, hdid⟩ := vm_step_cases hstep
  cases hdid with
  | read hrun => exact user_read_sane h hrun
  | write hrun => exact user_write_sane h hrun
  | mmap hrun => exact sys_mmap_sane h hrun
  | munmap hrun => exact do_munmap_sane h hrun
  | fork hrun => exact process_fork_sane h halive hrun
  | exit hrun => exact process_cleanup_sane h hrun

/-- **Runs.** Whatever processes do to their memory, no entry of a page table permits more than its
page. -/
theorem vm_run_sane (events : List vm_event) : ∀ {s s' : vm}, s.Sane →
    vm_run events s = .ok s' → s'.Sane := by
  induction events with
  | nil =>
      intro s s' h hrun
      obtain rfl := Outcome.ok.inj hrun
      exact h
  | cons e events ih =>
      intro s s' h hrun
      rw [vm_run] at hrun
      obtain ⟨s₁, hstep, hrun⟩ := Outcome.bind_eq_ok.mp hrun
      exact ih (vm_step_sane h hstep) hrun

end vm

end Pintos
