/-
Runs in which the frame table stays sound.

`vm_get_frame` links a frame before it has a page, and `vm_handle_wp` never gives it one; pages are
freed with the frame that names them still on the list. A run is sound as long as it does neither:
a written page is not shared, and what is unmapped, or dies with its process, is named by no frame.
-/
import Pintos.Vm.FrameFaults
import Pintos.Vm.Stale

set_option autoImplicit false

namespace Pintos

namespace vm

variable {s s' : vm} {t va p f : ℕ} {pg : Pintos.page} {fr : Pintos.frame} {done : Bool}

/-! ## `fork` -/

/-- No frame is stored with another page than before. -/
def SameNames (s s' : vm) : Prop :=
  ∀ g gr', s'.frame g = some gr' → ∃ gr, s.frame g = some gr ∧ gr'.page = gr.page

theorem SameNames.refl (s : vm) : SameNames s s := fun _ gr' hg => ⟨gr', hg, rfl⟩

theorem SameNames.trans {s'' : vm} (h : SameNames s s') (h' : SameNames s' s'') :
    SameNames s s'' := by
  intro g gr'' hg
  obtain ⟨gr', hg', hp'⟩ := h' g gr'' hg
  obtain ⟨gr, hg, hp⟩ := h g gr' hg'
  exact ⟨gr, hg, hp'.trans hp⟩

theorem SameNames.named (h : SameNames s s') {q : ℕ} (hq : s'.Named q) : s.Named q := by
  obtain ⟨g, gr', hg, hp'⟩ := hq
  obtain ⟨gr, hg, hp⟩ := h g gr' hg
  exact ⟨g, gr, hg, hp ▸ hp'⟩

/-- A new page shares the frame. -/
theorem Listed.fork_share (h : Listed s none_new) (new : Pintos.page) (ht : t < s.next_proc)
    (hround : pg_round_down new.va = new.va) (hnone : s.page_at t new.va = none)
    (hframe : new.frame = none) (hf : s.frame f = some fr) (kd : page_kind) (m : Bytes)
    (hkd : ∀ u, kd ≠ .uninit u) :
    Listed ((s.fork_share t new f fr kd).set_mem fr.kva m) none_new
      ∧ SameNames s ((s.fork_share t new f fr kd).set_mem fr.kva m) := by
  have h₁ := h.register new ht hround hnone hframe
  have hp : (s.register t new).page_at t new.va = some s.next_page := by
    rw [page_at_register, if_pos ⟨rfl, rfl⟩]
  have hpg : (s.register t new).page s.next_page = some new := Function.update_self _ _ _
  have hf₁ : (s.register t new).frame f = some fr := hf
  have hno : ∀ {g gr}, (s.register t new).frame g = some gr → gr.page ≠ some s.next_page :=
    fun {g gr} hg hq => h.not_named_next ⟨g, gr, hg, hq⟩
  have hjoined : Joined (s.register t new) t new.va s.next_page new f
      { fr with ref_cnt := fr.ref_cnt + 1 } kd ((s.fork_share t new f fr kd).set_mem fr.kva m) := by
    refine ⟨hkd, fun t' va' => page_at_fork_share s t new f fr kd t' va', ?_, rfl, rfl,
      rfl, rfl, rfl, rfl, fun t' => alive_set_pte _ _ _ _ _, fun t' va' k hk => ?_⟩
    · exact Function.update_idem _ _ _
    · rcases (maps_set_pte _ _ _ _ _ _ _).mp hk with ⟨ht', hva, -⟩ | ⟨-, hk⟩
      · exact .inl ⟨ht', hva⟩
      · exact .inr hk
  refine ⟨?_, fun g gr' hg => ?_⟩
  · have hkva : ({ fr with ref_cnt := fr.ref_cnt + 1 } : Pintos.frame).kva = fr.kva := rfl
    exact h₁.join (fun _ _ hg => hg) hp hpg hf₁ hkva ((h₁.counted hf₁).insert fun _ hx => hx)
      (.inr ⟨id, rfl, hno hf₁⟩) (fun _ hg => hno hg) hjoined
  · rw [hjoined.frame] at hg
    by_cases hgf : g = f
    · subst hgf
      rw [Function.update_self] at hg
      exact ⟨fr, hf, by rw [← Option.some.inj hg]⟩
    · rw [Function.update_of_ne hgf] at hg
      exact ⟨gr', hg, rfl⟩

/-- **One turn of the loop** of `supplemental_page_table_copy`. -/
theorem Copied.listed (h : Listed s none_new) (ht : t < s.next_proc)
    (hround : pg_round_down pg.va = pg.va) (hnone : s.page_at t pg.va = none)
    (hcase : Copied s t pg done s') :
    Listed s' none_new ∧ SameNames s s' ∧ s'.next_proc = s.next_proc := by
  cases hcase with
  | @uninit u aux fs hk haux =>
      have h₁ : Listed (s.set_files fs) none_new := h.same (.set_files s fs) rfl
      exact ⟨h₁.register (fork_uninit_page pg u aux) ht hround hnone rfl, .refl s, rfl⟩
  | @file fp file f fs fr m done hk hopen hpf hfr hload =>
      have h₁ : Listed (s.set_files fs) none_new := h.same (.set_files s fs) rfl
      obtain ⟨hl, hnames⟩ := h₁.fork_share (fork_file_page pg fp file) ht hround hnone rfl hfr
        (fork_file_kind fp file) m nofun
      exact ⟨hl, hnames, rfl⟩
  | @anon i f fr hk hpf hfr =>
      obtain ⟨hl, hnames⟩ := h.fork_share (fork_anon_page pg) ht hround hnone rfl hfr (.anon (-1))
        (s.mem fr.kva) nofun
      have hmem : (s.fork_share t (fork_anon_page pg) f fr (.anon (-1))).set_mem fr.kva
          (s.mem fr.kva) = s.fork_share t (fork_anon_page pg) f fr (.anon (-1)) := set_mem_self _ _
      rw [hmem] at hl hnames
      exact ⟨hl, hnames, rfl⟩

/-- A process that does not exist yet. -/
theorem Listed.new_process (h : Listed s none_new) : Listed s.new_process none_new := by
  obtain ⟨hat, -, halive⟩ := new_process_tables s
  refine ⟨h.registered.new_process, h.nodup, h.linked, h.fresh, fun hf _ => ?_, h.kva_inj, h.used,
    fun hf => ?_, fun hr => ?_, fun hr hu => ?_, fun hk => ?_, fun {t' va' q} hq => ?_⟩
  · obtain ⟨p, t', va', hp, hat', hr⟩ := h.named hf id
    have hne : t' ≠ s.next_proc := (h.owned hat').ne
    exact ⟨p, t', va', hp, by rw [hat, if_neg hne, hat'], (resident_new_process s _ _ _).mpr ⟨hne, hr⟩⟩
  · exact (h.counted hf).mono (fun x hx => ((resident_new_process s _ _ _).mp hx).2) le_rfl
  · exact h.bound ((resident_new_process s _ _ _).mp hr).2
  · rw [registered_new_process] at hr
    split at hr
    · cases hr
    · exact h.touched hr hu
  · obtain ⟨hne, hk⟩ := (maps_new_process s _ _ _).mp hk
    obtain ⟨qg, hq, hkind⟩ := h.maps hk
    exact ⟨qg, by rw [registered_new_process, if_neg hne, hq], hkind⟩
  · show t' < s.next_proc + 1
    rw [hat] at hq
    split at hq
    · cases hq
    · exact Nat.lt_succ_of_lt (h.owned hq)

/-- **`fork`**, whether the copy succeeds or not: the pages of the child are named by no frame. -/
theorem Listed.process_fork {parent : ℕ} (h : Listed s none_new)
    (hparent : (s.proc parent).alive = true)
    (hrun : Pintos.process_fork s parent = .ok (done, s')) :
    Listed s' none_new := by
  have hne : parent ≠ s.next_proc := (h.registered.alive hparent).ne
  have h₀ := h.new_process
  obtain ⟨hat, -, -⟩ := new_process_tables s
  have hchild : ∀ va, s.new_process.page_at s.next_proc va = none := by
    intro va
    rw [hat, if_pos rfl]
  unfold Pintos.process_fork at hrun
  obtain ⟨⟨copied, s₁⟩, hcopy, hrun⟩ := Outcome.bind_eq_ok.mp hrun
  obtain ⟨⟨h₁, hnames, -⟩, hothers, -⟩ := supplemental_page_table_copy_rule
    (I := fun x => Listed x none_new ∧ SameNames s.new_process x
      ∧ x.next_proc = s.next_proc + 1) hne
    (fun hi => hi.1.registered)
    (fun {x va pg f fr} hi hreg hpf hf => by
      have hone := hi.1.counted hf [(parent, va)] (List.nodup_singleton _)
        (by simpa using ⟨pg, hreg, hpf⟩)
      simpa using hone)
    (fun {x x' va pg done} hi hreg hnone hcase => by
      obtain ⟨hl, hs, hn⟩ := hi
      obtain rfl := hl.registered.va hreg
      obtain ⟨q, hq, -⟩ := registered_eq_some.mp hreg
      obtain ⟨hl', hs', hn'⟩ := Copied.listed hl (by omega) (hl.registered.aligned hq) hnone hcase
      exact ⟨hl', hs.trans hs', hn'.trans hn⟩)
    _ ⟨h₀, .refl _, rfl⟩ (s.proc parent).spt.nodupKeys
    (fun x hx => by
      rw [hat, if_neg hne]
      exact AList.mem_lookup_iff.mpr hx)
    (fun x hx => hchild x.1) hcopy
  cases copied with
  | true =>
      obtain rfl := (Outcome.ok_pair hrun).2
      exact h₁
  | false =>
      obtain ⟨s₂, hexit, hrun⟩ := Outcome.bind_eq_ok.mp hrun
      obtain rfl := (Outcome.ok_pair hrun).2
      refine h₁.process_cleanup (fun va q hq hnamed => ?_) hexit
      -- what a frame names was registered elsewhere before
      obtain ⟨g, gr, hg, hgq⟩ := hnames.named hnamed
      obtain ⟨q', t', va', hq', hat', -⟩ := h₀.named hg id
      obtain rfl := Option.some.inj (hgq.symm.trans hq')
      have ht' : t' ≠ s.next_proc := by
        rintro rfl
        rw [hchild] at hat'
        cases hat'
      exact ht' (h₁.registered.inj hq ((hothers t' ht' va').trans hat')).1

/-! ## `mmap` and `munmap` -/

theorem Listed.sys_mmap {addr length file : ℕ} {writable : Bool} {offset : ℤ}
    (h : Listed s none_new) (ht : t < s.next_proc)
    (hrun : Pintos.sys_mmap s t addr length writable file offset = .ok s') :
    Listed s' none_new := by
  rcases sys_mmap_cases hrun with rfl | ⟨hround, hrun⟩
  · exact h
  · obtain ⟨reopen_file, fs, fuel, n, -, hloop⟩ := do_mmap_eq_ok hrun
    have h₀ : Listed (s.set_files fs) none_new := h.same (.set_files s fs) rfl
    refine (mmap_loop_rule (I := fun x => Listed x none_new ∧ t < x.next_proc) ?_ fuel
      ⟨h₀, ht⟩ hround hloop).1
    intro x x' done upage i c hi hround _ hnext
    rcases vm_alloc_page_cases hnext with ⟨-, rfl⟩ | ⟨-, hnone, pi, -, rfl⟩
    · exact hi
    · exact ⟨hi.1.register (lazy_page upage writable _) hi.2 hround hnone rfl, hi.2⟩

/-- The loop of `do_munmap` takes the page `q` out. -/
inductive Unmaps (s : vm) (t : ℕ) (w : file_word) : ℕ → ℤ → ℕ → Prop
  | here {addr : ℕ} {n : ℤ} {q : ℕ} (h : is_my_mmap s t addr w n = .ok (some q)) :
        Unmaps s t w addr n q
  | later {addr : ℕ} {n : ℤ} {p q : ℕ} (h : is_my_mmap s t addr w n = .ok (some p))
      (hrest : Unmaps s t w (addr + PGSIZE) (i32 (n + 1)) q) : Unmaps s t w addr n q

/-- Unmapping takes no page that a frame names. -/
def MunmapOk (s : vm) (t addr : ℕ) : Prop :=
  ∀ p pg, s.page_at t (pg_round_down addr) = some p → s.page p = some pg → ¬ s.Named p
    ∧ ∀ q, s.Unmaps t (union_file pg.kind) (addr + PGSIZE)
      (i32 (union_mapping_count s pg.kind + 1)) q → ¬ s.Named q

/-- What is accepted after a page was taken out was accepted before. -/
theorem is_my_mmap_before {addr : ℕ} {w : file_word} {n : ℤ} {q : ℕ}
    (hat : ∀ va' q, s'.page_at t va' = some q → s.page_at t va' = some q ∧ s'.page q = s.page q)
    (hword : s'.lazy_load_segment_word = s.lazy_load_segment_word)
    (h : is_my_mmap s' t addr w n = .ok (some q)) : is_my_mmap s t addr w n = .ok (some q) := by
  have hcount : ∀ k, union_mapping_count s' k = union_mapping_count s k := by
    intro k
    unfold union_mapping_count
    rw [hword]
  have hq := is_my_mmap_some h
  obtain ⟨hq', hpage⟩ := hat _ _ hq
  have hget : s'.get_page q = s.get_page q := by
    unfold get_page
    rw [hpage]
  unfold is_my_mmap spt_find_page at h ⊢
  rw [hq] at h
  rw [hq']
  dsimp only at h ⊢
  rw [hget] at h
  simp only [hcount] at h
  exact h

theorem Unmaps.before {addr : ℕ} {w : file_word} {n : ℤ} {q : ℕ}
    (hat : ∀ va' q, s'.page_at t va' = some q → s.page_at t va' = some q ∧ s'.page q = s.page q)
    (hword : s'.lazy_load_segment_word = s.lazy_load_segment_word) (h : s'.Unmaps t w addr n q) :
    s.Unmaps t w addr n q := by
  induction h with
  | here h => exact .here (is_my_mmap_before hat hword h)
  | later h _ ih => exact .later (is_my_mmap_before hat hword h) ih

/-- **The loop of `do_munmap`** leaves the pages below it. -/
theorem Listed.munmap_loop (w : file_word) (fuel : ℕ) : ∀ {s s' : vm} {addr : ℕ} {n : ℤ},
    Listed s none_new → (∀ q, s.Unmaps t w addr n q → ¬ s.Named q) →
      Pintos.munmap_loop t w fuel s addr n = .ok s' →
      Listed s' none_new ∧ (∀ q, s'.Named q → s.Named q)
        ∧ ∀ va, va < pg_round_down addr → s'.page_at t va = s.page_at t va := by
  induction fuel with
  | zero =>
      intro s s' addr n _ _ hrun
      cases hrun
  | succ fuel ih =>
      intro s s' addr n h hok hrun
      rw [Pintos.munmap_loop] at hrun
      obtain ⟨found, hfound, hrun⟩ := Outcome.bind_eq_ok.mp hrun
      cases found with
      | none =>
          obtain rfl := Outcome.ok.inj hrun
          exact ⟨h, fun _ hq => hq, fun _ _ => rfl⟩
      | some p =>
          obtain ⟨s₁, hs₁, hrun⟩ := Outcome.bind_eq_ok.mp hrun
          have hp := is_my_mmap_some hfound
          obtain ⟨h₁, hnames, hat, hpage, hword⟩ := h.remove hp (hok p (.here hfound)) hs₁
          have hbefore : ∀ va' q, s₁.page_at t va' = some q →
              s.page_at t va' = some q ∧ s₁.page q = s.page q := by
            intro va' q hq
            rw [hat] at hq
            split at hq
            · cases hq
            · rename_i hne
              refine ⟨hq, ?_⟩
              rw [hpage, Function.update_of_ne]
              rintro rfl
              exact hne (h.registered.inj hp hq)
          obtain ⟨h', hnames', hbelow⟩ := ih h₁ (fun q hq hnamed =>
            hok q (.later hfound (Unmaps.before hbefore hword hq)) (hnames q hnamed)) hrun
          refine ⟨h', fun q hq => hnames q (hnames' q hq), fun va hva => ?_⟩
          rw [hbelow va, hat, if_neg]
          · rintro ⟨-, rfl⟩
            exact hva.false
          · rw [pg_round_down_add_PGSIZE]
            omega

/-- **`do_munmap`** of pages that no frame names. -/
theorem Listed.do_munmap {addr : ℕ} (h : Listed s none_new) (hok : s.MunmapOk t addr)
    (hrun : Pintos.do_munmap s t addr = .ok s') : Listed s' none_new := by
  unfold Pintos.do_munmap spt_find_page at hrun
  cases hp : s.page_at t (pg_round_down addr) with
  | none =>
      rw [hp] at hrun
      obtain rfl := Outcome.ok.inj hrun
      exact h
  | some p =>
      rw [hp] at hrun
      obtain ⟨pg, hpg, hrun⟩ := Outcome.bind_eq_ok.mp hrun
      obtain ⟨s₁, hs₁, hrun⟩ := Outcome.bind_eq_ok.mp hrun
      obtain ⟨hno, hrest⟩ := hok p pg hp (get_page_eq_ok.mp hpg)
      obtain ⟨h₁, hnames, hbelow⟩ := Listed.munmap_loop _ _ h hrest hs₁
      -- the first page is below what the loop looks at
      have hp₁ : s₁.page_at t (pg_round_down addr) = some p := by
        rw [hbelow, hp]
        rw [pg_round_down_add_PGSIZE]
        unfold PGSIZE
        omega
      exact (h₁.remove hp₁ (fun hq => hno (hnames p hq)) hrun).1

/-! ## Runs -/

/-- All pages that have the frame, counted by it. -/
def SharedExactly (s : vm) (f : ℕ) (fr : Pintos.frame) : Prop :=
  ∃ l : List (ℕ × ℕ), l.Nodup ∧ (∀ x, x ∈ l ↔ s.Resident x.1 x.2 f) ∧ 2 ≤ l.length
    ∧ fr.ref_cnt = l.length

/-- What an eviction relies on. -/
structure FrameTableSound (s : vm) : Prop where
  linked : ∀ f ∈ s.frame_table, ∃ fr p t va pg, s.frame f = some fr ∧ fr.page = some p
    ∧ s.page_at t va = some p ∧ s.page p = some pg ∧ (pg.frame = some f ∨ s.SharedExactly f fr)
  kva_inj : ∀ f ∈ s.frame_table, ∀ g ∈ s.frame_table, ∀ fr gr, s.frame f = some fr →
    s.frame g = some gr → gr.kva = fr.kva → g = f

theorem Listed.sound (h : Listed s none_new) : s.FrameTableSound := by
  refine ⟨fun f hf => ?_, fun f _ g _ fr gr hfr hgr hk => h.kva_inj hfr hgr hk⟩
  obtain ⟨fr, hfr⟩ := (h.linked f).mp hf
  obtain ⟨p, t, va, hp, hat, pg, hreg, hpf⟩ := h.named hfr id
  obtain ⟨q, hq, hpg⟩ := registered_eq_some.mp hreg
  obtain rfl := Option.some.inj (hat.symm.trans hq)
  exact ⟨fr, p, t, va, pg, hfr, hp, hat, hpg, .inl hpf⟩

/-- A machine that has handed out no page yet. -/
theorem Listed.of_no_page (hat : ∀ t va, s.page_at t va = none) (hpage : ∀ p, s.page p = none)
    (halive : ∀ t, (s.proc t).alive = true → t < s.next_proc) (hframe : ∀ f, s.frame f = none)
    (hpte : ∀ t va, s.pte_at t va = none) (htable : s.frame_table = []) : Listed s none_new := by
  have hc := Coherent.of_no_page hat hpage halive hframe hpte
  have hfr : ∀ {f fr}, ¬ s.frame f = some fr := by
    intro f fr hf
    rw [hframe] at hf
    cases hf
  have hreg : ∀ {t va pg}, ¬ s.registered t va = some pg := by
    intro t va pg hr
    obtain ⟨p, hp, -⟩ := registered_eq_some.mp hr
    rw [hat] at hp
    cases hp
  refine ⟨hc.registered, htable ▸ List.nodup_nil, fun f => ?_, fun hf => absurd hf hfr,
    fun hf => absurd hf hfr, fun hf => absurd hf hfr, fun hf => absurd hf hfr,
      fun hf => absurd hf hfr,
    fun hr => ?_, fun hr => absurd hr hreg, fun hk => ?_, fun hp => ?_⟩
  · rw [htable]
    simp [hframe]
  · obtain ⟨pg, hr, -⟩ := hr
    exact absurd hr hreg
  · obtain ⟨e, he, -⟩ := hk
    rw [hpte] at he
    cases he
  · rw [hat] at hp
    cases hp

/-- The event copies no shared frame, and frees no page that a frame names. -/
def KeepsNames (s : vm) : vm_event → Prop
  | .read t addr rsp => s.AccessKeeps t addr rsp false
  | .write t addr rsp _ => s.AccessKeeps t addr rsp true
  | .mmap _ _ _ _ _ _ => True
  | .munmap t addr => s.MunmapOk t addr
  | .fork _ => True
  | .exit t => s.ExitOk t

/-- **One event.** -/
theorem Listed.vm_step {e : vm_event} (h : Listed s none_new) (hok : s.KeepsNames e)
    (hstep : Pintos.vm_step s e = .ok s') : Listed s' none_new := by
  obtain ⟨halive, hdid⟩ := vm_step_cases hstep
  have ht := h.registered.alive halive
  cases hdid with
  | read hrun => exact h.user_read ht hok hrun
  | write hrun => exact h.user_write ht hok hrun
  | mmap hrun => exact h.sys_mmap ht hrun
  | munmap hrun => exact h.do_munmap hok hrun
  | fork hrun => exact h.process_fork halive hrun
  | exit hrun => exact h.process_cleanup hok hrun

/-- Every event of the run keeps the names. -/
def NamedRun : List vm_event → vm → Prop
  | [], _ => True
  | e :: es, s => s.KeepsNames e ∧ ∀ s', Pintos.vm_step s e = .ok s' → NamedRun es s'

theorem Listed.vm_run (es : List vm_event) : ∀ {s s' : vm}, Listed s none_new → NamedRun es s →
    Pintos.vm_run es s = .ok s' → Listed s' none_new := by
  induction es with
  | nil =>
      intro s s' h _ hrun
      obtain rfl := Outcome.ok.inj hrun
      exact h
  | cons e es ih =>
      intro s s' h hok hrun
      rw [Pintos.vm_run] at hrun
      obtain ⟨s₁, hstep, hrun⟩ := Outcome.bind_eq_ok.mp hrun
      exact ih (h.vm_step hok.1 hstep) (hok.2 s₁ hstep) hrun

/-- **The frame table is sound** in every state that a run reaches without copying a shared frame
and without freeing a page that a frame names. -/
theorem frame_table_stays_sound {es : List vm_event} (h : Listed s none_new) (hok : NamedRun es s)
    (hrun : vm_run es s = .ok s') : s'.FrameTableSound := (h.vm_run es hok hrun).sound

/-! ## One page and two -/

theorem one_page_pool_listed : Listed one_page_pool none_new :=
  .of_no_page (fun _ _ => rfl) (fun _ => rfl) (fun _ h => of_decide_eq_true h) (fun _ => rfl)
    (fun _ _ => rfl) rfl

/-- The first page of a stack, and a fork that shares it. -/
theorem frame_table_sound_after_fork : ∃ s,
    vm_run [.write 0 (USER_STACK - 8) USER_STACK 1, .fork 0] one_page_pool = .ok s
      ∧ s.FrameTableSound := by
  obtain ⟨s, hs⟩ : ∃ s, vm_run [.write 0 (USER_STACK - 8) USER_STACK 1, .fork 0] one_page_pool
      = .ok s := ⟨_, rfl⟩
  have hgrow : (one_page_pool.set_rsp 0 USER_STACK).FaultOk 0
      (pg_round_down (USER_STACK - 8)) true := by
    have hrsp : ((one_page_pool.set_rsp 0 USER_STACK).proc 0).user_rsp = USER_STACK := by simp
    refine .inl ?_
    unfold is_stack_growth
    rw [hrsp]
    decide
  have hnamed : NamedRun [.write 0 (USER_STACK - 8) USER_STACK 1, .fork 0] one_page_pool :=
    ⟨fun _ => hgrow, fun _ _ => ⟨trivial, fun _ _ => trivial⟩⟩
  exact ⟨s, hs, frame_table_stays_sound one_page_pool_listed hnamed hs⟩

/-- A machine with two pages. -/
def two_page_pool : vm := { one_page_pool with pool_pages := 2 }

/-- A process that exits leaves the frame of its page on the list, and a page that is copied after a
fork gets a frame that names nothing. -/
theorem frame_table_unsound :
    (∃ s, vm_run [.write 0 (USER_STACK - 8) USER_STACK 1, .exit 0] one_page_pool = .ok s
      ∧ ¬ s.FrameTableSound)
    ∧ ∃ s, vm_run [.write 0 (USER_STACK - 8) USER_STACK 1, .fork 0,
        .write 2 (USER_STACK - 8) USER_STACK 2] two_page_pool = .ok s
      ∧ ¬ s.FrameTableSound := by
  constructor
  · obtain ⟨s, hs⟩ : ∃ s, vm_run [.write 0 (USER_STACK - 8) USER_STACK 1, .exit 0] one_page_pool
        = .ok s := ⟨_, rfl⟩
    obtain ⟨hmem, fr, hf, hp, hfree⟩ : 0 ∈ s.frame_table ∧ ∃ fr, s.frame 0 = some fr
        ∧ fr.page = some 0 ∧ s.page 0 = none := by
      cases hs
      exact ⟨List.mem_singleton_self 0, _, rfl, rfl, rfl⟩
    refine ⟨s, hs, fun h => ?_⟩
    obtain ⟨fr', p, t, va, pg, hf', hp', -, hpg, -⟩ := h.linked 0 hmem
    obtain rfl := Option.some.inj (hf.symm.trans hf')
    obtain rfl := Option.some.inj (hp.symm.trans hp')
    rw [hfree] at hpg
    cases hpg
  · obtain ⟨s, hs⟩ : ∃ s, vm_run [.write 0 (USER_STACK - 8) USER_STACK 1, .fork 0,
        .write 2 (USER_STACK - 8) USER_STACK 2] two_page_pool = .ok s := ⟨_, rfl⟩
    obtain ⟨hmem, fr, hf, hp⟩ : 1 ∈ s.frame_table ∧ ∃ fr, s.frame 1 = some fr ∧ fr.page = none := by
      cases hs
      exact ⟨List.mem_cons_of_mem 0 (List.mem_singleton_self 1), _, rfl, rfl⟩
    refine ⟨s, hs, fun h => ?_⟩
    obtain ⟨fr', p, t, va, pg, hf', hp', -⟩ := h.linked 1 hmem
    obtain rfl := Option.some.inj (hf.symm.trans hf')
    rw [hp] at hp'
    cases hp'

end vm

end Pintos
