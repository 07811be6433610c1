/-
Runs of many processes in which evictions leave no stale mapping.

A run is good when every access that has to evict stops the clock at a frame of the process
that faults: the page the frame names is its own, and nobody else maps the frame. Then the
memory of all processes fits together after every event, and the physical page that an
eviction gives away is mapped at the new place alone.

Nothing in the code makes a run good. The smallest run that is not has two processes and a
pool of one page.
-/
import Pintos.Vm.Access
import Pintos.Vm.Fork
import Pintos.Vm.Permissions
import Pintos.Vm.StackGrowth

set_option autoImplicit false

namespace Pintos

namespace vm

variable {s s' : vm} {t : ℕ} {done : Bool}

/-! ## `mmap` -/

theorem vm_alloc_page_coherent {type : vm_type} {upage : ℕ} {writable : Bool}
    {init : Option vm_initializer} {aux : aux_ptr} (hc : s.Coherent)
    (hround : pg_round_down upage = upage)
    (hrun : vm_alloc_page_with_initializer s t type upage writable init aux = (done, s')) :
    s'.Coherent := by
  rcases vm_alloc_page_cases hrun with ⟨-, rfl⟩ | ⟨-, hnone, pi, -, rfl⟩
  · exact hc
  · exact (hc.register (lazy_page upage writable _) hnone hround rfl (fun i hi => by cases hi)).1

theorem sys_mmap_coherent {addr length file : ℕ} {writable : Bool} {offset : ℤ} (hc : s.Coherent)
    (hrun : sys_mmap s t addr length writable file offset = .ok s') : s'.Coherent := by
  rcases sys_mmap_cases hrun with rfl | ⟨hround, hrun⟩
  · exact hc
  · obtain ⟨reopen_file, fs, fuel, n, -, hloop⟩ := do_mmap_eq_ok hrun
    exact mmap_loop_rule (fun hc hround _ hnext => vm_alloc_page_coherent hc hround hnext) fuel
      ((SameTables.set_files s fs).coherent hc rfl) hround hloop

/-! ## One event -/

/-- The event's evictions stay within the process. -/
def EvictsOnlyOwn (s : vm) : vm_event → Prop
  | .read t addr rsp => AccessOk s t addr rsp false
  | .write t addr rsp _ => AccessOk s t addr rsp true
  | _ => True

/-- If the event's access faulted and its frame came from a victim, the victim's physical page is
mapped by nobody but the page it was given to. -/
def LeavesNoStale (s : vm) (e : vm_event) (s' : vm) : Prop :=
  match e with
  | .read t addr rsp => pte_allows s t addr false = none →
      NoStale (s.set_rsp t rsp) t (pg_round_down addr) false s'
  | .write t addr rsp _ => pte_allows s t addr true = none →
      NoStale (s.set_rsp t rsp) t (pg_round_down addr) true s'
  | _ => True

theorem vm_step_coherent {e : vm_event} (hc : s.Coherent) (hown : s.EvictsOnlyOwn e)
    (hstep : vm_step s e = .ok s') : s'.Coherent ∧ s.LeavesNoStale e s' := by
  obtain ⟨halive, hdid⟩ := vm_step_cases hstep
  cases hdid with
  | read hrun => exact user_read_coherent hc hown hrun
  | write hrun => exact user_write_coherent hc hown hrun
  | mmap hrun => exact ⟨sys_mmap_coherent hc hrun, trivial⟩
  | munmap hrun => exact ⟨do_munmap_coherent hc hrun, trivial⟩
  | fork hrun => exact ⟨process_fork_coherent hc halive hrun, trivial⟩
  | exit hrun => exact ⟨(process_cleanup_coherent hc hrun).1, trivial⟩

/-! ## Runs -/

/-- Every event of the run evicts only pages of its own process. -/
def GoodRun : List vm_event → vm → Prop
  | [], _ => True
  | e :: es, s => s.EvictsOnlyOwn e ∧ ∀ s', vm_step s e = .ok s' → GoodRun es s'

theorem GoodRun.last {es : List vm_event} {e : vm_event} (h : GoodRun (es ++ [e]) s)
    (hrun : vm_run es s = .ok s') : GoodRun es s ∧ s'.EvictsOnlyOwn e := by
  induction es generalizing s with
  | nil =>
    obtain rfl := Outcome.ok.inj hrun
    exact ⟨trivial, h.1⟩
  | cons e' es ih =>
    rw [vm_run] at hrun
    obtain ⟨s₁, hstep, hrun⟩ := Outcome.bind_eq_ok.mp hrun
    refine ⟨⟨h.1, fun s₂ hstep₂ => ?_⟩, (ih (h.2 s₁ hstep) hrun).2⟩
    obtain rfl := Outcome.ok.inj (hstep.symm.trans hstep₂)
    exact (ih (h.2 s₁ hstep) hrun).1

theorem vm_run_coherent (es : List vm_event) (hc : s.Coherent) (hgood : GoodRun es s)
    (hrun : vm_run es s = .ok s') : s'.Coherent := by
  induction es generalizing s with
  | nil =>
    obtain rfl := Outcome.ok.inj hrun
    exact hc
  | cons e es ih =>
    rw [vm_run] at hrun
    obtain ⟨s₁, hstep, hrun⟩ := Outcome.bind_eq_ok.mp hrun
    exact ih (vm_step_coherent hc hgood.1 hstep).1 (hgood.2 s₁ hstep) hrun

/-- Pages of different processes share a physical page through one frame that counts both. -/
def SharedByCount (s : vm) : Prop := ∀ t va t' va' k, t ≠ t' → s.Maps t va k → s.Maps t' va' k →
  ∃ f fr, s.frame f = some fr ∧ fr.kva = k ∧ s.Resident t va f ∧ s.Resident t' va' f
    ∧ 1 < fr.ref_cnt

theorem Mapped.sharedByCount (h : s.Mapped) : s.SharedByCount := by
  intro t va t' va' k hne hk hk'
  obtain ⟨f, fr, hf, hkva, hr, hr'⟩ := h.frame_of_maps hk hk'
  have hpair : (t, va) ≠ (t', va') := fun heq => hne (congrArg Prod.fst heq)
  have htwo : 2 ≤ fr.ref_cnt := (h.counted hf).two_le hr hr' hpair
  exact ⟨f, fr, hf, hkva, hr, hr', by omega⟩

/-- **Evictions.** In a good run every event leaves no stale mapping, and in every state it reaches
different processes share physical pages by reference count alone. An event is coherent with the
page tables before it and after it, because an eviction unmaps in the one page table that has the
page. -/
theorem eviction_leaves_no_stale_mapping {es : List vm_event} {e : vm_event}
    {s₁ s₂ : vm} {start : ℕ}
    (_hlow : s.LowPool start) (hc : s.Coherent) (hgood : GoodRun (es ++ [e]) s)
    (hrun : vm_run es s = .ok s₁)
    (hstep : vm_step s₁ e = .ok s₂) :
    s₁.LeavesNoStale e s₂ ∧ s₁.SharedByCount ∧ s₂.SharedByCount := by
  obtain ⟨hbefore, hown⟩ := hgood.last hrun
  have hc₁ := vm_run_coherent es hc hbefore hrun
  obtain ⟨hc₂, hstale⟩ := vm_step_coherent hc₁ hown hstep
  exact ⟨hstale, hc₁.mapped.sharedByCount, hc₂.mapped.sharedByCount⟩

/-! ## One page of memory -/

/-- Two processes with nothing mapped, and a swap area of one slot. -/
def one_page_pool : vm :=
  { fresh_stack USER_STACK with
    proc := fun t => { process.empty with alive := t < 2 }
    next_proc := 2
    swap_disk := { capacity := 8, sectors := fun _ => zeros, written := [] } }

theorem one_page_pool_coherent : one_page_pool.Coherent :=
  .of_no_page (fun _ _ => rfl) (fun _ => rfl) (fun _ h => of_decide_eq_true h) (fun _ => rfl)
    (fun _ _ => rfl)

theorem frame_demand_cases {va : ℕ} {write : Bool} {s₀ : vm}
    (h : frame_demand s t va write = some s₀) :
    s₀ = s ∧ s.page_at t va ≠ none
      ∨ s₀ = s.register t (stack_page va) ∧ s.page_at t va = none := by
  unfold frame_demand at h
  cases hat : s.page_at t va with
  | none =>
    rw [hat] at h
    dsimp only at h
    split_ifs at h
    exact .inr ⟨(Option.some.inj h).symm, rfl⟩
  | some p =>
    rw [hat] at h
    refine .inl ⟨?_, Option.some_ne_none p⟩
    dsimp only at h
    split at h
    · cases h
    · split_ifs at h
      split at h
      · split_ifs at h
        exact (Option.some.inj h).symm
      · cases h
      · exact (Option.some.inj h).symm

/-- The first write finds the page of the pool free. -/
theorem first_write_own :
    one_page_pool.EvictsOnlyOwn (.write 0 (USER_STACK - 8) USER_STACK 1) := by
  intro hno s₀ hdem hpal
  rcases frame_demand_cases hdem with ⟨rfl, -⟩ | ⟨rfl, -⟩
  · cases hpal
  · cases hpal

/-- A process that pushes past its only page evicts that page, and no other. -/
theorem own_page_evicted : ∃ s₁ s₂,
    vm_run [.write 0 (USER_STACK - 8) USER_STACK 1] one_page_pool = .ok s₁
      ∧ vm_step s₁ (.write 0 (USER_STACK - PGSIZE - 8) (USER_STACK - PGSIZE) 2) = .ok s₂
      ∧ s₁.LeavesNoStale (.write 0 (USER_STACK - PGSIZE - 8) (USER_STACK - PGSIZE) 2) s₂
      ∧ s₁.SharedByCount ∧ s₂.SharedByCount := by
  obtain ⟨s₁, h₁⟩ : ∃ s₁,
      vm_run [.write 0 (USER_STACK - 8) USER_STACK 1] one_page_pool = .ok s₁ := ⟨_, rfl⟩
  obtain ⟨s₂, h₂⟩ : ∃ s₂, vm_step s₁
      (.write 0 (USER_STACK - PGSIZE - 8) (USER_STACK - PGSIZE) 2) = .ok s₂ := by
    cases h₁
    exact ⟨_, rfl⟩
  have hfirst := first_write_own
  have hstep : ∀ {s'}, vm_step one_page_pool (.write 0 (USER_STACK - 8) USER_STACK 1) = .ok s' →
      s' = s₁ := by
    intro s' hs'
    rw [vm_run, hs'] at h₁
    exact Outcome.ok.inj h₁
  have hgood₁ : GoodRun [.write 0 (USER_STACK - 8) USER_STACK 1] one_page_pool :=
    ⟨hfirst, fun _ _ => trivial⟩
  have hc₁ := vm_run_coherent _ one_page_pool_coherent hgood₁ h₁
  have hsecond : s₁.EvictsOnlyOwn
      (.write 0 (USER_STACK - PGSIZE - 8) (USER_STACK - PGSIZE) 2) := by
    intro hno s₀ hdem hpal v s₃ hv
    have hva : pg_round_down (USER_STACK - PGSIZE - 8) = USER_STACK - 2 * PGSIZE := by decide
    rw [hva] at hdem
    have hc := (SameMap.set_rsp s₁ 0 (USER_STACK - PGSIZE)).coherent hc₁
    have hnone : (s₁.set_rsp 0 (USER_STACK - PGSIZE)).page_at 0
        (USER_STACK - 2 * PGSIZE) = none := by
      cases h₁
      rfl
    rcases frame_demand_cases hdem with ⟨-, hat⟩ | ⟨rfl, -⟩
    · exact absurd hnone hat
    · obtain ⟨s₄, hclock, fr, hfr, hpage, pg, hpg, hat, hframe⟩ : ∃ s₄,
          vm_get_victim ((s₁.set_rsp 0 (USER_STACK - PGSIZE)).register 0
            (stack_page (USER_STACK - 2 * PGSIZE))) 0 = .ok (0, s₄)
          ∧ ∃ fr, s₁.frame 0 = some fr ∧ fr.page = some 0 ∧ ∃ pg, s₁.page 0 = some pg
            ∧ s₁.page_at 0 pg.va = some 0 ∧ pg.frame = some 0 := by
        cases h₁
        exact ⟨_, rfl, _, rfl, rfl, _, rfl, rfl, rfl⟩
      rw [hclock] at hv
      obtain ⟨rfl, -⟩ := Outcome.ok_pair hv
      obtain ⟨-, hother, hself⟩ := hc.register (stack_page (USER_STACK - 2 * PGSIZE)) hnone
        (by decide) rfl (fun i hi => by cases hi)
      have hlast : s₁.next_page = 1 := by
        cases h₁
        rfl
      have hold : (s₁.set_rsp 0 (USER_STACK - PGSIZE)).page_at 0 pg.va = some 0 :=
        ((SameMap.set_rsp s₁ 0 (USER_STACK - PGSIZE)).page_at 0 pg.va).trans hat
      refine ⟨fr, 0, pg, hfr, hpage, ?_, ?_, hframe, ?_⟩
      · have hne : 0 ≠ (s₁.set_rsp 0 (USER_STACK - PGSIZE)).next_page := by
          rw [show (s₁.set_rsp 0 (USER_STACK - PGSIZE)).next_page = 1 from hlast]
          decide
        exact (Function.update_of_ne hne _ _).trans hpg
      · rw [page_at_register, if_neg]
        · exact hold
        · rintro ⟨-, heq⟩
          rw [heq] at hold
          exact absurd (hnone.symm.trans hold) (by simp)
      · -- the heap has one page besides the new one, which has no frame
        rintro t' va' ⟨pg', hpg', hres⟩
        have hne : ¬ (t' = 0 ∧ va' = (stack_page (USER_STACK - 2 * PGSIZE)).va) := by
          rintro ⟨rfl, rfl⟩
          rw [hself] at hpg'
          rw [← Option.some.inj hpg'] at hres
          cases hres
        rw [hother t' va' hne] at hpg'
        obtain ⟨q, hq, hqg⟩ := registered_eq_some.mp hpg'
        have hlt := hc.registered.fresh hqg
        have hzero : q = 0 := by
          rw [show (s₁.set_rsp 0 (USER_STACK - PGSIZE)).next_page = 1 from hlast] at hlt
          omega
        rw [hzero] at hq
        exact hc.registered.inj hold hq
  have hgood : GoodRun ([.write 0 (USER_STACK - 8) USER_STACK 1]
      ++ [.write 0 (USER_STACK - PGSIZE - 8) (USER_STACK - PGSIZE) 2]) one_page_pool :=
    ⟨hfirst, fun s' hs' => ⟨(hstep hs') ▸ hsecond, fun _ _ => trivial⟩⟩
  have hlow : one_page_pool.LowPool 0x400000 := by
    unfold LowPool
    decide
  exact ⟨s₁, s₂, h₁, h₂, eviction_leaves_no_stale_mapping hlow one_page_pool_coherent hgood h₁ h₂⟩

/-- The second process takes the page of the first, which maps it still. -/
theorem stale_after_two_writes : ∃ s₁ s₂,
    vm_run [.write 0 (USER_STACK - 8) USER_STACK 1] one_page_pool = .ok s₁
      ∧ vm_step s₁ (.write 1 (USER_STACK - 8) USER_STACK 2) = .ok s₂
      ∧ ¬ s₁.LeavesNoStale (.write 1 (USER_STACK - 8) USER_STACK 2) s₂ ∧ ¬ s₂.SharedByCount := by
  obtain ⟨s₁, h₁⟩ : ∃ s₁,
      vm_run [.write 0 (USER_STACK - 8) USER_STACK 1] one_page_pool = .ok s₁ := ⟨_, rfl⟩
  have hva : pg_round_down (USER_STACK - 8) = USER_STACK - PGSIZE := by decide
  -- the second process faults below its stack, with no page left in the pool
  have hdem : frame_demand (s₁.set_rsp 1 USER_STACK) 1 (pg_round_down (USER_STACK - 8)) true
      = some ((s₁.set_rsp 1 USER_STACK).register 1 (stack_page (USER_STACK - PGSIZE))) := by
    have hnone : (s₁.set_rsp 1 USER_STACK).page_at 1 (USER_STACK - PGSIZE) = none := by
      cases h₁
      rfl
    have hrsp : ((s₁.set_rsp 1 USER_STACK).proc 1).user_rsp = USER_STACK := by simp
    have hgrow : is_stack_growth (s₁.set_rsp 1 USER_STACK) 1 (USER_STACK - PGSIZE) = true := by
      unfold is_stack_growth
      rw [hrsp]
      decide
    unfold frame_demand
    rw [hva, hnone]
    dsimp only
    rw [if_pos hgrow]
  obtain ⟨hno, hpal, v, s₃, fr, hv, hfr, hkva⟩ : pte_allows s₁ 1 (USER_STACK - 8) true = none
      ∧ palloc_get_page ((s₁.set_rsp 1 USER_STACK).register 1 (stack_page (USER_STACK - PGSIZE)))
        = none
      ∧ ∃ v s₃ fr, vm_get_victim
          ((s₁.set_rsp 1 USER_STACK).register 1 (stack_page (USER_STACK - PGSIZE))) 1 = .ok (v, s₃)
        ∧ ((s₁.set_rsp 1 USER_STACK).register 1 (stack_page (USER_STACK - PGSIZE))).frame v
          = some fr ∧ fr.kva = 0 := by
    cases h₁
    exact ⟨rfl, rfl, _, _, _, rfl, rfl, rfl⟩
  obtain ⟨s₂, h₂, hfirst, hsecond, pg, hpg, hframe⟩ : ∃ s₂,
      vm_step s₁ (.write 1 (USER_STACK - 8) USER_STACK 2) = .ok s₂
        ∧ s₂.Maps 0 (USER_STACK - PGSIZE) 0 ∧ s₂.Maps 1 (USER_STACK - PGSIZE) 0
        ∧ ∃ pg, s₂.registered 0 (USER_STACK - PGSIZE) = some pg ∧ pg.frame = none := by
    cases h₁
    exact ⟨_, rfl, ⟨_, rfl, rfl, rfl⟩, ⟨_, rfl, rfl, rfl⟩, _, rfl, rfl⟩
  refine ⟨s₁, s₂, h₁, h₂, fun hstale => ?_, fun hshared => ?_⟩
  · have howner := hstale hno _ v s₃ fr hdem hpal hv hfr 0 (USER_STACK - PGSIZE) (hkva ▸ hfirst)
    exact absurd howner.1 (by decide)
  · -- the page of the first process has no frame any more
    obtain ⟨f, fr', -, -, ⟨pg', hpg', hres⟩, -⟩ := hshared 0 _ 1 _ 0 (by decide) hfirst hsecond
    rw [hpg] at hpg'
    rw [← Option.some.inj hpg', hframe] at hres
    cases hres

end vm

end Pintos
