/-
The stack-growth decision of `vm_try_handle_fault`.

The fault address is rounded down to its page before it is compared with
`user_rsp - STACK_GROW_RANGE`, and 4192 is not a multiple of the page size. So whether the stack
grows depends on where in its page the address is: at the start of a page an access 4096 bytes
below the stack pointer still passes.
-/
import Pintos.Vm.Kept

set_option autoImplicit false

namespace Pintos

variable {s s' : vm} {t addr : ℕ} {write : Bool}

/-- The handler grows the stack. -/
def Grows (s : vm) (t addr : ℕ) (write : Bool) : Prop :=
  vm_try_handle_fault s t addr write
    = vm_stack_growth s t (pg_round_down addr) >>= fun s' => .ok (true, s')

/-- **The decision goes by the distance from the stack pointer**: up to 8 bytes below it the stack
grows, from a page below it on it does not. -/
structure ByDistance (s : vm) (t addr : ℕ) (write : Bool) : Prop where
  near : (s.proc t).user_rsp ≤ addr + 8 → Grows s t addr write
  far : addr + PGSIZE ≤ (s.proc t).user_rsp → vm_try_handle_fault s t addr write = .ok (false, s)

theorem grows_of_stack (hnone : s.page_at t (pg_round_down addr) = none)
    (h : is_stack_growth s t (pg_round_down addr) = true) : Grows s t addr write := by
  unfold Grows vm_try_handle_fault spt_find_page
  dsimp only
  rw [pg_round_down_idem, hnone]
  exact if_pos h

theorem refused_of_not_stack (hnone : s.page_at t (pg_round_down addr) = none)
    (h : is_stack_growth s t (pg_round_down addr) = false) :
    vm_try_handle_fault s t addr write = .ok (false, s) := by
  unfold vm_try_handle_fault spt_find_page
  dsimp only
  rw [pg_round_down_idem, hnone]
  exact if_neg (Bool.eq_false_iff.mp h)

theorem Grows.not_refused (h : Grows s t addr write) :
    vm_try_handle_fault s t addr write ≠ .ok (false, s') := by
  intro hrefused
  rw [h] at hrefused
  obtain ⟨s₁, -, hret⟩ := Outcome.bind_eq_ok.mp hrefused
  cases hret

/-- A stack that grew has the page of the address: registered, writable and present. -/
theorem Grows.page (h : Grows s t addr write) (hr : s.Registered)
    (hnone : s.page_at t (pg_round_down addr) = none) {s₁ : vm}
    (hrun : vm_stack_growth s t (pg_round_down addr) = .ok s₁) :
    s₁.WritablePage t (pg_round_down addr) ∧ pml4_present s₁ t (pg_round_down addr) = true := by
  have hhandled : vm_try_handle_fault s t addr write = .ok (true, s₁) := by
    rw [h, hrun]
    rfl
  obtain ⟨hpresent, ⟨⟨p, hp⟩, -⟩ | ⟨-, hkept⟩⟩ := vm.handled_kept hr hhandled
  · rw [hnone] at hp
    cases hp
  · refine ⟨hkept.writablePage_iff.mpr ?_, hpresent⟩
    refine ⟨s.next_page, stack_page (pg_round_down addr), ?_, Function.update_self _ _ _, rfl⟩
    rw [page_at_register, if_pos ⟨rfl, rfl⟩]

/-- The test, for a stack pointer in the stack region. -/
theorem is_stack_growth_iff (haddr : USER_STACK - 2 ^ 20 ≤ addr) (haddr' : addr < USER_STACK)
    (hrsp : USER_STACK - 2 ^ 20 ≤ (s.proc t).user_rsp) (hrsp' : (s.proc t).user_rsp ≤ USER_STACK) :
    is_stack_growth s t (pg_round_down addr) = true
      ↔ (s.proc t).user_rsp + pg_ofs addr ≤ addr + STACK_GROW_RANGE := by
  unfold is_stack_growth pg_round_down pg_ofs
  unfold USER_STACK at haddr haddr' hrsp hrsp' ⊢
  unfold STACK_GROW_RANGE PGSIZE
  rw [decide_eq_true_iff]
  omega

/-- **When the decision goes by the distance**: always, unless the address is a page or more below
the stack pointer and so near to the start of its page that the rounded address passes. -/
theorem fault_by_distance_iff (hnone : s.page_at t (pg_round_down addr) = none)
    (haddr : USER_STACK - 2 ^ 20 ≤ addr) (haddr' : addr < USER_STACK)
    (hrsp : USER_STACK - 2 ^ 20 ≤ (s.proc t).user_rsp) (hrsp' : (s.proc t).user_rsp ≤ USER_STACK)
    (write : Bool) :
    ByDistance s t addr write
      ↔ ¬ (addr + PGSIZE ≤ (s.proc t).user_rsp
          ∧ (s.proc t).user_rsp - addr + pg_ofs addr ≤ STACK_GROW_RANGE) := by
  have hgrow := is_stack_growth_iff haddr haddr' hrsp hrsp'
  have hofs : pg_ofs addr < PGSIZE := pg_ofs_lt addr
  constructor
  · rintro hby ⟨hfar, hsmall⟩
    refine (grows_of_stack hnone (hgrow.mpr ?_)).not_refused (hby.far hfar)
    unfold STACK_GROW_RANGE at hsmall ⊢
    omega
  · intro hno
    refine ⟨fun hnear => grows_of_stack hnone (hgrow.mpr ?_),
      fun hfar => refused_of_not_stack hnone ?_⟩
    · -- rounding takes less than a page, and the range is a page and 96 bytes
      unfold STACK_GROW_RANGE
      unfold PGSIZE at hofs
      omega
    · rw [← Bool.not_eq_true, hgrow]
      unfold STACK_GROW_RANGE PGSIZE at *
      omega

/-- A process that has not used its stack yet, with the stack pointer at `rsp`. -/
def fresh_stack (rsp : ℕ) : vm where
  proc _ := { process.empty with user_rsp := rsp }
  next_proc := 1
  page _ := none
  next_page := 0
  frame _ := none
  next_frame := 0
  frame_table := []
  clock_start := none
  used _ := false
  pool_pages := 1
  mem _ := zeros
  swap_disk := { capacity := 0, sectors := fun _ => zeros, written := [] }
  swap_table _ := false
  files :=
    { disk := { capacity := 0, sectors := fun _ => zeros, written := [] }
      fat :=
        { bs := { magic := FAT_MAGIC, sectors_per_cluster := 1, total_sectors := 0
                  fat_start := 1, fat_sectors := 1, root_dir_cluster := 1 }
          fat := fun _ => 0, fat_length := 0, data_start := 0, last_clst := 2 }
      inode := fun _ => none
      next_inode := 0
      open_inodes := []
      file := fun _ => none
      next_file := 0 }
  lazy_load_segment_word := 0

/-- The access of `pt-grow-bad`, 4096 bytes below the stack pointer, with the stack pointer in the
middle of a page: it is refused. -/
theorem far_access_refused :
    vm_try_handle_fault (fresh_stack (USER_STACK - 2048)) 0 (USER_STACK - 2048 - 4096) false
      = .ok (false, fresh_stack (USER_STACK - 2048)) :=
  ((fault_by_distance_iff rfl (by decide) (by decide) (by decide) (by decide) false).mpr
    (by decide)).far (by decide)

/-- The same access with the stack pointer at the start of a page: the stack grows. -/
theorem far_access_grows :
    (fresh_stack (USER_STACK - 4096)).page_at 0 (pg_round_down (USER_STACK - 8192)) = none
      ∧ USER_STACK - 8192 + PGSIZE ≤ ((fresh_stack (USER_STACK - 4096)).proc 0).user_rsp
      ∧ ∃ s', vm_try_handle_fault (fresh_stack (USER_STACK - 4096)) 0 (USER_STACK - 8192) false
          = .ok (true, s') := by
  obtain ⟨s', hs'⟩ : ∃ s', vm_stack_growth (fresh_stack (USER_STACK - 4096)) 0
      (pg_round_down (USER_STACK - 8192)) = .ok s' := ⟨_, rfl⟩
  refine ⟨rfl, by decide, s', ?_⟩
  have hgrows : Grows (fresh_stack (USER_STACK - 4096)) 0 (USER_STACK - 8192) false :=
    grows_of_stack rfl (by decide)
  rw [hgrows, hs']
  rfl

end Pintos
