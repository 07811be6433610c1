/-
`check_write_buffer`, and what `sys_read` may rely on after it.

The check goes over the pages of the buffer twice: `check_buffer` makes every page accessible,
then the second loop asks for permission to write, of the page table where the page is present
and of the fault handler where it is not. Every fault on the way may evict pages that were
checked before; what stays is which pages are registered, and with which permission.
-/
import Pintos.Userprog.StringCalls
import Pintos.Vm.Permissions

set_option autoImplicit false

namespace Pintos

/-! ## The code -/

/-- `is_writable (pte)`. -/
def pte_writable (s : vm) (t addr : ℕ) : Bool :=
  match s.pte_at t addr with
  | some e => e.writable
  | none => false

/-- The body of the second loop of `check_write_buffer`; `false` is `sys_exit (-1)`. -/
def vm.check_write_page (s : vm) (t addr : ℕ) : Outcome (Bool × vm) :=
  if ¬ addr < KERN_BASE then .ok (false, s)
  else if pml4_present s t addr then
    match spt_find_page s t addr with
    | none => .panic
    | some p => do
        let cur_page ← s.get_page p
        if !pte_writable s t addr && !cur_page.writable then return (false, s)
        else if !pte_writable s t addr && cur_page.writable then
          -- the result of the handler is dropped
          let (_, s) ← vm_try_handle_fault s t addr true
          return (true, s)
        else return (true, s)
  else vm_try_handle_fault s t addr true

/-- The second loop of `check_write_buffer`. -/
def vm.check_write_loop (s : vm) (t : ℕ) : List ℕ → Outcome (Bool × vm)
  | [] => .ok (true, s)
  | addr :: rest => do
      let (ok, s) ← s.check_write_page t addr
      if ok then vm.check_write_loop s t rest else return (false, s)

/-- `check_write_buffer`; `false` is `sys_exit (-1)`. -/
def vm.check_write_buffer (s : vm) (t buffer size : ℕ) : Outcome (Bool × vm) :=
  if ¬ (buffer < KERN_BASE ∧ buffer_end buffer size < KERN_BASE) then .ok (false, s)
  else do
    let (ok, s) ← s.check_buffer t buffer size
    if ok then s.check_write_loop t (buffer_pages buffer size) else return (false, s)

/-- `sys_read`; `rest` is what comes after the check: the descriptor, and the bytes that are
stored in the buffer. -/
def vm.sys_read (s : vm) (rest : vm → Outcome (call_end × vm)) (t buffer size : ℕ) :
    Outcome (call_end × vm) :=
  if size = 0 then .ok (.value 0, s)
  else do
    let (ok, s) ← s.check_write_buffer t buffer size
    if ok then rest s else return (.exit (-1), s)

/-! ## What the check shows -/

/-- One page fault of the process. -/
def Faulting (t : ℕ) (s s' : vm) : Prop :=
  ∃ addr write done, vm_try_handle_fault s t addr write = .ok (done, s')

/-- Page faults of the process, and nothing else. -/
def Faults (t : ℕ) : vm → vm → Prop := Relation.ReflTransGen (Faulting t)

/-- Every byte of the buffer is on a user page that may be written. -/
def BufferWritable (s : vm) (t buffer size : ℕ) : Prop :=
  ∀ a, buffer ≤ a → a < buffer + size → a < KERN_BASE ∧ s.WritablePage t (pg_round_down a)

section Checks

variable {s s' : vm} {t addr buffer size : ℕ} {ok : Bool}

/-- The tables after some faults. -/
theorem Faults.extended (h : Faults t s s') (hr : s.Registered) : vm.Extended s s' := by
  induction h with
  | refl => exact .refl s
  | tail _ hstep ih =>
      obtain ⟨addr, write, done, hrun⟩ := hstep
      exact ih.trans (vm.vm_try_handle_fault_extended (ih.registered hr) hrun)

theorem Faults.fault {s₁ : vm} {write done : Bool} (h : Faults t s s₁)
    (hrun : vm_try_handle_fault s₁ t addr write = .ok (done, s')) : Faults t s s' :=
  h.tail ⟨addr, write, done, hrun⟩

theorem make_resident_faults (h : s.make_resident t addr = .ok (ok, s')) : Faults t s s' := by
  unfold vm.make_resident at h
  split at h
  · obtain rfl := (Outcome.ok_pair h).2
    exact .refl
  · exact Faults.fault .refl h

theorem check_buffer_loop_faults (pages : List ℕ) : ∀ {s s' : vm} {ok : Bool},
    s.check_buffer_loop t pages = .ok (ok, s') → Faults t s s' := by
  induction pages with
  | nil =>
      intro s s' ok h
      obtain rfl := (Outcome.ok_pair h).2
      exact .refl
  | cons addr pages ih =>
      intro s s' ok h
      rw [vm.check_buffer_loop] at h
      split at h
      · obtain ⟨⟨resident, s₁⟩, hres, h⟩ := Outcome.bind_eq_ok.mp h
        have hfirst := make_resident_faults hres
        cases resident with
        | false =>
            obtain rfl := (Outcome.ok_pair h).2
            exact hfirst
        | true => exact hfirst.trans (ih h)
      · obtain rfl := (Outcome.ok_pair h).2
        exact .refl

theorem check_buffer_faults (h : s.check_buffer t buffer size = .ok (ok, s')) : Faults t s s' := by
  unfold vm.check_buffer at h
  split at h
  · obtain rfl := (Outcome.ok_pair h).2
    exact .refl
  · exact check_buffer_loop_faults _ h

/-- **One page of the second loop**: faults only, and if it passes, a user page that may be
written. -/
theorem check_write_page_spec (hr : s.Registered) (hok : s.PteOk)
    (hround : pg_round_down addr = addr) (h : s.check_write_page t addr = .ok (ok, s')) :
    Faults t s s' ∧ (ok = true → addr < KERN_BASE ∧ s'.WritablePage t addr) := by
  unfold vm.check_write_page at h
  split at h
  · obtain ⟨rfl, rfl⟩ := Outcome.ok_pair h
    exact ⟨.refl, nofun⟩
  · rename_i huser
    rw [not_not] at huser
    split at h
    · rename_i hpresent
      unfold spt_find_page at h
      rw [hround] at h
      cases hp : s.page_at t addr with
      | none =>
          rw [hp] at h
          cases h
      | some p =>
          rw [hp] at h
          obtain ⟨pg, hpg, h⟩ := Outcome.bind_eq_ok.mp h
          have hpg := vm.get_page_eq_ok.mp hpg
          cases hpte : pte_writable s t addr with
          | true =>
              -- the page table allows the store, so the page does
              rw [hpte] at h
              obtain ⟨rfl, rfl⟩ := Outcome.ok_pair h
              refine ⟨.refl, fun _ => ⟨huser, hok t addr ?_⟩⟩
              unfold pte_writable at hpte
              unfold pml4_present at hpresent
              cases he : s.pte_at t addr with
              | none =>
                  rw [he] at hpte
                  cases hpte
              | some e =>
                  rw [he] at hpte hpresent
                  exact ⟨e, he, hpresent, hpte⟩
          | false =>
              rw [hpte] at h
              cases hw : pg.writable with
              | false =>
                  rw [hw] at h
                  obtain ⟨rfl, rfl⟩ := Outcome.ok_pair h
                  exact ⟨.refl, nofun⟩
              | true =>
                  rw [hw] at h
                  obtain ⟨⟨handled, s₁⟩, hfault, h⟩ := Outcome.bind_eq_ok.mp h
                  obtain ⟨rfl, rfl⟩ := Outcome.ok_pair h
                  have hext := vm.vm_try_handle_fault_extended hr hfault
                  exact ⟨Faults.fault .refl hfault,
                    fun _ => ⟨huser, hext.writablePage ⟨p, pg, hp, hpg, hw⟩⟩⟩
    · refine ⟨Faults.fault .refl h, fun hpass => ⟨huser, ?_⟩⟩
      rw [hpass] at h
      have hw := vm.handled_write hr h
      rw [hround] at hw
      exact hw

/-- **The second loop.** A page that was checked stays writable whatever the later pages evict. -/
theorem check_write_loop_spec (pages : List ℕ) : ∀ {s s' : vm} {ok : Bool}, s.Registered → s.PteOk →
    (∀ addr ∈ pages, pg_round_down addr = addr) → s.check_write_loop t pages = .ok (ok, s') →
      Faults t s s' ∧ (ok = true → ∀ addr ∈ pages, addr < KERN_BASE ∧ s'.WritablePage t addr) := by
  induction pages with
  | nil =>
      intro s s' ok _ _ _ h
      obtain rfl := (Outcome.ok_pair h).2
      exact ⟨.refl, fun _ _ => nofun⟩
  | cons addr pages ih =>
      intro s s' ok hr hok hround h
      rw [vm.check_write_loop] at h
      obtain ⟨⟨pass, s₁⟩, hpage, h⟩ := Outcome.bind_eq_ok.mp h
      obtain ⟨hfaults, hfirst⟩ := check_write_page_spec hr hok (hround _ List.mem_cons_self) hpage
      have hext := hfaults.extended hr
      cases pass with
      | false =>
          obtain ⟨rfl, rfl⟩ := Outcome.ok_pair h
          exact ⟨hfaults, nofun⟩
      | true =>
          have hr₁ := hext.registered hr
          obtain ⟨hfaults', hrest⟩ := ih hr₁ (hext.pteOk hok)
            (fun a ha => hround a (List.mem_cons_of_mem _ ha)) h
          refine ⟨hfaults.trans hfaults', fun hpass a ha => ?_⟩
          rcases List.mem_cons.mp ha with rfl | ha
          · obtain ⟨huser, hw⟩ := hfirst rfl
            exact ⟨huser, (hfaults'.extended hr₁).writablePage hw⟩
          · exact hrest hpass a ha

theorem buffer_pages_aligned (h : addr ∈ buffer_pages buffer size) : pg_round_down addr = addr := by
  unfold buffer_pages at h
  dsimp only at h
  split at h
  · obtain ⟨i, -, rfl⟩ := List.mem_map.mp h
    unfold pg_round_down PGSIZE
    omega
  · cases h

/-- The page of every byte of the buffer is among its pages. -/
theorem mem_pages_of_byte {a : ℕ} (hlt : buffer + size ≤ 2 ^ 64) (ha : buffer ≤ a)
    (ha' : a < buffer + size) : pg_round_down a ∈ buffer_pages buffer size := by
  have hend : buffer_end buffer size = buffer + size - 1 := by
    unfold buffer_end
    omega
  unfold buffer_pages
  rw [hend]
  dsimp only
  have hle : pg_round_down buffer ≤ pg_round_down (buffer + size - 1) := by
    unfold pg_round_down PGSIZE
    omega
  rw [if_pos hle]
  refine List.mem_map.mpr ⟨(pg_round_down a - pg_round_down buffer) / PGSIZE,
    List.mem_range.mpr ?_, ?_⟩
  · unfold pg_round_down PGSIZE
    omega
  · unfold pg_round_down PGSIZE
    omega

/-- **No store through a read-only page.** In any state that a run can reach, `sys_read` goes on to
its descriptor and its stores only when every byte of the buffer is on a user page that may be
written; otherwise it exits with -1, and nothing but page faults has happened. A page that had an
entry before has it still, with the same permission. -/
theorem sys_read_checked {s₀ : vm} {events : List vm_event} (h₀ : s₀.Sane)
    (hreach : vm_run events s₀ = .ok s) (hsize : 1 ≤ size) (h32 : size < 2 ^ 32)
    (rest : vm → Outcome (call_end × vm)) {e : call_end}
    (hrun : s.sys_read rest t buffer size = .ok (e, s')) :
    ∃ s₁, Faults t s s₁ ∧ vm.Extended s s₁
      ∧ ((BufferWritable s₁ t buffer size ∧ rest s₁ = .ok (e, s'))
        ∨ (e = .exit (-1) ∧ s' = s₁)) := by
  obtain ⟨hr, hok⟩ := vm.vm_run_sane events h₀ hreach
  rw [vm.sys_read, if_neg (by omega)] at hrun
  obtain ⟨⟨pass, s₁⟩, hcheck, hrun⟩ := Outcome.bind_eq_ok.mp hrun
  have hspec : Faults t s s₁ ∧ (pass = true → BufferWritable s₁ t buffer size) := by
    unfold vm.check_write_buffer at hcheck
    split at hcheck
    · obtain ⟨rfl, rfl⟩ := Outcome.ok_pair hcheck
      exact ⟨.refl, nofun⟩
    · rename_i huser
      rw [not_not] at huser
      obtain ⟨⟨resident, s₀⟩, hbuffer, hcheck⟩ := Outcome.bind_eq_ok.mp hcheck
      have hfaults := check_buffer_faults hbuffer
      have hext := hfaults.extended hr
      cases resident with
      | false =>
          obtain ⟨rfl, rfl⟩ := Outcome.ok_pair hcheck
          exact ⟨hfaults, nofun⟩
      | true =>
          obtain ⟨hfaults', hpages⟩ := check_write_loop_spec _ (hext.registered hr) (hext.pteOk hok)
            (fun _ => buffer_pages_aligned) hcheck
          refine ⟨hfaults.trans hfaults', fun hpass a ha ha' => ?_⟩
          have hlt : buffer + size ≤ 2 ^ 64 := by
            have hbuffer := huser.1
            unfold KERN_BASE at hbuffer
            omega
          obtain ⟨hpage, hw⟩ := hpages hpass _ (mem_pages_of_byte hlt ha ha')
          refine ⟨?_, hw⟩
          unfold pg_round_down PGSIZE KERN_BASE at hpage
          unfold KERN_BASE
          omega
  refine ⟨s₁, hspec.1, hspec.1.extended hr, ?_⟩
  cases pass with
  | false =>
      obtain ⟨rfl, rfl⟩ := Outcome.ok_pair hrun
      exact .inr ⟨rfl, rfl⟩
  | true => exact .inl ⟨hspec.2 rfl, hrun⟩

/-- A machine whose page tables are empty. -/
theorem idle_machine_sane : idle_machine.Sane := by
  refine ⟨idle_machine_coherent.registered, fun t va => ?_⟩
  rintro ⟨e, he, -⟩
  cases he

theorem lazy_machine_sane : lazy_machine.Sane :=
  idle_machine_sane.register 0 (stack_page (USER_STACK - PGSIZE)) (by decide) rfl

/-- A read of four bytes to a page of the stack that is registered and not loaded. -/
theorem lazy_read_checked : ∃ s', BufferWritable s' 0 (USER_STACK - 8) 4
    ∧ lazy_machine.sys_read (fun s => .ok (.value 4, s)) 0 (USER_STACK - 8) 4
      = .ok (.value 4, s') := by
  obtain ⟨s', hs'⟩ : ∃ s', lazy_machine.sys_read (fun s => .ok (.value 4, s)) 0 (USER_STACK - 8) 4
    = .ok (.value 4, s') := ⟨_, rfl⟩
  have hnil : vm_run [] lazy_machine = .ok lazy_machine := rfl
  obtain ⟨s₁, -, -, ⟨hw, hrest⟩ | ⟨hexit, -⟩⟩ := sys_read_checked lazy_machine_sane hnil
    (by decide) (by decide) _ hs'
  · obtain rfl := (Outcome.ok_pair hrest).2
    exact ⟨s₁, hw, hs'⟩
  · cases hexit

end Checks

end Pintos
