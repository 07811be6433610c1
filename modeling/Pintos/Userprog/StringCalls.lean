/-
The calls that take a path or a command: `sys_open`, `sys_create`, `sys_remove` and `sys_exec`.

Each of them validates its pointer with `check_address`, which asks the hardware page table,
where `check_buffer` lets the fault handler load a page that is not there. So the calls with a
buffer do not see whether a page is resident, and the calls with a string do: a lazily loaded
or evicted page of the program ends the process.

What a call does after `check_address` is an argument here; no result depends on it.
-/
import Pintos.Userprog.DescriptorCalls
import Pintos.Vm.Eviction
import Pintos.Vm.Kept
import Pintos.Vm.SwapSlots

set_option autoImplicit false

namespace Pintos

/-! ## The two checks -/

/-- `check_address`; `false` is `sys_exit (-1)`. `literal` is where the kernel has the string `""`,
with whose address the pointer is compared. -/
def vm.check_address (s : vm) (literal t addr : ℕ) : Bool :=
  decide (addr ≠ literal) && decide (addr < KERN_BASE) && pml4_present s t (pg_round_down addr)

/-- What `check_buffer` does to make the page at `addr` accessible. -/
def vm.make_resident (s : vm) (t addr : ℕ) : Outcome (Bool × vm) :=
  if pml4_present s t addr then .ok (true, s) else vm_try_handle_fault s t addr false

/-- The loop of `check_buffer`. -/
def vm.check_buffer_loop (s : vm) (t : ℕ) : List ℕ → Outcome (Bool × vm)
  | [] => .ok (true, s)
  | addr :: rest =>
      if addr < KERN_BASE then do
        let (resident, s) ← s.make_resident t addr
        if resident then vm.check_buffer_loop s t rest else return (false, s)
      else .ok (false, s)

/-- `check_buffer`, over the pages of the process `t`; `false` is `sys_exit (-1)`. -/
def vm.check_buffer (s : vm) (t buffer size : ℕ) : Outcome (Bool × vm) :=
  if buffer = 0 then .ok (false, s) else s.check_buffer_loop t (buffer_pages buffer size)

/-! ## The calls -/

/-- How a call ends. -/
inductive call_end
  /-- `sys_exit (status)`. -/
  | exit (status : ℤ)
  | value (v : ℤ)
  deriving DecidableEq, Repr

/-- A call on a string in user memory; `rest` is what it does once `check_address` has returned. -/
def string_call (rest : vm → Outcome (call_end × vm)) (s : vm) (literal t addr : ℕ) :
    Outcome call_end :=
  if s.check_address literal t addr then do
    let (e, _) ← rest s
    return e
  else .ok (.exit (-1))

/-- **The call does not see residency.** `s'` is the state `s` with the page of `addr` brought
into memory: the call is let through and ends the same in both, and `check_buffer` says the same
of the byte at `addr`. -/
structure Invisible (rest : vm → Outcome (call_end × vm)) (s s' : vm)
    (literal t addr : ℕ) : Prop where
  accepted : s.check_address literal t addr = true
  same : string_call rest s literal t addr = string_call rest s' literal t addr
  as_buffer : addr ≠ 0 → ∃ s'', s.check_buffer t addr 1 = .ok (s.check_address literal t addr, s'')

/-! ## A page that was faulted in is present -/

section Fault

variable {s s' : vm} {t : ℕ}

theorem make_resident_of_present {addr : ℕ} (h : pml4_present s t addr = true) :
    s.make_resident t addr = .ok (true, s) := if_pos h

theorem make_resident_present (hreg : s.Registered) {addr : ℕ}
    (h : s.make_resident t (pg_round_down addr) = .ok (true, s')) :
    pml4_present s' t (pg_round_down addr) = true := by
  unfold vm.make_resident at h
  split at h
  · rename_i hpresent
    obtain rfl := (Outcome.ok_pair h).2
    exact hpresent
  · have hhandled := (vm.handled_kept hreg h).1
    rw [pg_round_down_idem] at hhandled
    exact hhandled

/-- In a coherent state the pages that are present are those that have a frame. -/
theorem present_iff_resident (hc : s.Coherent) {va : ℕ} :
    pml4_present s t va = true ↔ ∃ f, s.Resident t va f := by
  constructor
  · intro h
    unfold pml4_present at h
    cases he : s.pte_at t va with
    | none =>
        rw [he] at h
        cases h
    | some e =>
        rw [he] at h
        obtain ⟨f, -, hf, -, -⟩ := hc.mapped.maps ⟨e, he, h, rfl⟩
        exact ⟨f, hf⟩
  · rintro ⟨f, hf⟩
    obtain ⟨fr, -, e, he, hpresent, -⟩ := hc.mapped.resident hf
    unfold pml4_present
    rw [he]
    exact hpresent

end Fault

/-! ## Both checks on one byte -/

section Checks

variable {s s' : vm} {literal t addr : ℕ}

theorem check_address_user (hliteral : KERN_BASE ≤ literal) (huser : addr < KERN_BASE) :
    s.check_address literal t addr = pml4_present s t (pg_round_down addr) := by
  unfold vm.check_address
  rw [decide_eq_true huser, decide_eq_true (by omega : addr ≠ literal), Bool.true_and,
    Bool.true_and]

/-- One byte is on one page. -/
theorem buffer_pages_byte (huser : addr < KERN_BASE) :
    buffer_pages addr 1 = [pg_round_down addr] := by
  have hend : buffer_end addr 1 = addr := by
    unfold buffer_end
    unfold KERN_BASE at huser
    omega
  unfold buffer_pages
  rw [hend]
  simp

theorem check_buffer_byte (huser : addr < KERN_BASE) (h0 : addr ≠ 0)
    (h : s.make_resident t (pg_round_down addr) = .ok (true, s')) :
    s.check_buffer t addr 1 = .ok (true, s') := by
  have hpage : pg_round_down addr < KERN_BASE := by
    unfold pg_round_down
    omega
  rw [vm.check_buffer, if_neg h0, buffer_pages_byte huser, vm.check_buffer_loop, if_pos hpage, h]
  rfl

/-- **Residency and the string calls.** The page of a byte in user memory is there, or the fault
handler can load it, which gives `s'`. With the page in memory the call is let through. In `s` it
goes as in `s'` exactly if the page is there already. Whatever a call does with its string, it ends
the same only then, or where it ends with -1 in any case. -/
theorem string_call_invisible_iff (hliteral : KERN_BASE ≤ literal) (hreg : s.Registered)
    (huser : addr < KERN_BASE) (hmade : s.make_resident t (pg_round_down addr) = .ok (true, s'))
    (rest : vm → Outcome (call_end × vm)) :
    s'.check_address literal t addr = true
      ∧ (Invisible rest s s' literal t addr ↔ pml4_present s t (pg_round_down addr) = true)
      ∧ (string_call rest s literal t addr = string_call rest s' literal t addr
        ↔ pml4_present s t (pg_round_down addr) = true
          ∨ string_call rest s' literal t addr = .ok (.exit (-1))) := by
  have hcheck : s.check_address literal t addr = pml4_present s t (pg_round_down addr) :=
    check_address_user hliteral huser
  refine ⟨(check_address_user hliteral huser).trans (make_resident_present hreg hmade), ?_⟩
  by_cases hpresent : pml4_present s t (pg_round_down addr) = true
  · -- nothing is loaded
    rw [make_resident_of_present hpresent] at hmade
    obtain rfl := (Outcome.ok_pair hmade).2
    refine ⟨iff_of_true ⟨hcheck.trans hpresent, rfl, fun h0 => ⟨s, ?_⟩⟩ hpresent,
      iff_of_true rfl (.inl hpresent)⟩
    rw [hcheck, hpresent]
    exact check_buffer_byte huser h0 (make_resident_of_present hpresent)
  · have hrefused : s.check_address literal t addr = false :=
      hcheck.trans (Bool.eq_false_iff.mpr hpresent)
    have hend : string_call rest s literal t addr = .ok (.exit (-1)) := by
      unfold string_call
      rw [hrefused]
      rfl
    refine ⟨iff_of_false (fun h => ?_) hpresent, ?_⟩
    · have haccepted := h.accepted
      rw [hrefused] at haccepted
      cases haccepted
    · rw [hend, or_iff_right hpresent]
      exact eq_comm

/-! ### A program that passes a string of a page it has not touched yet -/

/-- A machine with one process, and no page in use. -/
def idle_machine : vm :=
  { swap.one_slot with
    proc := fun t => { process.empty with alive := t = 0 }
    frame := fun _ => none
    next_frame := 0
    frame_table := []
    used := fun _ => false
    next_page := 0 }

theorem idle_machine_coherent : idle_machine.Coherent := by
  have halive : ∀ t, (idle_machine.proc t).alive = true → t < 1 := by
    intro t ht
    have hzero : t = 0 := of_decide_eq_true ht
    rw [hzero]
    exact Nat.zero_lt_one
  exact .of_no_page (fun _ _ => rfl) (fun _ => rfl) halive (fun _ => rfl) (fun _ _ => rfl)

/-- The page at the top of the stack is registered, but not loaded. -/
def lazy_machine : vm := idle_machine.register 0 (stack_page (USER_STACK - PGSIZE))

theorem lazy_machine_coherent : lazy_machine.Coherent :=
  (idle_machine_coherent.register _ rfl (by decide) rfl fun i h => by cases h).1

/-- The fault handler loads the page. -/
theorem lazy_machine_loads : ∃ s', lazy_machine.make_resident 0 (pg_round_down (USER_STACK - 8))
    = .ok (true, s') := ⟨_, rfl⟩

/-- The call on the page that is not loaded. -/
theorem lazy_string_seen : ∃ s', lazy_machine.make_resident 0 (pg_round_down (USER_STACK - 8))
      = .ok (true, s')
    ∧ s'.check_address KERN_BASE 0 (USER_STACK - 8) = true
    ∧ ¬ Invisible (fun s => .ok (.value 1, s)) lazy_machine s' KERN_BASE 0 (USER_STACK - 8) := by
  obtain ⟨s', hs'⟩ := lazy_machine_loads
  have h := string_call_invisible_iff le_rfl lazy_machine_coherent.registered (by decide) hs'
    (fun s => .ok (.value 1, s))
  exact ⟨s', hs', h.1, fun hinv => absurd (h.2.1.mp hinv) (by decide)⟩

/-- A page of the stack is registered and can be loaded, and `sys_remove`, say, on a path there
ends the process; once the page is loaded it goes on. -/
theorem lazy_string_ends_process : ∃ s', lazy_machine.Coherent
    ∧ (lazy_machine.page_at 0 (pg_round_down (USER_STACK - 8))).isSome = true
    ∧ vm_try_handle_fault lazy_machine 0 (USER_STACK - 8) false = .ok (true, s')
    ∧ lazy_machine.check_buffer 0 (USER_STACK - 8) 1 = .ok (true, s')
    ∧ lazy_machine.check_address KERN_BASE 0 (USER_STACK - 8) = false
    ∧ s'.check_address KERN_BASE 0 (USER_STACK - 8) = true
    ∧ (∀ rest, string_call rest lazy_machine KERN_BASE 0 (USER_STACK - 8) = .ok (.exit (-1)))
    ∧ ∀ e, string_call (fun s => .ok (e, s)) s' KERN_BASE 0 (USER_STACK - 8) = .ok e :=
  ⟨_, lazy_machine_coherent, rfl, rfl, rfl, by decide, rfl, fun _ => rfl, fun _ => rfl⟩

end Checks

end Pintos
