/-
`threads/fixed-point.c` and the multi-level feedback queue scheduler of `threads/thread.c`.

With `thread_mlfqs` set, `update_priority` computes a thread's priority from its
`recent_cpu` and its `nice` value. The donations of `lock_acquire` and the
`recalc_priority` of `lock_release` do not ask for the option, and write the same field.
Each donation has a `malloc`, whose `lock_release` is one more writer.

The idle thread is not in the table of threads: it runs while `current` is none. Threads
are never freed here, so `all_list` has them all, in the order of their creation. The
locks that `thread_create` takes on its way (those of the page pool and `tid_lock`) are
steps of their own, and so is its `thread_unblock`.

A thread's `recent_cpu` and `nice` at its last `update_priority` are kept beside it.
-/
import Pintos.Lib.Runs
import Pintos.Lib.Word
import Pintos.Threads.Places

set_option autoImplicit false

namespace Pintos

/-! ## Fixed-point numbers -/

namespace fixed_t

/-- `F`. -/
def F : ℤ := 2 ^ 14

/-- `int_to_fp`. -/
def int_to_fp (n : ℤ) : ℤ := i32 (n * F)

/-- `fp_to_int_round`. -/
def fp_to_int_round (x : ℤ) : ℤ :=
  if x ≥ 0 then (i32 (x + F / 2)).tdiv F else (i32 (x - F / 2)).tdiv F

/-- `add_fp`. -/
def add_fp (x y : ℤ) : ℤ := i32 (x + y)

/-- `add_fp_int`. -/
def add_fp_int (x n : ℤ) : ℤ := i32 (x + i32 (n * F))

/-- `mul_fp`, in 64 bits. -/
def mul_fp (x y : ℤ) : ℤ := i32 ((x * y).tdiv F)

/-- `mul_fp_int`. -/
def mul_fp_int (x n : ℤ) : ℤ := i32 (x * n)

/-- `div_fp`, in 64 bits. The processor traps on a division by zero. -/
def div_fp (x y : ℤ) : Outcome ℤ := if y = 0 then .panic else .ok (i32 ((x * F).tdiv y))

/-- `div_fp_int`. -/
def div_fp_int (x n : ℤ) : ℤ := x.tdiv n

end fixed_t

open fixed_t

/-- `TIMER_FREQ`. -/
def TIMER_FREQ : ℤ := 100

/-- The `new_priority` of `update_priority`. -/
def new_priority (recent_cpu nice : ℤ) : ℤ :=
  let new_priority :=
    i32 (i32 (PRI_MAX - fp_to_int_round (div_fp_int recent_cpu 4)) - i32 (nice * 2))
  let new_priority := if new_priority > PRI_MAX then PRI_MAX else new_priority
  if new_priority < PRI_MIN then PRI_MIN else new_priority

/-! ## The scheduler -/

/-- The kernel with the data of the scheduler. -/
structure mlfqs where
  s : kernel
  /-- `timer_ticks ()`. -/
  ticks : ℤ
  load_avg : ℤ
  nice : ℕ → ℤ
  recent_cpu : ℕ → ℤ
  /-- `recent_cpu` and `nice` at the last `update_priority` on a thread. -/
  updated : ℕ → Option (ℤ × ℤ)

/-- `update_priority`. -/
def update_priority (x : mlfqs) (t : ℕ) : mlfqs :=
  { x with
    s := x.s.set_thread t fun th => { th with priority := new_priority (x.recent_cpu t) (x.nice t) }
    updated := Function.update x.updated t (some (x.recent_cpu t, x.nice t)) }

/-- `all_list`. -/
def all_threads (x : mlfqs) : List ℕ := List.range x.s.next_tid

/-- The loop of `update_all_priority`. -/
def update_all_priority_loop : List ℕ → mlfqs → mlfqs
  | [], x => x
  | t :: ts, x => update_all_priority_loop ts (update_priority x t)

/-- `compare_cur_next_priority` in an interrupt. The yield waits for the end of the
interrupt, where this is; a second call finds the list in order. -/
def compare_on_return (x : mlfqs) : mlfqs :=
  match x.s.current with
  | none => { x with s := { x.s with ready_list := list_sort (compare_priority x.s) x.s.ready_list } }
  | some cur => { x with s := compare_cur_next_priority x.s cur }

/-- `update_all_priority`, in an interrupt. -/
def update_all_priority (x : mlfqs) : mlfqs :=
  compare_on_return (update_all_priority_loop (all_threads x) x)

/-- `update_recent_cpu`. -/
def update_recent_cpu (x : mlfqs) : mlfqs :=
  match x.s.current with
  | none => x
  | some cur =>
      { x with recent_cpu := Function.update x.recent_cpu cur (add_fp_int (x.recent_cpu cur) 1) }

/-- `update_load_avg`. -/
def update_load_avg (x : mlfqs) : mlfqs :=
  let ready_threads : ℤ := x.s.ready_list.length + if x.s.current = none then 0 else 1
  let term1 := div_fp_int (mul_fp_int x.load_avg 59) 60
  let term2 := mul_fp_int (div_fp_int (int_to_fp 1) 60) ready_threads
  { x with load_avg := add_fp term1 term2 }

/-- The loop of `update_recent_cpu_all`. -/
def update_recent_cpu_loop : List ℕ → mlfqs → Outcome mlfqs
  | [], x => .ok x
  | t :: ts, x => do
      let coeff ← div_fp (mul_fp_int x.load_avg 2) (add_fp_int (mul_fp_int x.load_avg 2) 1)
      let recent_cpu := add_fp (mul_fp coeff (x.recent_cpu t)) (int_to_fp (x.nice t))
      update_recent_cpu_loop ts { x with recent_cpu := Function.update x.recent_cpu t recent_cpu }

/-- `update_recent_cpu_all`. -/
def update_recent_cpu_all (x : mlfqs) : Outcome mlfqs := update_recent_cpu_loop (all_threads x) x

/-- `mlfqs_on_tick`. -/
def mlfqs_on_tick (x : mlfqs) : Outcome mlfqs := do
  let x := update_recent_cpu x
  let x ← if x.ticks % TIMER_FREQ = 0 then update_recent_cpu_all (update_load_avg x) else .ok x
  return if x.ticks % 4 = 0 then update_all_priority x else x

/-- `timer_interrupt`, as far as the scheduler goes. -/
def mlfqs_tick (x : mlfqs) : Outcome mlfqs := mlfqs_on_tick { x with ticks := x.ticks + 1 }

/-- `thread_set_nice` by `cur`. -/
def thread_set_nice (x : mlfqs) (cur : ℕ) (nice : ℤ) : mlfqs :=
  let x := { x with nice := Function.update x.nice cur nice }
  let x := update_priority x cur
  { x with s := compare_cur_next_priority x.s cur }

/-- `thread_create` by `cur`, up to `allocate_tid`: `init_thread` and `update_priority`. -/
def thread_create_mlfqs (x : mlfqs) (cur : ℕ) (priority : ℤ) : Outcome mlfqs := do
  Outcome.assert (PRI_MIN ≤ priority ∧ priority ≤ PRI_MAX)
  let t := x.s.next_tid
  let s := { x.s.set_thread t fun _ => init_thread priority with next_tid := t + 1 }
  let x := { x with
    s := s
    nice := Function.update x.nice t (x.nice cur)
    recent_cpu := Function.update x.recent_cpu t (x.recent_cpu cur) }
  return update_priority x t

/-! ## Runs -/

/-- What can happen next. -/
inductive mlfqs_event
  | timer_interrupt
  | thread_create (priority : ℤ)
  | thread_set_nice (nice : ℤ)
  | lock_acquire (lock : ℕ)
  | create_donation
  | lock_release (lock : ℕ)
  /-- The CPU is taken away at the end of a time slice. -/
  | timer_yield
  | schedule
  | thread_block
  | thread_unblock (t : ℕ)
  deriving DecidableEq, Repr

/-- The events that are steps of the kernel alone. -/
def mlfqs_event.action : mlfqs_event → Option sched_action
  | lock_acquire lock => some (.kernel (.lock_acquire lock))
  | create_donation => some (.kernel .create_donation)
  | lock_release lock => some (.kernel (.lock_release lock))
  | timer_yield => some (.kernel .timer_yield)
  | schedule => some (.kernel .schedule)
  | thread_block => some .thread_block
  | thread_unblock t => some (.thread_unblock t)
  | _ => none

/-- A call by the running thread. -/
def by_current (x : mlfqs) (call : ℕ → Outcome mlfqs) : Outcome mlfqs :=
  match x.s.current with
  | some cur => call cur
  | none => .panic

/-- One event. -/
def mlfqs_step (x : mlfqs) (e : mlfqs_event) : Outcome mlfqs :=
  match e.action, e with
  | some a, _ => do
      let s ← sched_step x.s a
      return { x with s := s }
  | none, .timer_interrupt => mlfqs_tick x
  | none, .thread_create priority => by_current x fun cur => thread_create_mlfqs x cur priority
  | none, .thread_set_nice nice => by_current x fun cur => .ok (thread_set_nice x cur nice)
  | none, _ => .panic

/-- A run. -/
def mlfqs_run : List mlfqs_event → mlfqs → Option mlfqs :=
  Runs.run fun x e => (mlfqs_step x e).toOption

/-- The kernel when `main` starts. -/
def mlfqs_boot : mlfqs where
  s := kernel_boot
  ticks := 0
  load_avg := 0
  nice _ := 0
  recent_cpu _ := 0
  updated _ := none

/-! ## The formula -/

/-- `recent_cpu / 4` as an integer, the nearest one, halves away from zero. -/
def round_quarter (recent_cpu : ℤ) : ℤ :=
  if 0 ≤ recent_cpu then (recent_cpu + 2 * F) / (4 * F) else -((-recent_cpu + 2 * F) / (4 * F))

/-- 63 - recent_cpu / 4 - 2 * nice, clamped. -/
def priority_formula (recent_cpu nice : ℤ) : ℤ :=
  max PRI_MIN (min PRI_MAX (PRI_MAX - round_quarter recent_cpu - 2 * nice))

/-- Dividing by 4 first, with the fraction dropped, does not change the rounding. -/
theorem fp_to_int_round_quarter {x : ℤ} (hx : IsI32 x) :
    fp_to_int_round (div_fp_int x 4) = round_quarter x := by
  unfold IsI32 at hx
  unfold fp_to_int_round div_fp_int round_quarter F
  by_cases h : 0 ≤ x
  · have hdiv : x.tdiv 4 = x / 4 := Int.tdiv_eq_ediv_of_nonneg h
    have hfit : IsI32 (x / 4 + 2 ^ 14 / 2) := by
      unfold IsI32
      omega
    rw [if_pos h, hdiv, if_pos (by omega), i32_of_isI32 hfit, Int.tdiv_eq_ediv_of_nonneg (by omega)]
    omega
  · -- the same for the absolute value
    have hdiv : x.tdiv 4 = -(-x / 4) := by
      rw [← Int.neg_neg x, Int.neg_tdiv, Int.neg_neg, Int.tdiv_eq_ediv_of_nonneg (by omega)]
    rw [if_neg h, hdiv]
    split
    · rename_i hsmall
      have hfit : IsI32 (-(-x / 4) + 2 ^ 14 / 2) := by
        unfold IsI32
        omega
      rw [i32_of_isI32 hfit, Int.tdiv_eq_ediv_of_nonneg (by omega)]
      omega
    · have hfit : IsI32 (-(-x / 4) - 2 ^ 14 / 2) := by
        unfold IsI32
        omega
      have hneg : -(-x / 4) - 2 ^ 14 / 2 = -(-x / 4 + 2 ^ 14 / 2) := by omega
      rw [i32_of_isI32 hfit, hneg, Int.neg_tdiv, Int.tdiv_eq_ediv_of_nonneg (by omega)]
      omega

/-- **`update_priority` computes the formula**, for a `nice` value whose double is far from the
ends of `int`. -/
theorem new_priority_eq {recent_cpu nice : ℤ} (hcpu : IsI32 recent_cpu)
    (hnice : -(2 ^ 29) ≤ nice ∧ nice ≤ 2 ^ 29) :
    new_priority recent_cpu nice = priority_formula recent_cpu nice := by
  unfold new_priority priority_formula
  rw [fp_to_int_round_quarter hcpu]
  have hround : -(2 ^ 16) ≤ round_quarter recent_cpu ∧ round_quarter recent_cpu ≤ 2 ^ 16 := by
    unfold IsI32 at hcpu
    unfold round_quarter F
    split_ifs <;> omega
  have hnice2 : IsI32 (nice * 2) := by
    unfold IsI32
    omega
  have hdiff : IsI32 (PRI_MAX - round_quarter recent_cpu) := by
    unfold IsI32 PRI_MAX
    omega
  have hall : IsI32 (PRI_MAX - round_quarter recent_cpu - nice * 2) := by
    unfold IsI32 PRI_MAX
    omega
  rw [i32_of_isI32 hnice2, i32_of_isI32 hdiff, i32_of_isI32 hall]
  unfold PRI_MAX PRI_MIN
  dsimp only
  split_ifs <;> omega

/-! ## Who writes priorities -/

namespace kernel

variable {s s' : kernel} {cur l : ℕ}

theorem sema_down_priority (s : kernel) (cur l t : ℕ) :
    ((sema_down s cur l).threads t).priority = (s.threads t).priority := by
  by_cases hv : (s.locks l).value = 0
  · obtain ⟨hother, hself, -, -, -, -⟩ := sema_down_block_fields cur hv
    by_cases ht : t = cur
    · rw [ht, hself]
    · rw [hother t ht]
  · obtain ⟨hother, hself, -, -, -, -, -⟩ := sema_down_take_fields cur hv
    by_cases ht : t = cur
    · rw [ht, hself]
    · rw [hother t ht]

theorem lock_acquire_loop_priority (s : kernel) (cur l : ℕ) (m : Option ℕ) (t : ℕ) :
    ((lock_acquire_loop s cur l m).threads t).priority = (s.threads t).priority := by
  unfold lock_acquire_loop
  split
  case h_1 => exact sema_down_priority s cur l t
  case h_2 k =>
    split
    case h_1 => exact sema_down_priority s cur l t
    case h_2 holder _ =>
      split
      · exact sema_down_priority s cur l t
      · exact set_thread_field thread.priority rfl t

/-- **`lock_acquire`** writes no priority in front of its donations. -/
theorem lock_acquire_priority (hrun : lock_acquire s cur l = .ok s') (t : ℕ) :
    (s'.threads t).priority = (s.threads t).priority := by
  obtain ⟨_, _, hrun⟩ := Outcome.bind_eq_ok.mp hrun
  split at hrun
  · obtain rfl := Outcome.ok.inj hrun
    exact lock_acquire_loop_priority s cur l none t
  · obtain rfl := Outcome.ok.inj hrun
    exact (lock_acquire_loop_priority _ cur l _ t).trans (set_thread_field thread.priority rfl t)

/-- **A donation** raises the holder that the loop has come to. -/
theorem lock_acquire_donate_priority {call : donation_call} {calls : List donation_call}
    (hcalls : (s.threads cur).in_create_donation = call :: calls)
    (hrun : lock_acquire_donate s cur = .ok s') (t : ℕ) :
    (s'.threads t).priority = if t = call.holder
      then max (s.threads t).priority (s.threads cur).priority else (s.threads t).priority := by
  unfold lock_acquire_donate at hrun
  rw [hcalls] at hrun
  obtain rfl := Outcome.ok.inj hrun
  have hsame : ∀ t, ((s.set_thread cur fun th => { th with
      pending_lock := call.pending_lock, in_create_donation := calls }).threads t).priority
      = (s.threads t).priority := set_thread_field thread.priority rfl
  rw [lock_acquire_loop_priority, donate_to_priority, hsame, hsame]

theorem compare_cur_next_priority_priority (s : kernel) (cur t : ℕ) :
    ((compare_cur_next_priority s cur).threads t).priority = (s.threads t).priority :=
  congrFun (congrArg donation_view.priority (view_compare_cur_next_priority s cur)) t

/-- The running thread after `remove_donation_for_lock` and `recalc_priority`. -/
def released (s : kernel) (cur l : ℕ) : thread :=
  recalc_thread ((remove_donation_for_lock s cur l).threads cur)

/-- **`lock_release`** assigns to the running thread. -/
theorem lock_release_priority (hrun : lock_release s cur l = .ok s') (t : ℕ) :
    (s'.threads t).priority
      = if t = cur then (s.released cur l).priority else (s.threads t).priority := by
  obtain ⟨_, _, hrun⟩ := Outcome.bind_eq_ok.mp hrun
  obtain ⟨s₃, hup, hret⟩ := Outcome.bind_eq_ok.mp hrun
  obtain ⟨s₂, hwake, hup⟩ := Outcome.bind_eq_ok.mp hup
  obtain rfl := Outcome.ok.inj hup
  have hview := (@sema_up_wake_ok _ _ none _ hwake).1
  have hwoken : ∀ t, (s₂.threads t).priority = _ := congrFun (congrArg donation_view.priority hview)
  have hret' : (s'.threads t).priority = (s₂.threads t).priority := by
    obtain rfl := Outcome.ok.inj hret
    split
    · rw [compare_cur_next_priority_priority, compare_cur_next_priority_priority, set_lock_threads]
    · rw [compare_cur_next_priority_priority, set_lock_threads]
  rw [hret', hwoken t]
  change ((recalc_priority (remove_donation_for_lock s cur l) cur).threads t).priority = _
  split
  · rename_i ht
    rw [ht, recalc_priority, set_thread_self]
    rfl
  · rename_i ht
    rw [recalc_priority, set_thread_of_ne ht, remove_donation_for_lock, set_thread_of_ne ht]

/-- What `recalc_priority` finds at a release: the greatest of the original priority and the
donations recorded for other locks. -/
theorem released_isGreatest (s : kernel) (cur l : ℕ) :
    IsGreatest (insert (s.threads cur).original_priority
      {p | ∃ d ∈ (s.threads cur).donations, d.lock ≠ l ∧ d.priority = p})
      (s.released cur l).priority := by
  have hgreat := (recalc_thread_fields ((remove_donation_for_lock s cur l).threads cur)).2.2.2.2
  unfold released
  simpa [remove_donation_for_lock, and_assoc] using hgreat

end kernel

/-- **The condition on a step** under which it writes no priority. A thread that donates has
no more than the holder; a thread that releases a lock, in `malloc` or elsewhere, has the
greatest of its original priority and the donations recorded for its other locks. -/
def KeepsPriorities (s : kernel) : sched_action → Prop
  | .kernel .create_donation => ∀ cur, s.current = some cur →
      ∀ call, (s.threads cur).in_create_donation.head? = some call →
        (s.threads cur).priority ≤ (s.threads call.holder).priority
  | .kernel (.lock_release l) => ∀ cur, s.current = some cur → s.KeepsOwn cur l
  | _ => True

/-- **One step** of the kernel, of an event. -/
theorem sched_step_priority_iff {s s' : kernel} {e : mlfqs_event} {a : sched_action}
    (ha : e.action = some a) (hrun : sched_step s a = .ok s') :
    (∀ t, (s'.threads t).priority = (s.threads t).priority) ↔ KeepsPriorities s a := by
  cases e with
  | lock_acquire l =>
      obtain rfl := Option.some.inj ha
      unfold sched_step kernel_step at hrun
      unfold KeepsPriorities
      dsimp only at hrun ⊢
      cases hc : s.current with
      | none =>
          rw [hc] at hrun
          cases hrun
      | some cur =>
          rw [hc] at hrun
          exact iff_of_true (kernel.lock_acquire_priority hrun) trivial
  | create_donation =>
      obtain rfl := Option.some.inj ha
      unfold sched_step kernel_step at hrun
      unfold KeepsPriorities
      dsimp only at hrun ⊢
      cases hc : s.current with
      | none =>
          rw [hc] at hrun
          cases hrun
      | some cur =>
          rw [hc] at hrun
          simp only [Option.some.injEq, forall_eq']
          cases hcalls : (s.threads cur).in_create_donation with
          | nil =>
              -- nothing to return from
              dsimp only at hrun
              unfold lock_acquire_donate at hrun
              rw [hcalls] at hrun
              cases hrun
          | cons call calls =>
              simp only [kernel.lock_acquire_donate_priority hcalls hrun, List.head?_cons,
                Option.some.injEq, forall_eq']
              constructor
              · intro hsame
                have hmax := hsame call.holder
                rw [if_pos rfl] at hmax
                exact (le_max_right _ _).trans hmax.le
              · intro hle t
                split
                · rename_i ht
                  rw [ht]
                  exact max_eq_left hle
                · rfl
  | lock_release l =>
      obtain rfl := Option.some.inj ha
      unfold sched_step kernel_step at hrun
      unfold KeepsPriorities
      dsimp only at hrun ⊢
      cases hc : s.current with
      | none =>
          rw [hc] at hrun
          cases hrun
      | some cur =>
          rw [hc] at hrun
          simp only [Option.some.injEq, forall_eq', kernel.lock_release_priority hrun]
          have hgreat := s.released_isGreatest cur l
          unfold kernel.KeepsOwn
          constructor
          · intro hsame
            have hcur := hsame cur
            rw [if_pos rfl] at hcur
            rw [← hcur]
            exact hgreat
          · intro hcur t
            split
            · rename_i ht
              rw [ht]
              exact hgreat.unique hcur
            · rfl
  | timer_yield =>
      obtain rfl := Option.some.inj ha
      unfold sched_step kernel_step at hrun
      dsimp only at hrun
      refine iff_of_true (fun t => ?_) trivial
      cases hc : s.current with
      | none =>
          rw [hc] at hrun
          cases hrun
      | some cur =>
          rw [hc] at hrun
          obtain rfl := Outcome.ok.inj hrun
          unfold thread_yield
          exact kernel.set_thread_field thread.priority rfl t
  | schedule =>
      obtain rfl := Option.some.inj ha
      unfold sched_step kernel_step at hrun
      dsimp only at hrun
      refine iff_of_true (fun t => ?_) trivial
      obtain rfl : Pintos.schedule s = s' := by
        cases hc : s.current with
        | none =>
            rw [hc] at hrun
            exact Outcome.ok.inj hrun
        | some cur =>
            rw [hc] at hrun
            cases hrun
      unfold Pintos.schedule
      split
      · rfl
      · have hswitch : ∀ next rest, ((switch_to s next rest).threads t).priority
            = (s.threads t).priority := fun next rest =>
            kernel.set_thread_field thread.priority rfl t
        split
        · exact hswitch _ _
        · rw [kernel.sema_down_priority]
          exact hswitch _ _
  | thread_block =>
      obtain rfl := Option.some.inj ha
      unfold sched_step at hrun
      dsimp only at hrun
      refine iff_of_true (fun t => ?_) trivial
      split at hrun
      all_goals cases hrun
      rw [kernel.thread_block_threads]
      exact kernel.set_thread_field thread.priority rfl t
  | thread_unblock u =>
      obtain rfl := Option.some.inj ha
      unfold sched_step at hrun
      dsimp only at hrun
      refine iff_of_true (fun t => ?_) trivial
      split at hrun
      · obtain ⟨_, _, hret⟩ := Outcome.bind_eq_ok.mp hrun
        obtain rfl := Outcome.ok.inj hret
        exact kernel.set_thread_field thread.priority rfl t
      · cases hrun
  | timer_interrupt => cases ha
  | thread_create p => cases ha
  | thread_set_nice n => cases ha

/-! ## Runs -/

namespace mlfqs

variable {x x' : mlfqs}

/-- **The formula holds** for every thread, with the data of its last update. -/
def Follows (x : mlfqs) : Prop :=
  ∀ t recent_cpu nice, x.updated t = some (recent_cpu, nice) →
    (x.s.threads t).priority = priority_formula recent_cpu nice

/-- The values in use fit. -/
structure Fits (x : mlfqs) : Prop where
  cpu : ∀ t, IsI32 (x.recent_cpu t)
  nice : ∀ t, -(2 ^ 29) ≤ x.nice t ∧ x.nice t ≤ 2 ^ 29

/-- Both together, the invariant of a run that writes no priority elsewhere. -/
structure Inv (x : mlfqs) : Prop extends x.Fits where
  follows : x.Follows

theorem mlfqs_boot_inv : mlfqs_boot.Inv where
  cpu _ := (by decide : IsI32 0)
  nice _ := (by decide : -(2 ^ 29) ≤ (0 : ℤ) ∧ (0 : ℤ) ≤ 2 ^ 29)
  follows := nofun

/-- The scheduler moves threads and changes no priority. -/
theorem Inv.congr (h : x.Inv) {s' : kernel}
    (hpri : ∀ t, (s'.threads t).priority = (x.s.threads t).priority) : Inv { x with s := s' } := by
  refine ⟨⟨h.cpu, h.nice⟩, fun t r n ht => ?_⟩
  change (s'.threads t).priority = _
  rw [hpri t]
  exact h.follows t r n ht

/-- **`update_priority`** makes the formula hold for its thread. -/
theorem Fits.update_priority (h : x.Fits) {t : ℕ}
    (hother : ∀ u r n, u ≠ t → x.updated u = some (r, n) →
      (x.s.threads u).priority = priority_formula r n) : (update_priority x t).Inv := by
  refine ⟨⟨h.cpu, h.nice⟩, fun u r n hu => ?_⟩
  unfold Pintos.update_priority at hu ⊢
  dsimp only at hu ⊢
  by_cases hut : u = t
  · rw [hut] at hu ⊢
    rw [Function.update_self] at hu
    obtain ⟨rfl, rfl⟩ := Prod.mk.inj (Option.some.inj hu)
    rw [kernel.set_thread_self]
    exact new_priority_eq (h.cpu t) (h.nice t)
  · rw [Function.update_of_ne hut] at hu
    rw [kernel.set_thread_of_ne hut]
    exact hother u r n hut hu

theorem Inv.update_priority (h : x.Inv) (t : ℕ) : (update_priority x t).Inv :=
  h.toFits.update_priority fun u r n _ hu => h.follows u r n hu

theorem Inv.update_all_priority_loop (h : x.Inv) (ts : List ℕ) :
    (update_all_priority_loop ts x).Inv := by
  induction ts generalizing x with
  | nil => exact h
  | cons t ts ih => exact ih (h.update_priority t)

theorem Inv.compare_on_return (h : x.Inv) : (compare_on_return x).Inv := by
  unfold Pintos.compare_on_return
  split
  · exact h.congr fun _ => rfl
  · exact h.congr (kernel.compare_cur_next_priority_priority _ _)

/-- Other values of `recent_cpu`. -/
theorem Inv.set_recent_cpu (h : x.Inv) {recent_cpu : ℕ → ℤ} (hcpu : ∀ t, IsI32 (recent_cpu t)) :
    Inv { x with recent_cpu := recent_cpu } := ⟨⟨hcpu, h.nice⟩, h.follows⟩

/-- An assignment to one thread's value. -/
theorem Inv.update_cpu (h : x.Inv) (t : ℕ) {v : ℤ} (hv : IsI32 v) :
    Inv { x with recent_cpu := Function.update x.recent_cpu t v } := by
  apply h.set_recent_cpu
  intro u
  by_cases hut : u = t
  · rw [hut, Function.update_self]
    exact hv
  · rw [Function.update_of_ne hut]
    exact h.cpu u

theorem Inv.update_recent_cpu_loop {ts : List ℕ} (h : x.Inv)
    (hrun : update_recent_cpu_loop ts x = .ok x') : x'.Inv := by
  induction ts generalizing x with
  | nil =>
      obtain rfl := Outcome.ok.inj hrun
      exact h
  | cons t ts ih =>
      obtain ⟨coeff, -, hrest⟩ := Outcome.bind_eq_ok.mp hrun
      exact ih (h.update_cpu t (isI32_i32 _)) hrest

theorem Inv.update_recent_cpu (h : x.Inv) : (update_recent_cpu x).Inv := by
  unfold Pintos.update_recent_cpu
  split
  · exact h
  · exact h.update_cpu _ (isI32_i32 _)

/-- **A timer tick.** -/
theorem Inv.mlfqs_tick (h : x.Inv) (hrun : mlfqs_tick x = .ok x') : x'.Inv := by
  have hticks : Inv { x with ticks := x.ticks + 1 } := ⟨⟨h.cpu, h.nice⟩, h.follows⟩
  unfold Pintos.mlfqs_tick mlfqs_on_tick at hrun
  have hcpu := hticks.update_recent_cpu
  have hload : (update_load_avg (Pintos.update_recent_cpu { x with ticks := x.ticks + 1 })).Inv :=
    ⟨⟨hcpu.cpu, hcpu.nice⟩, hcpu.follows⟩
  obtain ⟨y, hy, hret⟩ : ∃ y : mlfqs, y.Inv
      ∧ Outcome.ok (if y.ticks % 4 = 0 then update_all_priority y else y) = .ok x' := by
    dsimp only at hrun
    split at hrun
    · obtain ⟨y, hsecond, hret⟩ := Outcome.bind_eq_ok.mp hrun
      exact ⟨y, hload.update_recent_cpu_loop hsecond, hret⟩
    · exact ⟨_, hcpu, hrun⟩
  obtain rfl := Outcome.ok.inj hret
  split
  · exact (hy.update_all_priority_loop _).compare_on_return
  · exact hy

/-- **`thread_set_nice`**. -/
theorem Inv.thread_set_nice (h : x.Inv) (cur : ℕ) {nice : ℤ}
    (hnice : -(2 ^ 29) ≤ nice ∧ nice ≤ 2 ^ 29) : (thread_set_nice x cur nice).Inv := by
  have hset : Inv { x with nice := Function.update x.nice cur nice } := by
    refine ⟨⟨h.cpu, fun t => ?_⟩, h.follows⟩
    by_cases ht : t = cur
    · rw [ht]
      dsimp only
      rw [Function.update_self]
      exact hnice
    · dsimp only
      rw [Function.update_of_ne ht]
      exact h.nice t
  exact (hset.update_priority cur).congr (kernel.compare_cur_next_priority_priority _ _)

/-- **`thread_create`**: the new thread inherits, and is updated at once. -/
theorem Inv.thread_create_mlfqs (h : x.Inv) {cur : ℕ} {p : ℤ}
    (hrun : thread_create_mlfqs x cur p = .ok x') : x'.Inv := by
  obtain ⟨_, _, hret⟩ := Outcome.bind_eq_ok.mp hrun
  obtain rfl := Outcome.ok.inj hret
  have hinherit : ∀ {P : ℤ → Prop} (f : ℕ → ℤ), (∀ t, P (f t)) →
      ∀ t, P (Function.update f x.s.next_tid (f cur) t) := by
    intro P f hf t
    by_cases ht : t = x.s.next_tid
    · rw [ht, Function.update_self]
      exact hf cur
    · rw [Function.update_of_ne ht]
      exact hf t
  apply Fits.update_priority
  · exact ⟨hinherit (P := IsI32) _ h.cpu,
      hinherit (P := fun n => -(2 ^ 29) ≤ n ∧ n ≤ 2 ^ 29) _ h.nice⟩
  · intro u r n hu hup
    change ((x.s.set_thread x.s.next_tid fun _ => init_thread p).threads u).priority = _
    rw [kernel.set_thread_of_ne hu]
    exact h.follows u r n hup

/-- An event that is a step of the kernel. -/
theorem step_of_action {e : mlfqs_event} {a : sched_action} (ha : e.action = some a) :
    mlfqs_step x e = .ok x' ↔ ∃ s, sched_step x.s a = .ok s ∧ x' = { x with s := s } := by
  unfold mlfqs_step
  rw [ha]
  dsimp only
  rw [Outcome.bind_eq_ok]
  simp only [Outcome.pure_eq, Outcome.ok.injEq, eq_comm]

/-- **One event**, if it is not a lock operation that writes a priority. -/
theorem Inv.step (h : x.Inv) {e : mlfqs_event}
    (hnice : ∀ n, e = .thread_set_nice n → -(2 ^ 29) ≤ n ∧ n ≤ 2 ^ 29)
    (hkeep : ∀ a, e.action = some a → KeepsPriorities x.s a) (hrun : mlfqs_step x e = .ok x') :
    x'.Inv := by
  cases ha : e.action with
  | some a =>
      obtain ⟨s, hs, rfl⟩ := (step_of_action ha).mp hrun
      exact h.congr ((sched_step_priority_iff ha hs).mpr (hkeep a ha))
  | none =>
      cases e with
      | timer_interrupt => exact h.mlfqs_tick hrun
      | thread_create p =>
          change by_current x _ = _ at hrun
          unfold by_current at hrun
          split at hrun
          · exact h.thread_create_mlfqs hrun
          · cases hrun
      | thread_set_nice n =>
          change by_current x _ = _ at hrun
          unfold by_current at hrun
          split at hrun
          · obtain rfl := Outcome.ok.inj hrun
            exact h.thread_set_nice _ (hnice n rfl)
          · cases hrun
      | lock_acquire l => cases ha
      | create_donation => cases ha
      | lock_release l => cases ha
      | timer_yield => cases ha
      | schedule => cases ha
      | thread_block => cases ha
      | thread_unblock t => cases ha

end mlfqs

/-- Whether an event is a lock operation. -/
def mlfqs_event.OfLock (e : mlfqs_event) : Prop :=
  e = .create_donation ∨ ∃ l, e = .lock_acquire l ∨ e = .lock_release l

/-- A step that is not a lock operation meets the condition. -/
theorem keepsPriorities_of_not_lock {e : mlfqs_event} (s : kernel) (he : ¬ e.OfLock)
    {a : sched_action} (ha : e.action = some a) : KeepsPriorities s a := by
  cases e with
  | create_donation => exact absurd (.inl rfl) he
  | lock_acquire l => exact absurd (.inr ⟨l, .inl rfl⟩) he
  | lock_release l => exact absurd (.inr ⟨l, .inr rfl⟩) he
  | timer_interrupt => cases ha
  | thread_create p => cases ha
  | thread_set_nice n => cases ha
  | _ =>
      obtain rfl := Option.some.inj ha
      exact trivial

/-- **MLFQS priorities.** With `nice` values that do not overflow the formula: in every state of
a run all priorities follow the formula, and no lock operation of the run changes a priority, if
and only if every lock operation meets the condition. -/
theorem mlfqs_priorities_along_iff (es : List mlfqs_event)
    (hnice : ∀ n, .thread_set_nice n ∈ es → -(2 ^ 29) ≤ n ∧ n ≤ 2 ^ 29) :
    (∀ pre post x, es = pre ++ post → mlfqs_run pre mlfqs_boot = some x →
      x.Follows ∧ ∀ e rest x', post = e :: rest → e.OfLock → mlfqs_step x e = .ok x' →
        ∀ t, (x'.s.threads t).priority = (x.s.threads t).priority)
      ↔ ∀ pre e rest x a x', es = pre ++ e :: rest → mlfqs_run pre mlfqs_boot = some x →
        e.action = some a → mlfqs_step x e = .ok x' → KeepsPriorities x.s a := by
  constructor
  · intro h pre e rest x a x' hes hrun ha hstep
    by_cases he : e.OfLock
    · have hsame := (h pre (e :: rest) x hes hrun).2 e rest x' rfl he hstep
      obtain ⟨s, hs, rfl⟩ := (mlfqs.step_of_action ha).mp hstep
      exact (sched_step_priority_iff ha hs).mp hsame
    · exact keepsPriorities_of_not_lock x.s he ha
  · intro h pre post x hes hrun
    have hinv : x.Inv := by
      apply Runs.invariant_along (C := fun x e =>
        (∀ n, e = .thread_set_nice n → -(2 ^ 29) ≤ n ∧ n ≤ 2 ^ 29)
          ∧ ∀ a, e.action = some a → KeepsPriorities x.s a)
        (fun x e x' hx hC hstep => hx.step hC.1 hC.2 (Outcome.toOption_eq_some.mp hstep))
        mlfqs.mlfqs_boot_inv _ hes hrun
      intro pre e post y y' hes hpre hstep
      refine ⟨fun n hn => hnice n ?_, fun a ha => ?_⟩
      · rw [hes, hn]
        exact List.mem_append_right _ List.mem_cons_self
      · exact h pre e post y a y' hes hpre ha (Outcome.toOption_eq_some.mp hstep)
    refine ⟨hinv.follows, fun e rest x' hpost he hstep => ?_⟩
    obtain ⟨a, ha⟩ : ∃ a, e.action = some a := by
      obtain rfl | ⟨l, rfl | rfl⟩ := he
      · exact ⟨_, rfl⟩
      · exact ⟨_, rfl⟩
      · exact ⟨_, rfl⟩
    have hkeep := h pre e rest x a x' (hpost ▸ hes) hrun ha hstep
    obtain ⟨s, hs, rfl⟩ := (mlfqs.step_of_action ha).mp hstep
    exact (sched_step_priority_iff ha hs).mpr hkeep

/-- `main` sets its `nice` value to 5: its priority is 53. -/
theorem mlfqs_priorities_nice_five :
    (∀ n : ℤ, .thread_set_nice n ∈ [mlfqs_event.thread_set_nice 5] → -(2 ^ 29) ≤ n ∧ n ≤ 2 ^ 29)
      ∧ ∃ x, mlfqs_run [.thread_set_nice 5] mlfqs_boot = some x
        ∧ x.Follows ∧ (x.s.threads 0).priority = 53 := by
  have hnice : ∀ n : ℤ, .thread_set_nice n ∈ [mlfqs_event.thread_set_nice 5] →
      -(2 ^ 29) ≤ n ∧ n ≤ 2 ^ 29 := by
    intro n hn
    obtain rfl := mlfqs_event.thread_set_nice.inj (List.mem_singleton.mp hn)
    decide
  refine ⟨hnice, _, rfl, ?_, by decide⟩
  refine ((mlfqs_priorities_along_iff _ hnice).mpr ?_ [.thread_set_nice 5] [] _ rfl rfl).1
  -- the run has no step of the kernel
  intro pre e rest x a x' hes _ ha _
  have he : e ∈ [mlfqs_event.thread_set_nice 5] := by
    rw [hes]
    exact List.mem_append_right _ List.mem_cons_self
  obtain rfl := List.mem_singleton.mp he
  cases ha

/-- `main`, with `nice` 5, takes a lock and gives it back: its priority is 31 again. -/
theorem lock_release_resets :
    ∃ x x', mlfqs_run [.thread_set_nice 5, .lock_acquire 0] mlfqs_boot = some x
      ∧ mlfqs_step x (.lock_release 0) = .ok x' ∧ x.updated 0 = some (0, 5)
      ∧ (x.s.threads 0).priority = 53 ∧ (x'.s.threads 0).priority = 31 ∧ ¬ x'.Follows := by
  refine ⟨_, _, rfl, rfl, by decide, by decide, by decide, ?_⟩
  intro hfollows
  have h := hfollows 0 0 5 (by decide)
  exact absurd h (by decide)

end Pintos
