/-
`threads/synch.c` and the scheduling half of `threads/thread.c`: locks, priority
donation, and who runs next.

The state is the kernel's: per thread a priority, the priority it was given
(`original_priority`), the donations recorded for it and the lock it is waiting
for; per lock its holder and its semaphore; the ready list; the running thread.
One step is one call of `lock_acquire`, `lock_release`, `thread_set_priority` or
`thread_create` by the running thread, up to the point where it returns or gives
up the CPU; or a yield forced by the timer; or the scheduler's turn.

`lock_acquire` of a taken lock is cut at each donation. `create_donation` calls
`malloc`, which takes and releases locks itself, those of the heap and of the page
pool: `lock_release` recomputes the caller's priority and may yield, although the
loop has read the holder already. So a step ends in front of `malloc`, its lock
operations are steps of their own like all others, and `create_donation` is the
step from its return on. `in_create_donation` says where the thread is. In the
same way the locks that `thread_create` takes on its way, those of the page pool
and `tid_lock`, are steps of their own in front of it. Everything else in a call is
one piece: the timer takes the CPU between two steps only.

A thread that is suspended in `sema_down` sits in its loop; `in_sema_down` is its
program counter. When it is scheduled again, interrupts are still off, so it runs on
to the end of `sema_down` or back to sleep in the same step.

Priorities are only copied and compared, so they are plain integers. The MLFQS
scheduler is off, `malloc` and `palloc_get_page` find memory, and the stack is deep
enough.
-/
import Pintos.Lib.Outcome
import Mathlib.Data.List.Sort
import Mathlib.Algebra.Group.Nat.Defs
import Mathlib.Algebra.Group.Int.Defs

set_option autoImplicit false

namespace Pintos

/-! ## `lib/kernel/list.c` -/

section List

variable {α : Type} (less : α → α → Prop) [DecidableRel less]

/-- `list_insert_ordered`: in front of the first element it is less than. -/
def list_insert_ordered (l : List α) (a : α) : List α := List.orderedInsert less a l

/-- `list_sort`, which is stable. -/
def list_sort (l : List α) : List α := List.insertionSort (fun a b => ¬ less b a) l

variable {less}

theorem mem_list_insert_ordered {l : List α} {a b : α} :
    b ∈ list_insert_ordered less l a ↔ b = a ∨ b ∈ l := List.mem_orderedInsert _

theorem mem_list_sort {l : List α} {a : α} : a ∈ list_sort less l ↔ a ∈ l :=
  List.mem_insertionSort _

end List

/-! ## State -/

/-- `PRI_MIN`, `PRI_DEFAULT`, `PRI_MAX`. -/
def PRI_MIN : ℤ := 0
def PRI_DEFAULT : ℤ := 31
def PRI_MAX : ℤ := 63

/-- `donation`. -/
structure donation where
  priority : ℤ
  donor : ℕ
  lock : ℕ
  deriving DecidableEq, Repr

/-- A call of `create_donation` in its `malloc`, with what has been read before: the
lock to acquire, the lock that the loop has come to with its holder, and the
`pending_lock` that `create_donation` puts back. -/
structure donation_call where
  lock : ℕ
  pending : ℕ
  holder : ℕ
  pending_lock : Option ℕ
  deriving DecidableEq, Repr

/-- `enum thread_status`, without the dying threads. -/
inductive thread_status
  | THREAD_RUNNING
  | THREAD_READY
  | THREAD_BLOCKED
  deriving DecidableEq, Repr

/-- `struct thread`, as far as scheduling and locks read it. -/
structure thread where
  status : thread_status
  priority : ℤ
  original_priority : ℤ
  donations : List donation
  pending_lock : Option ℕ
  /-- The lock in whose `sema_down` the thread is suspended. -/
  in_sema_down : Option ℕ
  /-- The calls of `create_donation` the thread is in, the innermost first: the locks of
  `malloc` are acquired like others. -/
  in_create_donation : List donation_call
  deriving DecidableEq, Repr

/-- `struct lock`, with the value and the waiters of its semaphore. -/
structure lock where
  holder : Option ℕ
  value : ℕ
  waiters : List ℕ
  deriving DecidableEq, Repr

/-- The threads and locks of the kernel. Threads are numbered in the order of
their creation. -/
structure kernel where
  threads : ℕ → thread
  locks : ℕ → lock
  ready_list : List ℕ
  /-- The running thread; `none` while the scheduler has to choose. -/
  current : Option ℕ
  next_tid : ℕ

namespace kernel

/-- Assign to thread `t`. -/
def set_thread (s : kernel) (t : ℕ) (f : thread → thread) : kernel :=
  { s with threads := Function.update s.threads t (f (s.threads t)) }

/-- Assign to lock `l`. -/
def set_lock (s : kernel) (l : ℕ) (f : lock → lock) : kernel :=
  { s with locks := Function.update s.locks l (f (s.locks l)) }

end kernel

/-- `compare_priority`. -/
def compare_priority (s : kernel) (a b : ℕ) : Prop :=
  (s.threads a).priority > (s.threads b).priority

instance (s : kernel) : DecidableRel (compare_priority s) := fun _ _ =>
  inferInstanceAs (Decidable (_ > _))

/-- `compare_priority_for_donate`. -/
def compare_priority_for_donate (a b : donation) : Prop := a.priority > b.priority

instance : DecidableRel compare_priority_for_donate := fun _ _ =>
  inferInstanceAs (Decidable (_ > _))

/-! ## Scheduling -/

/-- `thread_unblock`. -/
def thread_unblock (s : kernel) (t : ℕ) : Outcome kernel := do
  Outcome.assert ((s.threads t).status = .THREAD_BLOCKED)
  let s := { s with ready_list := list_insert_ordered (compare_priority s) s.ready_list t }
  return s.set_thread t fun th => { th with status := .THREAD_READY }

/-- `thread_yield` by the running thread `cur`, up to the switch. -/
def thread_yield (s : kernel) (cur : ℕ) : kernel :=
  let s := { s with
    ready_list := list_insert_ordered (compare_priority s) s.ready_list cur
    current := none }
  s.set_thread cur fun th => { th with status := .THREAD_READY }

/-- `compare_cur_next_priority`. -/
def compare_cur_next_priority (s : kernel) (cur : ℕ) : kernel :=
  match list_sort (compare_priority s) s.ready_list with
  | [] => s
  | next :: rest =>
      let s := { s with ready_list := next :: rest }
      if (s.threads next).priority > (s.threads cur).priority then thread_yield s cur else s

/-! ## Locks -/

/-- `sema_down` of `lock`'s semaphore by `cur`, from the test of the loop on, and
the end of `lock_acquire` behind it. -/
def sema_down (s : kernel) (cur lock : ℕ) : kernel :=
  if (s.locks lock).value = 0 then
    let s := s.set_lock lock fun k =>
      { k with waiters := list_insert_ordered (compare_priority s) k.waiters cur }
    let s := s.set_thread cur fun th =>
      { th with status := .THREAD_BLOCKED, in_sema_down := some lock }
    { s with current := none }
  else
    let s := s.set_lock lock fun k => { k with value := k.value - 1 }
    let s := s.set_thread cur fun th => { th with pending_lock := none, in_sema_down := none }
    s.set_lock lock fun k => { k with holder := some cur }

/-- What `create_donation` returns. -/
def create_donation (s : kernel) (cur lock : ℕ) : donation where
  priority := (s.threads cur).priority
  donor := cur
  lock := lock

/-- The body of the loop of `lock_acquire` behind `malloc`: record a donation to
`holder` for the lock `pending`, raise the holder's priority, and put the waiters it
is one of in order. -/
def donate_to (s : kernel) (cur pending holder : ℕ) : kernel :=
  let donate := create_donation s cur pending
  let s :=
    if (s.threads holder).priority < (s.threads cur).priority then
      s.set_thread holder fun th => { th with priority := (s.threads cur).priority }
    else s
  let s := s.set_thread holder fun th =>
    { th with donations := list_insert_ordered compare_priority_for_donate th.donations donate }
  match (s.threads holder).pending_lock with
  | none => s
  | some l => s.set_lock l fun k => { k with waiters := list_sort (compare_priority s) k.waiters }

/-- The loop of `lock_acquire` from its test on: into `create_donation`, or out of the
loop and into `sema_down`. -/
def lock_acquire_loop (s : kernel) (cur lock : ℕ) : Option ℕ → kernel
  | none => sema_down s cur lock
  | some pending =>
      match (s.locks pending).holder with
      | none => sema_down s cur lock
      | some holder =>
          -- a holder of higher priority needs no donation, and the loop breaks
          if (s.threads cur).priority < (s.threads holder).priority then sema_down s cur lock
          else s.set_thread cur fun th =>
            { th with in_create_donation := ⟨lock, pending, holder, th.pending_lock⟩ :: th.in_create_donation }

/-- `lock_acquire`, up to the first `malloc`. -/
def lock_acquire (s : kernel) (cur lock : ℕ) : Outcome kernel := do
  Outcome.assert ((s.locks lock).holder ≠ some cur)
  match (s.locks lock).holder with
  | none => return lock_acquire_loop s cur lock none
  | some _ =>
      let s := s.set_thread cur fun th => { th with pending_lock := some lock }
      return lock_acquire_loop s cur lock (some lock)

/-- `lock_acquire` from the return of a `malloc` on, up to the next one. -/
def lock_acquire_donate (s : kernel) (cur : ℕ) : Outcome kernel :=
  match (s.threads cur).in_create_donation with
  | [] => .panic
  | call :: calls =>
      let s := s.set_thread cur fun th =>
        { th with pending_lock := call.pending_lock, in_create_donation := calls }
      -- the holder is the one that was read before `malloc`
      let s := donate_to s cur call.pending call.holder
      .ok (lock_acquire_loop s cur call.lock (s.threads call.holder).pending_lock)

/-- `remove_donation_for_lock`. -/
def remove_donation_for_lock (s : kernel) (cur lock : ℕ) : kernel :=
  s.set_thread cur fun th => { th with donations := th.donations.filter fun d => d.lock ≠ lock }

/-- The assignments of `recalc_priority` to the running thread. -/
def recalc_thread (th : thread) : thread :=
  match list_sort compare_priority_for_donate th.donations with
  | [] => { th with priority := th.original_priority }
  | front :: rest =>
      { th with
        donations := front :: rest
        priority := if th.original_priority < front.priority then front.priority
          else th.original_priority }

/-- `recalc_priority`. -/
def recalc_priority (s : kernel) (cur : ℕ) : kernel := s.set_thread cur recalc_thread

/-- The part of `sema_up` that wakes the waiter with the highest priority. -/
def sema_up_wake (s : kernel) (lock : ℕ) : Outcome kernel :=
  match list_sort (compare_priority s) (s.locks lock).waiters with
  | [] => .ok s
  | t :: rest => thread_unblock (s.set_lock lock fun k => { k with waiters := rest }) t

/-- `sema_up` of `lock`'s semaphore by `cur`. -/
def sema_up (s : kernel) (cur lock : ℕ) : Outcome kernel := do
  let s ← sema_up_wake s lock
  let s := s.set_lock lock fun k => { k with value := k.value + 1 }
  return compare_cur_next_priority s cur

/-- `lock_release`. When `sema_up` has given up the CPU, the second call of
`compare_cur_next_priority` comes when the thread runs again; what it does then
is what a yield forced by the timer does. -/
def lock_release (s : kernel) (cur lock : ℕ) : Outcome kernel := do
  Outcome.assert ((s.locks lock).holder = some cur)
  let s := remove_donation_for_lock s cur lock
  let s := recalc_priority s cur
  let s := s.set_lock lock fun k => { k with holder := none }
  let s ← sema_up s cur lock
  return if s.current = some cur then compare_cur_next_priority s cur else s

/-! ## Threads -/

/-- `thread_set_priority`. -/
def thread_set_priority (s : kernel) (cur : ℕ) (new_priority : ℤ) : kernel :=
  let s := s.set_thread cur fun th =>
    { th with
      original_priority := new_priority
      priority :=
        match th.donations with
        | [] => new_priority
        | front :: _ => if front.priority > new_priority then front.priority else new_priority }
  compare_cur_next_priority s cur

/-- `init_thread`. -/
def init_thread (priority : ℤ) : thread where
  status := .THREAD_BLOCKED
  priority := priority
  original_priority := priority
  donations := []
  pending_lock := none
  in_sema_down := none
  in_create_donation := []

/-- `thread_create`, behind its locks. -/
def thread_create (s : kernel) (cur : ℕ) (priority : ℤ) : Outcome kernel := do
  Outcome.assert (PRI_MIN ≤ priority ∧ priority ≤ PRI_MAX)
  let t := s.next_tid
  let s := { s.set_thread t fun _ => init_thread priority with next_tid := t + 1 }
  let s ← thread_unblock s t
  return if compare_priority s t cur then thread_yield s cur else s

/-- The switch of `schedule` to `next`, the front of the ready list. -/
def switch_to (s : kernel) (next : ℕ) (rest : List ℕ) : kernel :=
  ({ s with ready_list := rest, current := some next } : kernel).set_thread next fun th =>
    { th with status := .THREAD_RUNNING }

/-- `schedule`: the front of the ready list runs, if there is one, and goes on
where it was suspended. -/
def schedule (s : kernel) : kernel :=
  match s.ready_list with
  | [] => s
  | next :: rest =>
      match (s.threads next).in_sema_down with
      | none => switch_to s next rest
      | some lock => sema_down (switch_to s next rest) next lock

/-! ## Steps -/

/-- What can happen next. -/
inductive kernel_action
  | lock_acquire (lock : ℕ)
  /-- The `malloc` of `create_donation` has returned. -/
  | create_donation
  | lock_release (lock : ℕ)
  | thread_set_priority (priority : ℤ)
  | thread_create (priority : ℤ)
  /-- The timer takes the CPU from the running thread. -/
  | timer_yield
  /-- The scheduler's turn. -/
  | schedule
  deriving DecidableEq, Repr

/-- One step. Calls are made by the running thread (`thread_current` asserts that
there is one), and the scheduler runs when there is none. -/
def kernel_step (s : kernel) (a : kernel_action) : Outcome kernel :=
  match s.current, a with
  | some cur, .lock_acquire lock => lock_acquire s cur lock
  | some cur, .create_donation => lock_acquire_donate s cur
  | some cur, .lock_release lock => lock_release s cur lock
  | some cur, .thread_set_priority p => .ok (thread_set_priority s cur p)
  | some cur, .thread_create p => thread_create s cur p
  | some cur, .timer_yield => .ok (thread_yield s cur)
  | none, .schedule => .ok (schedule s)
  | _, _ => .panic

/-- A sequence of steps. -/
def kernel_run : kernel → List kernel_action → Outcome kernel
  | s, [] => .ok s
  | s, a :: as => do
      let s ← kernel_step s a
      kernel_run s as

/-- The kernel when `main` starts: one thread, no lock taken. -/
def kernel_boot : kernel where
  threads := fun t => { init_thread PRI_DEFAULT with
    status := if t = 0 then .THREAD_RUNNING else .THREAD_BLOCKED }
  locks := fun _ => { holder := none, value := 1, waiters := [] }
  ready_list := []
  current := some 0
  next_tid := 1

end Pintos
