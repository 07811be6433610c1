/-
`userprog/process.c`: `process_wait` and `process_exit`.

Two semaphores of the child order what the two threads do. `wait_sema` goes up when the
child has left its `exit_status`; `free_sema` goes up when the parent has read it and has
unlinked the child, and only then the child's page is given back. Each step below is one
access to shared data, or one section with interrupts off, and threads take steps in any
order.

A parent and one of its children are a `pair`. What the parent has done with the child so
far is its `stage`, and `PairOk` lists, for each stage, where the child can be and what its
two semaphores are. Every step of the system is a step of one pair, and leaves the others
alone.
-/
import Pintos.Threads.Semaphore

set_option autoImplicit false

namespace Pintos.wait_exit

open synch (semaphore)

/-! ## State -/

/-- Where a thread is. -/
inductive point
  /-- In code of its own. -/
  | running
  /-- In `process_wait`, in front of the test of `sema_down (&child->wait_sema)`. -/
  | waiting (child : ℕ)
  /-- Blocked there. -/
  | asleep (child : ℕ)
  /-- In front of `status = child->exit_status`. -/
  | reading (child : ℕ)
  /-- In front of `list_remove (&child->child_elem)`. -/
  | unlinking (child : ℕ) (status : ℤ)
  /-- In front of `sema_up (&child->free_sema)`. -/
  | releasing (child : ℕ) (status : ℤ)
  /-- In `process_exit`, in front of `sema_up (&curr->wait_sema)`. -/
  | exiting
  /-- In front of the test of `sema_down (&curr->free_sema)`. -/
  | lingering
  /-- Blocked there. -/
  | sleeping
  /-- `THREAD_DYING`. -/
  | dying
  /-- `do_schedule` has freed the page. -/
  | freed
  deriving DecidableEq, Repr

/-- `struct thread`, as far as it is about waiting. -/
structure thread where
  children_list : List ℕ
  exit_status : ℤ
  wait_sema : semaphore
  free_sema : semaphore
  pc : point
  /-- The thread that created this one. The code keeps no such pointer. -/
  parent : Option ℕ

/-- A wait that has got a status. -/
structure collected where
  parent : ℕ
  child : ℕ
  value : ℤ
  deriving DecidableEq, Repr

/-- The threads. -/
structure state where
  threads : ℕ → thread
  next_tid : ℕ
  priority : ℕ → ℤ
  /-- What the last call of `process_wait` has returned. -/
  rax : ℕ → Option ℤ
  /-- The calls that have got a status, the last in front. -/
  collected : List collected

namespace state

/-- Assign to thread `t`. -/
def set (s : state) (t : ℕ) (f : thread → thread) : state :=
  { s with threads := Function.update s.threads t (f (s.threads t)) }

/-- Thread `t` goes on. -/
def at_point (s : state) (t : ℕ) (pc : point) : state := s.set t fun th => { th with pc := pc }

/-- `process_wait` of thread `t` returns. -/
def returns (s : state) (t : ℕ) (v : ℤ) : state :=
  { s with rax := Function.update s.rax t (some v) }

/-- `compare_priority`. -/
def less (s : state) (a b : ℕ) : Prop := s.priority a > s.priority b

instance (s : state) : DecidableRel s.less := fun _ _ => inferInstanceAs (Decidable (_ > _))

end state

/-- A new thread. -/
def init_thread (parent : Option ℕ) : thread where
  children_list := []
  exit_status := 0
  wait_sema := { value := 0, waiters := [] }
  free_sema := { value := 0, waiters := [] }
  pc := .running
  parent := parent

/-- `thread_create` by `p`. -/
def state.create (s : state) (p : ℕ) : state :=
  { (s.set p fun th => { th with children_list := th.children_list ++ [s.next_tid] }).set
    s.next_tid (fun _ => init_thread (some p)) with next_tid := s.next_tid + 1 }

/-- `thread_unblock`, of a thread that is blocked in one of the two calls. -/
def point.unblock : point → point
  | .asleep child => .waiting child
  | .sleeping => .lingering
  | pc => pc

/-- `sema_up` of a semaphore of thread `t`: `set` stores it back. -/
def sema_up (s : state) (t : ℕ) (sema : semaphore) (store : semaphore → thread → thread) : state :=
  match list_sort s.less sema.waiters with
  | [] => s.set t (store { sema with value := (sema.value + 1) % 2 ^ 32 })
  | w :: rest =>
      (s.set w fun th => { th with pc := th.pc.unblock }).set t
        (store { value := (sema.value + 1) % 2 ^ 32, waiters := rest })

/-- `get_my_child`, of thread `p`. -/
def get_my_child (s : state) (p : ℕ) (tid : ℤ) : Option ℕ :=
  (s.threads p).children_list.find? fun child => (child : ℤ) = tid

/-- `status < 0 ? -1 : status`. -/
def wait_code (status : ℤ) : ℤ := if status < 0 then -1 else status

/-! ## Steps -/

/-- What can happen next. -/
inductive event
  /-- `thread_create` by `p`. -/
  | create (p : ℕ)
  /-- `sys_exit (status)`, or `thread_exit` without a status. -/
  | exit (p : ℕ) (status : Option ℤ)
  | up_wait (p : ℕ)
  | down_free (p : ℕ)
  | free (p : ℕ)
  /-- The call of `process_wait`, with `get_my_child`. -/
  | wait (p : ℕ) (tid : ℤ)
  | down_wait (p : ℕ)
  | read (p : ℕ)
  | unlink (p : ℕ)
  | up_free (p : ℕ)
  /-- Priorities change at any time. -/
  | set_priority (p : ℕ) (priority : ℤ)
  deriving DecidableEq, Repr

/-- One step; `none` if the thread is not at that point. -/
def step (s : state) : event → Option state
  | .create p =>
      if p < s.next_tid ∧ (s.threads p).pc = .running then some (s.create p) else none
  | .exit p status =>
      if p < s.next_tid ∧ (s.threads p).pc = .running then
        some (s.set p fun th =>
          { th with exit_status := status.getD th.exit_status, pc := .exiting })
      else none
  | .up_wait p =>
      if (s.threads p).pc = .exiting then
        some ((sema_up s p (s.threads p).wait_sema fun m th =>
          { th with wait_sema := m }).at_point p .lingering)
      else none
  | .down_free p =>
      if (s.threads p).pc = .lingering then
        let sema := (s.threads p).free_sema
        if sema.value = 0 then
          some (s.set p fun th => { th with
            free_sema := { sema with waiters := list_insert_ordered s.less sema.waiters p }
            pc := .sleeping })
        else
          some (s.set p fun th => { th with
            free_sema := { sema with value := sema.value - 1 }, pc := .dying })
      else none
  | .free p => if (s.threads p).pc = .dying then some (s.at_point p .freed) else none
  | .wait p tid =>
      if p < s.next_tid ∧ (s.threads p).pc = .running then
        if (s.threads p).children_list = [] then some (s.returns p (-1))
        else
          match get_my_child s p tid with
          | none => some (s.returns p (-1))
          | some child =>
              some ({ s with rax := Function.update s.rax p none }.at_point p (.waiting child))
      else none
  | .down_wait p =>
      match (s.threads p).pc with
      | .waiting c =>
          let sema := (s.threads c).wait_sema
          if sema.value = 0 then
            some ((s.set c fun th => { th with
              wait_sema := { sema with waiters := list_insert_ordered s.less sema.waiters p }
                }).at_point p (.asleep c))
          else
            some ((s.set c fun th => { th with
              wait_sema := { sema with value := sema.value - 1 } }).at_point p (.reading c))
      | _ => none
  | .read p =>
      match (s.threads p).pc with
      | .reading c => some (s.at_point p (.unlinking c (s.threads c).exit_status))
      | _ => none
  | .unlink p =>
      match (s.threads p).pc with
      | .unlinking c status =>
          some (s.set p fun th => { th with
            children_list := th.children_list.erase c, pc := .releasing c status })
      | _ => none
  | .up_free p =>
      match (s.threads p).pc with
      | .releasing c status =>
          let s := sema_up s c (s.threads c).free_sema fun m th => { th with free_sema := m }
          some { (s.at_point p .running).returns p (wait_code status) with
            collected := ⟨p, c, wait_code status⟩ :: s.collected }
      | _ => none
  | .set_priority p v => some { s with priority := Function.update s.priority p v }

/-- A schedule. -/
def run : List event → state → Option state
  | [], s => some s
  | e :: es, s => (step s e).bind (run es)

/-- The first thread. -/
def boot (priority : ℕ → ℤ) : state where
  threads _ := init_thread none
  next_tid := 1
  priority := priority
  rax _ := none
  collected := []

/-! ## Pairs -/

/-- How far a thread has got with its exit. -/
inductive phase
  | alive
  | lingering
  | sleeping
  | dying
  | freed
  deriving DecidableEq, Repr

/-- How far `pc` is. -/
def point.phase : point → phase
  | .lingering => .lingering
  | .sleeping => .sleeping
  | .dying => .dying
  | .freed => .freed
  | _ => .alive

/-- What the parent has done with one child. -/
inductive stage
  | idle
  | waiting
  | asleep
  | reading
  | unlinking (status : ℤ)
  | releasing (status : ℤ)
  | done
  deriving DecidableEq, Repr

/-- The child that `pc` is about. -/
def point.target : point → Option ℕ
  | .waiting c | .asleep c | .reading c | .unlinking c _ | .releasing c _ => some c
  | _ => none

/-- What `pc` is to its target. -/
def point.stage : point → stage
  | .waiting _ => .waiting
  | .asleep _ => .asleep
  | .reading _ => .reading
  | .unlinking _ status => .unlinking status
  | .releasing _ status => .releasing status
  | _ => .idle

/-- What thread `th` has done with child `c`. -/
def thread.stage (th : thread) (c : ℕ) : stage :=
  if th.pc.target = some c then th.pc.stage else if c ∈ th.children_list then .idle else .done

/-- A child, and what its parent has done with it. -/
structure pair where
  phase : phase
  exit_status : ℤ
  wait_sema : semaphore
  free_sema : semaphore
  parent : Option ℕ
  stage : stage

/-- A thread as a child. -/
def thread.pair (th : thread) (st : wait_exit.stage) : pair where
  phase := th.pc.phase
  exit_status := th.exit_status
  wait_sema := th.wait_sema
  free_sema := th.free_sema
  parent := th.parent
  stage := st

/-- What the parent of `c` has done with it. Nobody waits for the first thread. -/
def state.stage (s : state) (c : ℕ) : stage :=
  match (s.threads c).parent with
  | none => .idle
  | some p => (s.threads p).stage c

/-- The pair of child `c`. -/
def state.pair (s : state) (c : ℕ) : pair := (s.threads c).pair (s.stage c)

namespace pair

/-- `wait_sema` has gone up. -/
def Upped (x : pair) : Prop := x.phase ≠ .alive

/-- The child is past `free_sema`. -/
def Past (x : pair) : Prop := x.phase = .dying ∨ x.phase = .freed

instance (x : pair) : Decidable x.Upped := inferInstanceAs (Decidable (_ ≠ _))

instance (x : pair) : Decidable x.Past := inferInstanceAs (Decidable (_ ∨ _))

/-- `free_sema` before the parent lets the child go. -/
@[mk_iff held_iff]
structure Held (x : pair) (c : ℕ) : Prop where
  past : ¬ x.Past
  free_sema : x.free_sema = ⟨0, if x.phase = .sleeping then [c] else []⟩

/-- **What a child is like**, by the stage of its parent. -/
def Ok (x : pair) (c : ℕ) : Prop :=
  match x.stage with
  | .idle | .waiting => x.Held c ∧ x.wait_sema = ⟨if x.Upped then 1 else 0, []⟩
  | .asleep => x.Held c ∧ ¬ x.Upped ∧ x.wait_sema = ⟨0, x.parent.toList⟩
  | .reading => x.Held c ∧ x.Upped ∧ x.wait_sema = ⟨0, []⟩
  | .unlinking status | .releasing status =>
      x.Held c ∧ x.Upped ∧ x.wait_sema = ⟨0, []⟩ ∧ status = x.exit_status
  | .done => x.Upped ∧ x.phase ≠ .sleeping ∧ x.wait_sema = ⟨0, []⟩
      ∧ x.free_sema = ⟨if x.Past then 0 else 1, []⟩

end pair

/-- The threads are a forest, and a thread works on a child of its own. -/
structure TreeOk (s : state) : Prop where
  born : ∀ c p, (s.threads c).parent = some p → p < c ∧ c < s.next_tid
  fresh : ∀ t, s.next_tid ≤ t → s.threads t = init_thread none
  linked : ∀ p, ∀ c ∈ (s.threads p).children_list, (s.threads c).parent = some p
  nodup : ∀ p, (s.threads p).children_list.Nodup
  target : ∀ p c, (s.threads p).pc.target = some c → (s.threads c).parent = some p
  /-- The list still has the child up to `list_remove`. -/
  listed : ∀ p c, (s.threads p).pc.target = some c →
    (c ∈ (s.threads p).children_list ↔ ∀ status, (s.threads p).pc ≠ .releasing c status)

/-- **The invariant.** -/
structure Inv (s : state) : Prop where
  tree : TreeOk s
  ok : ∀ c, (s.pair c).Ok c
  /-- Who has been collected, and only those, are through. -/
  done : ∀ c, s.stage c = .done ↔ c ∈ s.collected.map (·.child)
  entry : ∀ r ∈ s.collected, (s.threads r.child).parent = some r.parent
    ∧ r.value = wait_code (s.threads r.child).exit_status
  once : (s.collected.map (·.child)).Nodup

/-! ## Steps of a pair -/

namespace pair.Ok

variable {x : wait_exit.pair} {c : ℕ}

theorem exit (h : x.Ok c) (hx : x.phase = .alive) (v : ℤ) :
    { x with phase := .alive, exit_status := v }.Ok c := by
  obtain ⟨ph, status, ws, fs, par, st⟩ := x
  obtain rfl : ph = .alive := hx
  -- The parent has not read the status: it would have had to get past `wait_sema`.
  cases st <;> simp_all [pair.Ok, Upped, held_iff, Past]

/-- A child that has not exited yet is not known to have. -/
theorem stage_of_alive (h : x.Ok c) (hx : x.phase = .alive) :
    x.stage = .idle ∨ x.stage = .waiting ∨ x.stage = .asleep := by
  obtain ⟨ph, status, ws, fs, par, st⟩ := x
  obtain rfl : ph = .alive := hx
  cases st <;> simp_all [pair.Ok, Upped]

theorem up (h : x.Ok c) (hx : x.phase = .alive) (hst : x.stage ≠ .asleep) :
    x.wait_sema = ⟨0, []⟩ ∧ { x with phase := .lingering, wait_sema := ⟨1, []⟩ }.Ok c := by
  obtain ⟨ph, status, ws, fs, par, st⟩ := x
  obtain rfl : ph = .alive := hx
  rcases h.stage_of_alive rfl with rfl | rfl | rfl
  · simp_all [pair.Ok, Upped, held_iff, Past]
  · simp_all [pair.Ok, Upped, held_iff, Past]
  · exact absurd rfl hst

/-- The parent sleeps: it is woken, and tests again. -/
theorem up_asleep (h : x.Ok c) (hst : x.stage = .asleep) :
    x.phase = .alive ∧ x.wait_sema = ⟨0, x.parent.toList⟩
      ∧ { x with phase := .lingering, wait_sema := ⟨1, []⟩, stage := .waiting }.Ok c := by
  obtain ⟨ph, status, ws, fs, par, st⟩ := x
  obtain rfl : st = .asleep := hst
  cases ph <;> simp_all [pair.Ok, Upped, held_iff, Past]

theorem sleep (h : x.Ok c) (hx : x.phase = .lingering) (hv : x.free_sema.value = 0) :
    x.free_sema.waiters = [] ∧ { x with phase := .sleeping, free_sema := ⟨0, [c]⟩ }.Ok c := by
  obtain ⟨ph, status, ws, fs, par, st⟩ := x
  obtain rfl : ph = .lingering := hx
  cases st <;> simp_all [pair.Ok, Upped, held_iff, Past]

theorem die (h : x.Ok c) (hx : x.phase = .lingering) (hv : x.free_sema.value ≠ 0) :
    { x with phase := .dying, free_sema := { x.free_sema with value := x.free_sema.value - 1 } }.Ok c := by
  obtain ⟨ph, status, ws, fs, par, st⟩ := x
  obtain rfl : ph = .lingering := hx
  cases st <;> simp_all [pair.Ok, Upped, held_iff, Past]

/-- The page goes. -/
theorem free (h : x.Ok c) (hx : x.phase = .dying) :
    x.stage = .done ∧ { x with phase := .freed }.Ok c := by
  obtain ⟨ph, status, ws, fs, par, st⟩ := x
  obtain rfl : ph = .dying := hx
  cases st <;> simp_all [pair.Ok, Upped, held_iff, Past]

theorem wait (h : x.Ok c) (hst : x.stage = .idle) : { x with stage := .waiting }.Ok c := by
  obtain ⟨ph, status, ws, fs, par, st⟩ := x
  obtain rfl : st = .idle := hst
  cases ph <;> simp_all [pair.Ok, Upped, held_iff, Past]

/-- The test of `wait_sema` fails as long as the child has not exited. -/
theorem block {p : ℕ} (h : x.Ok c) (hst : x.stage = .waiting) (hv : x.wait_sema.value = 0)
    (hp : x.parent = some p) :
    ¬ x.Upped ∧ x.wait_sema.waiters = []
      ∧ { x with wait_sema := ⟨0, [p]⟩, stage := .asleep }.Ok c := by
  obtain ⟨ph, status, ws, fs, par, st⟩ := x
  obtain rfl : st = .waiting := hst
  obtain rfl : par = some p := hp
  cases ph <;> simp_all [pair.Ok, Upped, held_iff, Past]

theorem take (h : x.Ok c) (hst : x.stage = .waiting) (hv : x.wait_sema.value ≠ 0) :
    x.Upped ∧ { x with
      wait_sema := { x.wait_sema with value := x.wait_sema.value - 1 }, stage :=
        .reading }.Ok c := by
  obtain ⟨ph, status, ws, fs, par, st⟩ := x
  obtain rfl : st = .waiting := hst
  cases ph <;> simp_all [pair.Ok, Upped, held_iff, Past]

theorem read (h : x.Ok c) (hst : x.stage = .reading) :
    { x with stage := .unlinking x.exit_status }.Ok c := by
  obtain ⟨ph, status, ws, fs, par, st⟩ := x
  obtain rfl : st = .reading := hst
  simp_all [pair.Ok, Upped, held_iff, Past]

theorem unlink {status : ℤ} (h : x.Ok c) (hst : x.stage = .unlinking status) :
    { x with stage := .releasing status }.Ok c := by
  obtain ⟨ph, value, ws, fs, par, st⟩ := x
  obtain rfl : st = .unlinking status := hst
  simp_all [pair.Ok, Upped, held_iff, Past]

/-- The child is let go, asleep or not. -/
theorem release {status : ℤ} (h : x.Ok c) (hst : x.stage = .releasing status) :
    status = x.exit_status
      ∧ (x.phase = .lingering ∧ x.free_sema = ⟨0, []⟩ ∨ x.phase = .sleeping
        ∧ x.free_sema = ⟨0, [c]⟩)
      ∧ { x with phase := .lingering, free_sema := ⟨1, []⟩, stage := .done }.Ok c := by
  obtain ⟨ph, value, ws, fs, par, st⟩ := x
  obtain rfl : st = .releasing status := hst
  cases ph <;> simp_all [pair.Ok, Upped, held_iff, Past]

end pair.Ok

/-! ## One thread changes -/

section Set

variable {s : state} {p c : ℕ} {f : thread → thread}

@[simp] theorem state.set_next_tid : (s.set p f).next_tid = s.next_tid := rfl

@[simp] theorem state.set_collected : (s.set p f).collected = s.collected := rfl

@[simp] theorem state.set_self : (s.set p f).threads p = f (s.threads p) :=
  Function.update_self p _ _

theorem state.set_ne (h : c ≠ p) : (s.set p f).threads c = s.threads c :=
  Function.update_of_ne h _ _

theorem state.set_parent (hpar : (f (s.threads p)).parent = (s.threads p).parent) (c : ℕ) :
    ((s.set p f).threads c).parent = (s.threads c).parent := by
  by_cases hc : c = p
  · subst hc
    rw [state.set_self, hpar]
  · rw [state.set_ne hc]

theorem state.set_exit_status (hexit : ∀ th, (f th).exit_status = th.exit_status) :
    ((s.set p f).threads c).exit_status = (s.threads c).exit_status := by
  by_cases hc : c = p
  · rw [hc, state.set_self, hexit]
  · rw [state.set_ne hc]

/-- The stage of a child is a matter of its parent. -/
theorem state.set_stage_of_ne (hpar : (f (s.threads p)).parent = (s.threads p).parent)
    (hne : (s.threads c).parent ≠ some p) : (s.set p f).stage c = s.stage c := by
  unfold state.stage
  rw [state.set_parent hpar]
  cases hq : (s.threads c).parent with
  | none => rfl
  | some q =>
      have hqp : q ≠ p := fun h => hne (by rw [hq, h])
      simp only [state.set_ne hqp]

theorem state.set_stage (hpar : (f (s.threads p)).parent = (s.threads p).parent)
    (hc : (s.threads c).parent = some p) : (s.set p f).stage c = (f (s.threads p)).stage c := by
  unfold state.stage
  rw [state.set_parent hpar, hc]
  simp only [state.set_self]

/-- The other pairs. -/
theorem state.set_pair_of_ne (hpar : (f (s.threads p)).parent = (s.threads p).parent) (hne : c ≠ p)
    (hst : (s.threads c).parent = some p → (f (s.threads p)).stage c = (s.threads p).stage c) :
    (s.set p f).pair c = s.pair c := by
  have hstage : (s.set p f).stage c = s.stage c := by
    by_cases hc : (s.threads c).parent = some p
    · rw [state.set_stage hpar hc, hst hc]
      simp only [state.stage, hc]
    · exact state.set_stage_of_ne hpar hc
  unfold state.pair
  rw [hstage, state.set_ne hne]

/-- The pair of a thread that is changed as a child. -/
theorem state.set_pair_self (hpar : (f (s.threads p)).parent = (s.threads p).parent)
    (hne : (s.threads p).parent ≠ some p) :
    (s.set p f).pair p = (f (s.threads p)).pair (s.stage p) := by
  unfold state.pair
  rw [state.set_self, state.set_stage_of_ne hpar hne]

/-- A thread that stays the same as a child. -/
theorem state.set_pair_of_own (hown : ∀ st, (f (s.threads p)).pair st = (s.threads p).pair st)
    (hst : (s.threads c).parent = some p → (f (s.threads p)).stage c = (s.threads p).stage c) :
    (s.set p f).pair c = s.pair c := by
  have hpar : (f (s.threads p)).parent = (s.threads p).parent :=
    congrArg (fun x : wait_exit.pair => x.parent) (hown .idle)
  by_cases hc : c = p
  · subst hc
    by_cases hself : (s.threads c).parent = some c
    · unfold state.pair
      rw [state.set_self, state.set_stage hpar hself, hst hself, hown]
      simp only [state.stage, hself]
    · rw [state.set_pair_self hpar hself, hown]
      rfl
  · exact state.set_pair_of_ne hpar hc hst

/-- The pair of a child whose parent is changed. -/
theorem state.set_pair_stage (hpar : (f (s.threads p)).parent = (s.threads p).parent) (hne : c ≠ p)
    (hc : (s.threads c).parent = some p) :
    (s.set p f).pair c = (s.threads c).pair ((f (s.threads p)).stage c) := by
  unfold state.pair
  rw [state.set_ne hne, state.set_stage hpar hc]

theorem state.set_set {g : thread → thread} : (s.set p f).set p g = s.set p (g ∘ f) := by
  simp only [state.set, Function.update_idem, Function.update_self, Function.comp_apply]

theorem state.set_congr {g : thread → thread} (h : f (s.threads p) = g (s.threads p)) :
    s.set p f = s.set p g := by
  simp only [state.set, h]

theorem state.set_comm {g : thread → thread} (h : c ≠ p) :
    (s.set p f).set c g = (s.set c g).set p f := by
  simp only [state.set, Function.update_of_ne h, Function.update_of_ne h.symm,
    Function.update_comm h]

theorem sema_up_nil {sema : semaphore} {store : semaphore → thread → thread}
    (h : sema.waiters = []) :
    sema_up s p sema store = s.set p (store ⟨(sema.value + 1) % 2 ^ 32, []⟩) := by
  obtain ⟨value, waiters⟩ := sema
  obtain rfl : waiters = [] := h
  rfl

theorem sema_up_singleton {sema : semaphore} {store : semaphore → thread → thread}
    (h : sema.waiters = [c]) : sema_up s p sema store =
      (s.set c fun th => { th with pc := th.pc.unblock }).set p
        (store ⟨(sema.value + 1) % 2 ^ 32, []⟩) := by
  obtain ⟨value, waiters⟩ := sema
  obtain rfl : waiters = [c] := h
  rfl

end Set

namespace TreeOk

variable {s : state} {p c : ℕ} {f : thread → thread}

theorem parent_ne (h : TreeOk s) : (s.threads p).parent ≠ some p :=
  fun hp => Nat.lt_irrefl p (h.born p p hp).1

theorem ne_of_parent (h : TreeOk s) (hc : (s.threads c).parent = some p) : c ≠ p := by
  rintro rfl
  exact h.parent_ne hc

theorem lt_of_pc (h : TreeOk s) (hpc : (s.threads p).pc ≠ .running) : p < s.next_tid := by
  by_contra hge
  rw [h.fresh p (by omega)] at hpc
  exact hpc rfl

/-- What a new value of a thread has to satisfy. -/
theorem set (h : TreeOk s) (hp : p < s.next_tid)
    (hpar : (f (s.threads p)).parent = (s.threads p).parent)
    (hlinked : ∀ c ∈ (f (s.threads p)).children_list, (s.threads c).parent = some p)
    (hnodup : (f (s.threads p)).children_list.Nodup)
    (htarget : ∀ c, (f (s.threads p)).pc.target = some c → (s.threads c).parent = some p)
    (hlisted : ∀ c, (f (s.threads p)).pc.target = some c →
      (c ∈ (f (s.threads p)).children_list ↔ ∀ status,
        (f (s.threads p)).pc ≠ .releasing c status)) :
    TreeOk (s.set p f) := by
  refine ⟨fun c q hq => ?_, fun t ht => ?_, fun q c hc => ?_, fun q => ?_, fun q c hc => ?_,
    fun q c hc => ?_⟩
  · rw [state.set_parent hpar] at hq
    exact h.born c q hq
  · rw [state.set_next_tid] at ht
    rw [state.set_ne (by omega)]
    exact h.fresh t ht
  · rw [state.set_parent hpar]
    by_cases hqp : q = p
    · subst hqp
      rw [state.set_self] at hc
      exact hlinked c hc
    · rw [state.set_ne hqp] at hc
      exact h.linked q c hc
  · by_cases hqp : q = p
    · subst hqp
      rw [state.set_self]
      exact hnodup
    · rw [state.set_ne hqp]
      exact h.nodup q
  · rw [state.set_parent hpar]
    by_cases hqp : q = p
    · subst hqp
      rw [state.set_self] at hc
      exact htarget c hc
    · rw [state.set_ne hqp] at hc
      exact h.target q c hc
  · by_cases hqp : q = p
    · subst hqp
      rw [state.set_self] at hc ⊢
      exact hlisted c hc
    · rw [state.set_ne hqp] at hc ⊢
      exact h.listed q c hc

/-- A thread that keeps its place and its children. -/
theorem set_keep (h : TreeOk s) (hp : p < s.next_tid)
    (hpar : (f (s.threads p)).parent = (s.threads p).parent)
    (hlist : (f (s.threads p)).children_list = (s.threads p).children_list)
    (hpc : (f (s.threads p)).pc = (s.threads p).pc) : TreeOk (s.set p f) := by
  apply h.set hp hpar
  · rw [hlist]
    exact h.linked p
  · rw [hlist]
    exact h.nodup p
  · rw [hpc]
    exact h.target p
  · rw [hpc, hlist]
    exact h.listed p

/-- A thread that keeps its children, and works on one that is listed, or on none. -/
theorem set_pc (h : TreeOk s) (hp : p < s.next_tid)
    (hpar : (f (s.threads p)).parent = (s.threads p).parent)
    (hlist : (f (s.threads p)).children_list = (s.threads p).children_list)
    (hpc : ∀ c, (f (s.threads p)).pc.target = some c →
      c ∈ (s.threads p).children_list ∧ ∀ status, (f (s.threads p)).pc ≠ .releasing c status) :
    TreeOk (s.set p f) := by
  apply h.set hp hpar
  · rw [hlist]
    exact h.linked p
  · rw [hlist]
    exact h.nodup p
  · exact fun c hc => h.linked p c (hpc c hc).1
  · intro c hc
    rw [hlist]
    exact ⟨fun _ => (hpc c hc).2, fun _ => (hpc c hc).1⟩

end TreeOk

/-- A step that leaves all pairs but that of `c` alone, and collects nobody. -/
theorem Inv.of_pair {s s' : state} (h : Inv s) (c : ℕ) (htree : TreeOk s')
    (hother : ∀ d, d ≠ c → s'.pair d = s.pair d) (hok : (s'.pair c).Ok c)
    (hcol : s'.collected = s.collected) (hdone : s'.stage c = .done ↔ s.stage c = .done)
    (hkeep : s.stage c = .done → (s'.threads c).parent = (s.threads c).parent
      ∧ (s'.threads c).exit_status = (s.threads c).exit_status) : Inv s' := by
  have hstage : ∀ d, d ≠ c → s'.stage d = s.stage d :=
    fun d hd => congrArg (fun x : wait_exit.pair => x.stage) (hother d hd)
  refine ⟨htree, fun d => ?_, fun d => ?_, fun r hr => ?_, ?_⟩
  · by_cases hd : d = c
    · rw [hd]
      exact hok
    · rw [hother d hd]
      exact h.ok d
  · rw [hcol, ← h.done]
    by_cases hd : d = c
    · rw [hd]
      exact hdone
    · rw [hstage d hd]
  · rw [hcol] at hr
    by_cases hd : r.child = c
    · have hst : s.stage c = .done := by
        rw [← hd]
        exact (h.done _).mpr (List.mem_map_of_mem hr)
      rw [hd, (hkeep hst).1, (hkeep hst).2, ← hd]
      exact h.entry r hr
    · have hpar : (s'.threads r.child).parent = (s.threads r.child).parent :=
        congrArg (fun x : wait_exit.pair => x.parent) (hother _ hd)
      have hexit : (s'.threads r.child).exit_status = (s.threads r.child).exit_status :=
        congrArg (fun x : wait_exit.pair => x.exit_status) (hother _ hd)
      rw [hpar, hexit]
      exact h.entry r hr
  · rw [hcol]
    exact h.once

/-- A step that lets the child of `r` go. -/
theorem Inv.of_collect {s s' : state} (h : Inv s) (r : wait_exit.collected) (htree : TreeOk s')
    (hother : ∀ d, d ≠ r.child → s'.pair d = s.pair d) (hok : (s'.pair r.child).Ok r.child)
    (hcol : s'.collected = r :: s.collected) (hbefore : s.stage r.child ≠ .done)
    (hafter : s'.stage r.child = .done)
    (hentry : (s'.threads r.child).parent = some r.parent
      ∧ r.value = wait_code (s'.threads r.child).exit_status) : Inv s' := by
  have hnot : r.child ∉ s.collected.map (·.child) := fun hm => hbefore ((h.done _).mpr hm)
  refine ⟨htree, fun d => ?_, fun d => ?_, fun x hx => ?_, ?_⟩
  · by_cases hd : d = r.child
    · rw [hd]
      exact hok
    · rw [hother d hd]
      exact h.ok d
  · rw [hcol, List.map_cons, List.mem_cons, ← h.done]
    by_cases hd : d = r.child
    · simp only [hd, hafter, true_or]
    · have hstage : s'.stage d = s.stage d :=
        congrArg (fun x : wait_exit.pair => x.stage) (hother d hd)
      simp only [hd, hstage, false_or]
  · rw [hcol, List.mem_cons] at hx
    rcases hx with rfl | hx
    · exact hentry
    · have hd : x.child ≠ r.child := fun he => hnot (he ▸ List.mem_map_of_mem hx)
      have hpar : (s'.threads x.child).parent = (s.threads x.child).parent :=
        congrArg (fun x : wait_exit.pair => x.parent) (hother _ hd)
      have hexit : (s'.threads x.child).exit_status = (s.threads x.child).exit_status :=
        congrArg (fun x : wait_exit.pair => x.exit_status) (hother _ hd)
      rw [hpar, hexit]
      exact h.entry x hx
  · rw [hcol, List.map_cons, List.nodup_cons]
    exact ⟨hnot, h.once⟩

/-! ## The two kinds of step -/

section Kinds

variable {s : state} {p c : ℕ} {f g : thread → thread}

theorem thread.stage_of_target {th : thread} (h : th.pc.target ≠ some c) :
    th.stage c = if c ∈ th.children_list then .idle else .done := if_neg h

theorem thread.stage_target {th : thread} (h : th.pc.target = some c) : th.stage c = th.pc.stage :=
  if_pos h

/-- A thread goes on with its own exit. -/
theorem Inv.set_child (h : Inv s) (hp : p < s.next_tid)
    (hpar : (f (s.threads p)).parent = (s.threads p).parent)
    (hlist : (f (s.threads p)).children_list = (s.threads p).children_list)
    (ht : (s.threads p).pc.target = none) (ht' : (f (s.threads p)).pc.target = none)
    (hok : ((f (s.threads p)).pair (s.stage p)).Ok p)
    (hkeep : s.stage p = .done → (f (s.threads p)).exit_status = (s.threads p).exit_status) :
    Inv (s.set p f) := by
  have htree : TreeOk (s.set p f) :=
    h.tree.set_pc hp hpar hlist fun c hc =>
      absurd hc (by rw [ht']; exact Option.some_ne_none c |>.symm)
  apply h.of_pair p htree
  · intro d hd
    apply state.set_pair_of_ne hpar hd
    intro _
    rw [thread.stage_of_target (by simp [ht']), thread.stage_of_target (by simp [ht]), hlist]
  · rw [state.set_pair_self hpar h.tree.parent_ne]
    exact hok
  · rfl
  · rw [state.set_stage_of_ne hpar h.tree.parent_ne]
  · intro hd
    rw [state.set_self]
    exact ⟨hpar, hkeep hd⟩

/-- The pairs after a parent has moved on with child `c`: `g` is what it does to the child,
`f` to itself. -/
theorem hand_pairs (hc : (s.threads c).parent = some p) (hne : c ≠ p)
    (hgpar : (g (s.threads c)).parent = (s.threads c).parent)
    (hgst : ∀ d, (g (s.threads c)).stage d = (s.threads c).stage d)
    (hf : ∀ st, (f (s.threads p)).pair st = (s.threads p).pair st)
    (hfst : ∀ d, d ≠ c → (f (s.threads p)).stage d = (s.threads p).stage d) :
    (∀ d, d ≠ c → ((s.set c g).set p f).pair d = s.pair d)
      ∧ ((s.set c g).set p f).pair c = (g (s.threads c)).pair ((f (s.threads p)).stage c) := by
  have hp : (s.set c g).threads p = s.threads p := state.set_ne hne.symm
  have hpar : (f (s.threads p)).parent = (s.threads p).parent :=
    congrArg (fun x : wait_exit.pair => x.parent) (hf .idle)
  refine ⟨fun d hd => ?_, ?_⟩
  · rw [state.set_pair_of_own (by rw [hp]; exact hf) (by rw [hp]; exact fun _ => hfst d hd)]
    exact state.set_pair_of_ne hgpar hd fun _ => hgst d
  · rw [state.set_pair_stage (by rw [hp]; exact hpar) hne
      (by rw [state.set_parent hgpar]; exact hc), state.set_self, hp]

/-- A parent goes on with its child `c`, and the child is not through. -/
theorem Inv.hand (h : Inv s) (hc : (s.threads c).parent = some p)
    (hgpar : (g (s.threads c)).parent = (s.threads c).parent)
    (hgst : ∀ d, (g (s.threads c)).stage d = (s.threads c).stage d)
    (hf : ∀ st, (f (s.threads p)).pair st = (s.threads p).pair st)
    (hfst : ∀ d, d ≠ c → (f (s.threads p)).stage d = (s.threads p).stage d)
    (htree : TreeOk ((s.set c g).set p f))
    (hok : ((g (s.threads c)).pair ((f (s.threads p)).stage c)).Ok c)
    (hbefore : s.stage c ≠ .done) (hafter : (f (s.threads p)).stage c ≠ .done) :
    Inv ((s.set c g).set p f) := by
  obtain ⟨hother, hself⟩ := hand_pairs hc (h.tree.ne_of_parent hc) hgpar hgst hf hfst
  have hstage : ((s.set c g).set p f).stage c = (f (s.threads p)).stage c :=
    congrArg (fun x : wait_exit.pair => x.stage) hself
  refine h.of_pair c htree hother (by rw [hself]; exact hok) rfl ?_ (fun hd => absurd hd hbefore)
  rw [hstage]
  exact iff_of_false hafter hbefore

end Kinds

/-! ## Every step -/

section Steps

variable {s s' : state} {p c : ℕ}

theorem state.stage_eq (hc : (s.threads c).parent = some p) :
    s.stage c = (s.threads p).stage c := by
  simp only [state.stage, hc]

theorem state.create_new : (s.create p).threads s.next_tid = init_thread (some p) :=
  Function.update_self _ _ _

theorem state.create_old (hc : c ≠ s.next_tid) (hp : c ≠ p) :
    (s.create p).threads c = s.threads c := by
  unfold state.create
  rw [state.set_ne hc, state.set_ne hp]

theorem state.create_parent (hp : p ≠ s.next_tid) : (s.create p).threads p =
    { s.threads p with children_list := (s.threads p).children_list ++ [s.next_tid] } := by
  unfold state.create
  rw [state.set_ne hp, state.set_self]

namespace TreeOk

theorem parent_create (hc : c ≠ s.next_tid) (hp : p < s.next_tid) :
    ((s.create p).threads c).parent = (s.threads c).parent := by
  by_cases hcp : c = p
  · rw [hcp, state.create_parent hp.ne]
  · rw [state.create_old hc hcp]

theorem pc_create (h : TreeOk s) (hp : p < s.next_tid) (t : ℕ) :
    ((s.create p).threads t).pc = (s.threads t).pc := by
  by_cases ht : t = s.next_tid
  · rw [ht, state.create_new, h.fresh _ le_rfl]
    rfl
  · by_cases htp : t = p
    · rw [htp, state.create_parent hp.ne]
    · rw [state.create_old ht htp]

theorem mem_create (h : TreeOk s) (hp : p < s.next_tid) (q : ℕ) :
    c ∈ ((s.create p).threads q).children_list ↔
      c ∈ (s.threads q).children_list ∨ q = p ∧ c = s.next_tid := by
  by_cases hq : q = s.next_tid
  · rw [hq, state.create_new, h.fresh _ le_rfl]
    simp [init_thread, hp.ne']
  · by_cases hqp : q = p
    · rw [hqp, state.create_parent hp.ne]
      simp
    · rw [state.create_old hq hqp]
      simp [hqp]

theorem ne_next (h : TreeOk s) {q : ℕ} (hc : (s.threads c).parent = some q) : c ≠ s.next_tid :=
  (h.born c q hc).2.ne

theorem create (h : TreeOk s) (hp : p < s.next_tid) : TreeOk (s.create p) := by
  have hnew : ((s.create p).threads s.next_tid).parent = some p := by rw [state.create_new]; rfl
  refine ⟨fun c q hq => ?_, fun t ht => ?_, fun q c hc => ?_, fun q => ?_, fun q c hc => ?_,
    fun q c hc => ?_⟩
  · by_cases hcn : c = s.next_tid
    · subst hcn
      obtain rfl : p = q := Option.some.inj (hnew.symm.trans hq)
      exact ⟨hp, Nat.lt_succ_self _⟩
    · rw [parent_create hcn hp] at hq
      exact ⟨(h.born c q hq).1, (h.born c q hq).2.trans (Nat.lt_succ_self _)⟩
  · replace ht : s.next_tid + 1 ≤ t := ht
    rw [state.create_old (by omega) (by omega)]
    exact h.fresh t (by omega)
  · rcases (h.mem_create hp q).mp hc with hc | ⟨rfl, rfl⟩
    · rw [parent_create (h.ne_next (h.linked q c hc)) hp]
      exact h.linked q c hc
    · exact hnew
  · by_cases hqp : q = p
    · rw [hqp, state.create_parent hp.ne, List.nodup_append]
      refine ⟨h.nodup p, List.nodup_singleton _, fun a ha b hb => ?_⟩
      rw [List.mem_singleton.mp hb]
      exact h.ne_next (h.linked p a ha)
    · by_cases hq : q = s.next_tid
      · rw [hq, state.create_new]
        exact List.nodup_nil
      · rw [state.create_old hq hqp]
        exact h.nodup q
  · rw [h.pc_create hp] at hc
    rw [parent_create (h.ne_next (h.target q c hc)) hp]
    exact h.target q c hc
  · rw [h.pc_create hp] at hc ⊢
    rw [h.mem_create hp]
    simp only [h.ne_next (h.target q c hc), and_false, or_false]
    exact h.listed q c hc

end TreeOk

theorem Inv.create (h : Inv s) (hs : step s (.create p) = some s') : Inv s' := by
  simp only [step] at hs
  split_ifs at hs with hp
  obtain rfl := Option.some.inj hs
  have hstage : ∀ d, d ≠ s.next_tid → (s.create p).stage d = s.stage d := by
    intro d hd
    unfold state.stage
    rw [TreeOk.parent_create hd hp.1]
    cases hq : (s.threads d).parent with
    | none => rfl
    | some q =>
        simp only [thread.stage, h.tree.pc_create hp.1, h.tree.mem_create hp.1, hd,
          and_false, or_false]
  have hidle : s.stage s.next_tid = .idle := by
    simp [state.stage, h.tree.fresh _ le_rfl, init_thread]
  have hnew : (s.create p).stage s.next_tid = .idle := by
    have hpar : ((s.create p).threads s.next_tid).parent = some p := by rw [state.create_new]; rfl
    have hnt : ((s.create p).threads p).pc.target = none := by
      rw [h.tree.pc_create hp.1, hp.2]
      rfl
    rw [state.stage_eq hpar, thread.stage_of_target (by simp [hnt]), if_pos]
    exact (h.tree.mem_create hp.1 p).mpr (.inr ⟨rfl, rfl⟩)
  apply h.of_pair s.next_tid (h.tree.create hp.1)
  · intro d hd
    unfold state.pair
    rw [hstage d hd]
    by_cases hdp : d = p
    · rw [hdp, state.create_parent hp.1.ne]
      rfl
    · rw [state.create_old hd hdp]
  · unfold state.pair
    rw [hnew, state.create_new]
    exact ⟨⟨by simp [pair.Past, thread.pair, init_thread, point.phase], rfl⟩, rfl⟩
  · rfl
  · rw [hnew, hidle]
  · intro hd
    simp [hidle] at hd

/-- `sys_exit`. -/
theorem Inv.exit {status : Option ℤ} (h : Inv s) (hs : step s (.exit p status) = some s') :
    Inv s' := by
  simp only [step] at hs
  split_ifs at hs with hp
  obtain rfl := Option.some.inj hs
  have hok := h.ok p
  have halive : (s.pair p).phase = .alive := by simp [state.pair, thread.pair, hp.2, point.phase]
  apply h.set_child hp.1 rfl rfl (by simp [hp.2, point.target]) rfl
  · exact hok.exit halive _
  · -- A child that is through has exited.
    intro hd
    have hst := hok.stage_of_alive halive
    simp [state.pair, thread.pair, hd] at hst

theorem Inv.down_free (h : Inv s) (hs : step s (.down_free p) = some s') : Inv s' := by
  simp only [step] at hs
  split_ifs at hs with hpc hv
  · obtain rfl := Option.some.inj hs
    have hph : (s.pair p).phase = .lingering := by simp [state.pair, thread.pair, hpc, point.phase]
    obtain ⟨hw, hok⟩ := (h.ok p).sleep hph hv
    have hlt : p < s.next_tid := h.tree.lt_of_pc (by simp [hpc])
    apply h.set_child hlt rfl rfl (by simp [hpc, point.target]) rfl _ (fun _ => rfl)
    replace hw : (s.threads p).free_sema.waiters = [] := hw
    simp only [hv, hw]
    exact hok
  · obtain rfl := Option.some.inj hs
    have hph : (s.pair p).phase = .lingering := by simp [state.pair, thread.pair, hpc, point.phase]
    have hlt : p < s.next_tid := h.tree.lt_of_pc (by simp [hpc])
    apply h.set_child hlt rfl rfl (by simp [hpc, point.target]) rfl _ (fun _ => rfl)
    exact (h.ok p).die hph hv

theorem Inv.free (h : Inv s) (hs : step s (.free p) = some s') : Inv s' := by
  simp only [step] at hs
  split_ifs at hs with hpc
  obtain rfl := Option.some.inj hs
  have hph : (s.pair p).phase = .dying := by simp [state.pair, thread.pair, hpc, point.phase]
  have hlt : p < s.next_tid := h.tree.lt_of_pc (by simp [hpc])
  apply h.set_child hlt rfl rfl (by simp [hpc, point.target]) rfl _ (fun _ => rfl)
  exact ((h.ok p).free hph).2

/-- A pc that is not at `list_remove` or past it has its target in the list. -/
theorem TreeOk.mem_of_target (h : TreeOk s) (ht : (s.threads p).pc.target = some c)
    (hr : ∀ status, (s.threads p).pc ≠ .releasing c status) : c ∈ (s.threads p).children_list :=
  (h.listed p c ht).mpr hr

theorem state.set_id : s.set c id = s := by
  simp only [state.set, id, Function.update_eq_self]

/-- The parent moves from one place to another, both of them about `c`. -/
theorem thread.stage_eq_of_target {th th' : thread}
    (ht : th.pc.target = none ∨ th.pc.target = some c)
    (ht' : th'.pc.target = none ∨ th'.pc.target = some c)
    (hlist : ∀ d, d ≠ c → (d ∈ th'.children_list ↔ d ∈ th.children_list)) :
    ∀ d, d ≠ c → th'.stage d = th.stage d := by
  intro d hd
  have hne : ∀ o : Option ℕ, o = none ∨ o = some c → o ≠ some d := by
    rintro o (rfl | rfl)
    · exact (Option.some_ne_none d).symm
    · exact fun he => hd (Option.some.inj he).symm
  rw [thread.stage_of_target (hne _ ht), thread.stage_of_target (hne _ ht')]
  simp only [hlist d hd]

/-- Only threads count. -/
theorem TreeOk.of_eq (h : TreeOk s) (ht : s'.threads = s.threads) (hn : s'.next_tid = s.next_tid) :
    TreeOk s' := by
  obtain ⟨th, n, prio, rax, col⟩ := s'
  obtain rfl : th = s.threads := ht
  obtain rfl : n = s.next_tid := hn
  exact ⟨h.born, h.fresh, h.linked, h.nodup, h.target, h.listed⟩

theorem Inv.of_eq (h : Inv s) (ht : s'.threads = s.threads) (hn : s'.next_tid = s.next_tid)
    (hc : s'.collected = s.collected) : Inv s' := by
  have htree := h.tree.of_eq ht hn
  obtain ⟨th, n, prio, rax, col⟩ := s'
  obtain rfl : th = s.threads := ht
  obtain rfl : col = s.collected := hc
  exact ⟨htree, h.ok, h.done, h.entry, h.once⟩

theorem point.stage_ne_done (pc : point) : pc.stage ≠ .done := by
  cases pc <;> simp [point.stage]

theorem thread.stage_ne_done {th : thread} (hmem : c ∈ th.children_list) : th.stage c ≠ .done := by
  unfold thread.stage
  split_ifs
  · exact point.stage_ne_done _
  · simp

/-- A parent goes on to a place before `list_remove`. -/
theorem Inv.advance {pc : point} {g : thread → thread} (h : Inv s)
    (hmem : c ∈ (s.threads p).children_list)
    (ht : (s.threads p).pc.target = none ∨ (s.threads p).pc.target = some c)
    (hph : (s.threads p).pc.phase = pc.phase) (ht' : pc.target = some c)
    (hnr : ∀ status, pc ≠ .releasing c status) (hg : TreeOk (s.set c g))
    (hgpar : (g (s.threads c)).parent = (s.threads c).parent)
    (hgst : ∀ d, (g (s.threads c)).stage d = (s.threads c).stage d)
    (hok : ((g (s.threads c)).pair pc.stage).Ok c) : Inv ((s.set c g).at_point p pc) := by
  have hc : (s.threads c).parent = some p := h.tree.linked p c hmem
  have hne : c ≠ p := h.tree.ne_of_parent hc
  have hp : (s.set c g).threads p = s.threads p := state.set_ne hne.symm
  have hlt : p < s.next_tid := (h.tree.born c p hc).1.trans (h.tree.born c p hc).2
  have hstage : ({ s.threads p with pc := pc } : thread).stage c = pc.stage :=
    thread.stage_target ht'
  apply h.hand hc hgpar hgst
  · intro st
    simp only [thread.pair, hph]
  · exact thread.stage_eq_of_target ht (.inr ht') fun _ _ => Iff.rfl
  · refine hg.set_pc hlt rfl rfl ?_
    intro d hd
    obtain rfl : c = d := Option.some.inj (ht'.symm.trans hd)
    rw [hp]
    exact ⟨hmem, hnr⟩
  · rw [hstage]
    exact hok
  · rw [state.stage_eq hc]
    exact thread.stage_ne_done hmem
  · rw [hstage]
    exact pc.stage_ne_done

theorem Inv.wait {tid : ℤ} (h : Inv s) (hs : step s (.wait p tid) = some s') : Inv s' := by
  simp only [step] at hs
  split_ifs at hs with hp hnil
  · obtain rfl := Option.some.inj hs
    exact h.of_eq rfl rfl rfl
  · cases hg : get_my_child s p tid with
    | none =>
        simp only [hg] at hs
        obtain rfl := Option.some.inj hs
        exact h.of_eq rfl rfl rfl
    | some c =>
        simp only [hg] at hs
        obtain rfl := Option.some.inj hs
        have hmem : c ∈ (s.threads p).children_list := List.mem_of_find?_eq_some hg
        have hc : (s.threads c).parent = some p := h.tree.linked p c hmem
        have hidle : (s.pair c).stage = .idle := by
          rw [state.pair, thread.pair, state.stage_eq hc,
            thread.stage_of_target (by simp [hp.2, point.target]), if_pos hmem]
        have hmove : Inv ((s.set c id).at_point p (.waiting c)) := by
          apply h.advance hmem (.inl (by simp [hp.2, point.target])) (by rw [hp.2]; rfl) rfl
            (fun _ => by simp) (by rw [state.set_id]; exact h.tree) rfl (fun _ => rfl)
          exact (h.ok c).wait hidle
        rw [state.set_id] at hmove
        exact hmove.of_eq rfl rfl rfl

theorem Inv.down_wait (h : Inv s) (hs : step s (.down_wait p) = some s') : Inv s' := by
  simp only [step] at hs
  split at hs
  · rename_i c hpc
    have ht : (s.threads p).pc.target = some c := by simp [hpc, point.target]
    have hc : (s.threads c).parent = some p := h.tree.target p c ht
    have hmem := h.tree.mem_of_target ht (by simp [hpc])
    have hst : (s.pair c).stage = .waiting := by
      simp [state.pair, thread.pair, state.stage_eq hc, thread.stage_target ht, hpc, point.stage]
    have hlt : c < s.next_tid := (h.tree.born c p hc).2
    split_ifs at hs with hv
    · obtain rfl := Option.some.inj hs
      obtain ⟨-, hw, hok⟩ := (h.ok c).block hst hv hc
      replace hw : (s.threads c).wait_sema.waiters = [] := hw
      apply h.advance hmem (.inr ht) (by rw [hpc]; rfl) rfl (fun _ => by simp)
        (h.tree.set_keep hlt rfl rfl rfl) rfl (fun _ => rfl)
      simp only [hv, hw]
      exact hok
    · obtain rfl := Option.some.inj hs
      apply h.advance hmem (.inr ht) (by rw [hpc]; rfl) rfl (fun _ => by simp)
        (h.tree.set_keep hlt rfl rfl rfl) rfl (fun _ => rfl)
      exact ((h.ok c).take hst hv).2
  · cases hs

theorem Inv.read (h : Inv s) (hs : step s (.read p) = some s') : Inv s' := by
  simp only [step] at hs
  split at hs
  · rename_i c hpc
    have ht : (s.threads p).pc.target = some c := by simp [hpc, point.target]
    have hc : (s.threads c).parent = some p := h.tree.target p c ht
    have hmem := h.tree.mem_of_target ht (by simp [hpc])
    have hst : (s.pair c).stage = .reading := by
      simp [state.pair, thread.pair, state.stage_eq hc, thread.stage_target ht, hpc, point.stage]
    obtain rfl := Option.some.inj hs
    have hmove : Inv ((s.set c id).at_point p (.unlinking c (s.threads c).exit_status)) := by
      apply h.advance hmem (.inr ht) (by rw [hpc]; rfl) rfl (fun _ => by simp)
        (by rw [state.set_id]; exact h.tree) rfl (fun _ => rfl)
      exact (h.ok c).read hst
    rw [state.set_id] at hmove
    exact hmove
  · cases hs

theorem Inv.unlink (h : Inv s) (hs : step s (.unlink p) = some s') : Inv s' := by
  simp only [step] at hs
  split at hs
  · rename_i c status hpc
    have ht : (s.threads p).pc.target = some c := by simp [hpc, point.target]
    have hc : (s.threads c).parent = some p := h.tree.target p c ht
    have hmem := h.tree.mem_of_target ht (by simp [hpc])
    have hst : (s.pair c).stage = .unlinking status := by
      simp [state.pair, thread.pair, state.stage_eq hc, thread.stage_target ht, hpc, point.stage]
    obtain rfl := Option.some.inj hs
    have hlt : p < s.next_tid := (h.tree.born c p hc).1.trans (h.tree.born c p hc).2
    have hnodup := h.tree.nodup p
    have hgone : c ∉ (s.threads p).children_list.erase c := fun hm =>
      (hnodup.mem_erase_iff.mp hm).1 rfl
    have htarget : (point.releasing c status).target = some c := rfl
    have hmove : Inv ((s.set c id).set p fun th => { th with
        children_list := th.children_list.erase c, pc := .releasing c status }) := by
      apply h.hand hc rfl (fun _ => rfl)
      · intro st
        simp only [thread.pair, hpc, point.phase]
      · exact thread.stage_eq_of_target (.inr ht) (.inr htarget) fun d hd => List.mem_erase_of_ne hd
      · rw [state.set_id]
        apply h.tree.set hlt rfl
        · exact fun d hd => h.tree.linked p d (List.mem_of_mem_erase hd)
        · exact hnodup.erase c
        · intro d hd
          obtain rfl : c = d := Option.some.inj hd
          exact hc
        · intro d hd
          obtain rfl : c = d := Option.some.inj hd
          exact iff_of_false hgone fun hall => hall status rfl
      · rw [thread.stage_target htarget]
        exact (h.ok c).unlink hst
      · rw [state.stage_eq hc]
        exact thread.stage_ne_done hmem
      · rw [thread.stage_target htarget]
        exact point.stage_ne_done _
    rw [state.set_id] at hmove
    exact hmove
  · cases hs

theorem point.target_of_phase {pc : point} (h : pc.phase ≠ .alive) : pc.target = none := by
  cases pc <;> simp_all [point.phase, point.target]

theorem point.eq_lingering {pc : point} (h : pc.phase = .lingering) : pc = .lingering := by
  cases pc <;> simp_all [point.phase]

theorem point.eq_sleeping {pc : point} (h : pc.phase = .sleeping) : pc = .sleeping := by
  cases pc <;> simp_all [point.phase]

/-- `sema_up (&child->free_sema)`: the child goes on, or will not stop. -/
theorem sema_up_free {status : ℤ} (h : (s.pair c).Ok c)
    (hst : (s.pair c).stage = .releasing status) :
    sema_up s c (s.threads c).free_sema (fun m th => { th with free_sema := m }) =
      s.set c fun th => { th with pc := .lingering, free_sema := ⟨1, []⟩ } := by
  obtain ⟨-, hcase, -⟩ := h.release hst
  rcases hcase with ⟨hph, hsema⟩ | ⟨hph, hsema⟩
  · replace hsema : (s.threads c).free_sema = ⟨0, []⟩ := hsema
    rw [hsema, sema_up_nil rfl]
    apply state.set_congr
    simp [point.eq_lingering hph]
  · replace hsema : (s.threads c).free_sema = ⟨0, [c]⟩ := hsema
    rw [hsema, sema_up_singleton rfl, state.set_set]
    apply state.set_congr
    simp only [Function.comp_apply, point.eq_sleeping hph]
    rfl

theorem Inv.up_free (h : Inv s) (hs : step s (.up_free p) = some s') : Inv s' := by
  simp only [step] at hs
  split at hs
  · rename_i c status hpc
    have ht : (s.threads p).pc.target = some c := by simp [hpc, point.target]
    have hc : (s.threads c).parent = some p := h.tree.target p c ht
    have hgone : c ∉ (s.threads p).children_list := fun hm =>
      (h.tree.listed p c ht).mp hm status hpc
    have hst : (s.pair c).stage = .releasing status := by
      simp [state.pair, thread.pair, state.stage_eq hc, thread.stage_target ht, hpc, point.stage]
    obtain ⟨hstatus, hcase, hok⟩ := (h.ok c).release hst
    have hup : (s.threads c).pc.target = none := by
      apply point.target_of_phase
      rcases hcase with ⟨hph, -⟩ | ⟨hph, -⟩
      · exact fun he => by simp [state.pair, thread.pair, he] at hph
      · exact fun he => by simp [state.pair, thread.pair, he] at hph
    rw [sema_up_free (h.ok c) hst] at hs
    obtain rfl := Option.some.inj hs
    have hlt : p < s.next_tid := (h.tree.born c p hc).1.trans (h.tree.born c p hc).2
    obtain ⟨hother, hself⟩ := hand_pairs
      (g := fun th => { th with pc := .lingering, free_sema := ⟨1, []⟩ })
      (f := fun th => { th with pc := .running }) hc (h.tree.ne_of_parent hc) rfl
      (fun d => by
        rw [thread.stage_of_target (by simp [point.target]),
          thread.stage_of_target (by simp [hup])])
      (fun _ => by simp only [thread.pair, hpc, point.phase])
      (thread.stage_eq_of_target (.inr ht) (.inl rfl) fun _ _ => Iff.rfl)
    have hdone : ({ s.threads p with pc := .running } : thread).stage c = .done := by
      rw [thread.stage_of_target (by simp [point.target]), if_neg hgone]
    refine h.of_collect ⟨p, c, wait_code status⟩ ?_ hother ?_ rfl ?_ ?_ ?_
    · have hchild : TreeOk (s.set c fun th => { th with pc := .lingering, free_sema := ⟨1, []⟩ }) :=
        h.tree.set_pc (h.tree.born c p hc).2 rfl rfl fun d hd => by simp [point.target] at hd
      refine TreeOk.of_eq (hchild.set_pc (f := fun th => { th with pc := .running }) hlt rfl rfl ?_)
        rfl rfl
      intro d hd
      simp [point.target] at hd
    · refine cast (congrArg (fun x : wait_exit.pair => x.Ok c) hself).symm ?_
      rw [hdone]
      exact hok
    · intro he
      exact absurd (hst.symm.trans he) (by simp)
    · exact (congrArg (fun x : wait_exit.pair => x.stage) hself).trans hdone
    · have hkeep := congrArg (fun x : wait_exit.pair => (x.parent, x.exit_status)) hself
      have hpar := congrArg Prod.fst hkeep
      have hexit := congrArg Prod.snd hkeep
      refine ⟨hpar.trans hc, ?_⟩
      rw [hstatus]
      exact congrArg wait_code hexit.symm
  · cases hs

theorem asleep_parent (hst : (s.pair c).stage = .asleep) :
    ∃ p, (s.threads c).parent = some p ∧ (s.threads p).pc = .asleep c := by
  replace hst : s.stage c = .asleep := hst
  cases hp : (s.threads c).parent with
  | none => simp [state.stage, hp] at hst
  | some p =>
      rw [state.stage_eq hp, thread.stage] at hst
      refine ⟨p, rfl, ?_⟩
      split_ifs at hst with ht
      cases hpc : (s.threads p).pc <;> simp_all [point.stage, point.target]

/-- `sema_up (&curr->wait_sema)`. -/
theorem Inv.up_wait (h : Inv s) (hs : step s (.up_wait p) = some s') : Inv s' := by
  simp only [step] at hs
  split_ifs at hs with hpc
  have hlt : p < s.next_tid := h.tree.lt_of_pc (by simp [hpc])
  have hph : (s.pair p).phase = .alive := by simp [state.pair, thread.pair, hpc, point.phase]
  by_cases hst : (s.pair p).stage = .asleep
  · -- The parent is the one waiter.
    obtain ⟨-, hsema, hok⟩ := (h.ok p).up_asleep hst
    obtain ⟨q, hq, hqpc⟩ := asleep_parent hst
    have ht : (s.threads q).pc.target = some p := by simp [hqpc, point.target]
    have hmem := h.tree.mem_of_target ht (by simp [hqpc])
    have hne : p ≠ q := h.tree.ne_of_parent hq
    have hpar : (s.pair p).parent = some q := hq
    rw [hpar] at hsema
    replace hsema : (s.threads p).wait_sema = ⟨0, [q]⟩ := hsema
    rw [hsema, sema_up_singleton rfl, state.at_point, state.set_set, state.set_comm hne] at hs
    obtain rfl := Option.some.inj hs
    have hmove : Inv ((s.set p fun th =>
        { th with wait_sema := ⟨1, []⟩, pc := .lingering }).at_point q (.waiting p)) := by
      apply h.advance hmem (.inr ht) (by rw [hqpc]; rfl) rfl (fun _ => by simp) _ rfl
      · intro d
        rw [thread.stage_of_target (by simp [point.target]),
          thread.stage_of_target (by simp [hpc, point.target])]
      · exact hok
      · exact h.tree.set_pc hlt rfl rfl fun d hd => by simp [point.target] at hd
    have hq' : ∀ g, ((s.set p g).threads q).pc = .asleep p := by
      intro g
      rw [state.set_ne hne.symm, hqpc]
    refine cast (congrArg Inv (state.set_congr ?_)) hmove
    simp only [hq', point.unblock]
  · obtain ⟨hsema, hok⟩ := (h.ok p).up hph hst
    replace hsema : (s.threads p).wait_sema = ⟨0, []⟩ := hsema
    rw [hsema, sema_up_nil rfl, state.at_point, state.set_set] at hs
    obtain rfl := Option.some.inj hs
    exact h.set_child hlt rfl rfl (by simp [hpc, point.target]) rfl hok (fun _ => rfl)

theorem Inv.step {e : event} (h : Inv s) (hs : step s e = some s') : Inv s' := by
  cases e with
  | create p => exact h.create hs
  | exit p status => exact h.exit hs
  | up_wait p => exact h.up_wait hs
  | down_free p => exact h.down_free hs
  | free p => exact h.free hs
  | wait p tid => exact h.wait hs
  | down_wait p => exact h.down_wait hs
  | read p => exact h.read hs
  | unlink p => exact h.unlink hs
  | up_free p => exact h.up_free hs
  | set_priority p v =>
      obtain rfl := Option.some.inj hs
      exact h.of_eq rfl rfl rfl

theorem Inv.run {es : List event} (h : Inv s) (hs : run es s = some s') : Inv s' := by
  induction es generalizing s with
  | nil =>
      obtain rfl := Option.some.inj hs
      exact h
  | cons e es ih =>
      obtain ⟨s₁, he, hs⟩ := Option.bind_eq_some_iff.mp hs
      exact ih (h.step he) hs

theorem Inv.boot (priority : ℕ → ℤ) : Inv (boot priority) := by
  refine ⟨⟨fun _ _ hp => ?_, fun _ _ => rfl, fun _ _ hc => ?_, fun _ => List.nodup_nil,
    fun _ _ ht => ?_, fun _ _ ht => ?_⟩, fun _ => ?_, fun _ => ?_, fun _ hr => ?_, List.nodup_nil⟩
  · simp [wait_exit.boot, init_thread] at hp
  · simp [wait_exit.boot, init_thread] at hc
  · simp [wait_exit.boot, init_thread, point.target] at ht
  · simp [wait_exit.boot, init_thread, point.target] at ht
  · exact ⟨⟨by simp [pair.Past, state.pair, thread.pair, wait_exit.boot, init_thread, point.phase], rfl⟩,
      rfl⟩
  · simp [state.stage, wait_exit.boot, init_thread]
  · simp [wait_exit.boot] at hr

end Steps

/-! ## The hand-shake -/

/-- The thread whose step it is. -/
def event.actor : event → Option ℕ
  | .create p | .exit p _ | .up_wait p | .down_free p | .free p | .wait p _ | .down_wait p | .read p
  | .unlink p | .up_free p => some p
  | .set_priority _ _ => none

section Handshake

variable {s s' : state} {p c : ℕ} {e : event}

/-- What the step of another thread can do to thread `p`: it can wake it. -/
@[mk_iff]
structure Woken (s s' : state) (p : ℕ) : Prop where
  pc : (s'.threads p).pc = (s.threads p).pc ∨ (s'.threads p).pc = (s.threads p).pc.unblock
  children_list : (s'.threads p).children_list = (s.threads p).children_list
  exit_status : (s'.threads p).exit_status = (s.threads p).exit_status

namespace Woken

theorem of_eq (h : s'.threads p = s.threads p) : Woken s s' p :=
  ⟨.inl (by rw [h]), by rw [h], by rw [h]⟩

theorem trans_eq {s₁ : state} (h : Woken s s₁ p) (he : s'.threads p = s₁.threads p) :
    Woken s s' p :=
  ⟨by rw [he]; exact h.pc, by rw [he]; exact h.children_list, by rw [he]; exact h.exit_status⟩

theorem set {t : ℕ} {f : thread → thread} (ht : p ≠ t) : Woken s (s.set t f) p :=
  of_eq (state.set_ne ht)

/-- A semaphore is stored. -/
theorem store {t : ℕ} {f : thread → thread} (hpc : ∀ th, (f th).pc = th.pc)
    (hlist : ∀ th, (f th).children_list = th.children_list)
    (hexit : ∀ th, (f th).exit_status = th.exit_status) : Woken s (s.set t f) p := by
  by_cases ht : p = t
  · subst ht
    exact ⟨.inl (by rw [state.set_self, hpc]), by rw [state.set_self, hlist],
      by rw [state.set_self, hexit]⟩
  · exact set ht

theorem trans_store {s₁ : state} {t : ℕ} {f : thread → thread} (h : Woken s s₁ p)
    (hpc : ∀ th, (f th).pc = th.pc) (hlist : ∀ th, (f th).children_list = th.children_list)
    (hexit : ∀ th, (f th).exit_status = th.exit_status) : Woken s (s₁.set t f) p := by
  by_cases ht : p = t
  · subst ht
    exact ⟨by rw [state.set_self, hpc]; exact h.pc, by rw [state.set_self, hlist, h.children_list],
      by rw [state.set_self, hexit, h.exit_status]⟩
  · exact h.trans_eq (state.set_ne ht)

theorem sema_up {t : ℕ} {sema : semaphore} {store : semaphore → thread → thread}
    (hpc : ∀ m th, (store m th).pc = th.pc)
    (hlist : ∀ m th, (store m th).children_list = th.children_list)
    (hexit : ∀ m th, (store m th).exit_status = th.exit_status) :
    Woken s (sema_up s t sema store) p := by
  unfold wait_exit.sema_up
  split
  · exact Woken.store (hpc _) (hlist _) (hexit _)
  · rename_i w rest _
    apply trans_store _ (hpc _) (hlist _) (hexit _)
    by_cases hw : p = w
    · subst hw
      exact ⟨.inr (by rw [state.set_self]), by rw [state.set_self], by rw [state.set_self]⟩
    · exact set hw

theorem create (h : Inv s) {q : ℕ} (hpq : p ≠ q) : Woken s (s.create q) p := by
  by_cases hp : p = s.next_tid
  · subst hp
    rw [woken_iff, state.create_new, h.tree.fresh _ le_rfl]
    exact ⟨.inl rfl, rfl, rfl⟩
  · exact of_eq (state.create_old hp hpq)

end Woken

/-- A thread that does not run can only be woken. -/
theorem step_woken (h : Inv s) (hs : step s e = some s') (he : e.actor ≠ some p) :
    Woken s s' p := by
  cases e with
  | create q =>
      have hpq : p ≠ q := fun hq => he (congrArg some hq.symm)
      simp only [step] at hs
      split_ifs at hs
      obtain rfl := Option.some.inj hs
      exact .create h hpq
  | exit q | free q | down_free q =>
      have hpq : p ≠ q := fun hq => he (congrArg some hq.symm)
      simp only [step] at hs
      split_ifs at hs <;> obtain rfl := Option.some.inj hs <;> exact .set hpq
  | up_wait q =>
      have hpq : p ≠ q := fun hq => he (congrArg some hq.symm)
      simp only [step] at hs
      split_ifs at hs
      obtain rfl := Option.some.inj hs
      apply Woken.trans_eq _ (state.set_ne hpq)
      exact .sema_up (fun _ _ => rfl) (fun _ _ => rfl) fun _ _ => rfl
  | wait q tid =>
      have hpq : p ≠ q := fun hq => he (congrArg some hq.symm)
      simp only [step] at hs
      split_ifs at hs
      · obtain rfl := Option.some.inj hs
        exact .of_eq rfl
      · split at hs
        · obtain rfl := Option.some.inj hs
          exact .of_eq rfl
        · obtain rfl := Option.some.inj hs
          exact .of_eq (state.set_ne hpq)
  | down_wait q =>
      have hpq : p ≠ q := fun hq => he (congrArg some hq.symm)
      simp only [step] at hs
      split at hs
      · split_ifs at hs
        · obtain rfl := Option.some.inj hs
          apply Woken.trans_eq _ (state.set_ne hpq)
          exact .store (fun _ => rfl) (fun _ => rfl) fun _ => rfl
        · obtain rfl := Option.some.inj hs
          apply Woken.trans_eq _ (state.set_ne hpq)
          exact .store (fun _ => rfl) (fun _ => rfl) fun _ => rfl
      · cases hs
  | read q | unlink q =>
      have hpq : p ≠ q := fun hq => he (congrArg some hq.symm)
      simp only [step] at hs
      split at hs
      · obtain rfl := Option.some.inj hs
        exact .set hpq
      · cases hs
  | up_free q =>
      have hpq : p ≠ q := fun hq => he (congrArg some hq.symm)
      simp only [step] at hs
      split at hs
      · rename_i c status _
        obtain rfl := Option.some.inj hs
        have hup : Woken s (sema_up s c (s.threads c).free_sema fun m th =>
            { th with free_sema := m }) p :=
          .sema_up (fun _ _ => rfl) (fun _ _ => rfl) fun _ _ => rfl
        exact hup.trans_eq (Function.update_of_ne hpq _ _)
      · cases hs
  | set_priority q v =>
      obtain rfl := Option.some.inj hs
      exact .of_eq rfl

@[simp] theorem sema_up_next_tid {t : ℕ} {sema : semaphore} {store : semaphore → thread → thread} :
    (sema_up s t sema store).next_tid = s.next_tid := by
  unfold sema_up
  split <;> rfl

@[simp] theorem sema_up_collected {t : ℕ} {sema : semaphore} {store : semaphore → thread → thread} :
    (sema_up s t sema store).collected = s.collected := by
  unfold sema_up
  split <;> rfl

theorem next_tid_step (hs : step s e = some s') : s.next_tid ≤ s'.next_tid := by
  cases e with
  | create q | exit q | free q | up_wait q | down_free q =>
      simp only [step] at hs
      split_ifs at hs <;> obtain rfl := Option.some.inj hs <;> simp [state.create, state.at_point]
  | wait q tid =>
      simp only [step] at hs
      split_ifs at hs
      · obtain rfl := Option.some.inj hs
        exact le_rfl
      · split at hs <;> obtain rfl := Option.some.inj hs <;> exact le_rfl
  | down_wait q =>
      simp only [step] at hs
      split at hs
      · split_ifs at hs <;> obtain rfl := Option.some.inj hs <;> exact le_rfl
      · cases hs
  | read q | unlink q =>
      simp only [step] at hs
      split at hs
      · obtain rfl := Option.some.inj hs
        exact le_rfl
      · cases hs
  | up_free q =>
      simp only [step] at hs
      split at hs
      · obtain rfl := Option.some.inj hs
        simp [state.at_point, state.returns]
      · cases hs
  | set_priority q v =>
      obtain rfl := Option.some.inj hs
      exact le_rfl

/-- Steps of its own that a parent is away from the return. -/
def point.rank : point → ℕ
  | .waiting _ => 4
  | .reading _ => 3
  | .unlinking _ _ => 2
  | .releasing _ _ => 1
  | _ => 0

/-- Nobody sleeps in `process_wait` on a child that has exited. -/
theorem Inv.asleep (h : Inv s) (hpc : (s.threads p).pc = .asleep c) :
    (s.threads c).pc.phase = .alive := by
  have ht : (s.threads p).pc.target = some c := by simp [hpc, point.target]
  have hc := h.tree.target p c ht
  have hst : (s.pair c).stage = .asleep := by
    simp [state.pair, thread.pair, state.stage_eq hc, thread.stage_target ht, hpc, point.stage]
  exact ((h.ok c).up_asleep hst).1

/-- A parent at child `c`, which has exited, or the call has returned. -/
def Nears (s : state) (p c n : ℕ) : Prop :=
  (∃ r ∈ s.collected, r.parent = p ∧ r.child = c) ∨
    (s.threads p).pc.target = some c ∧ (s.threads c).pc.phase ≠ .alive ∧ (s.threads p).pc.rank ≤ n

/-- The steps of a thread that is in `process_wait`. -/
theorem step_own (hs : step s e = some s') (ha : e.actor = some p)
    (ht : (s.threads p).pc.target = some c) :
    e = .down_wait p ∧ (s.threads p).pc = .waiting c ∨ e = .read p ∧ (s.threads p).pc = .reading c
      ∨ (∃ status, e = .unlink p ∧ (s.threads p).pc = .unlinking c status)
      ∨ ∃ status, e = .up_free p ∧ (s.threads p).pc = .releasing c status := by
  cases e with
  | create q | exit q | free q | up_wait q | down_free q | wait q =>
      obtain rfl : q = p := Option.some.inj ha
      simp only [step] at hs
      split_ifs at hs <;> simp_all [point.target]
  | down_wait q | read q | unlink q | up_free q =>
      obtain rfl : q = p := Option.some.inj ha
      simp only [step] at hs
      split at hs <;> simp_all [point.target]
  | set_priority q v => cases ha

theorem unblock_phase {pc : point} (h : pc.phase ≠ .alive) : pc.unblock.phase ≠ .alive := by
  cases pc <;> simp_all [point.phase, point.unblock]

/-- Nobody comes back from its exit. -/
theorem phase_step (h : Inv s) (hs : step s e = some s') (hc : (s.threads c).pc.phase ≠ .alive) :
    (s'.threads c).pc.phase ≠ .alive := by
  by_cases ha : e.actor = some c
  · cases e with
    | create q | exit q | up_wait q | wait q =>
        obtain rfl : q = c := Option.some.inj ha
        simp only [step] at hs
        split_ifs at hs <;> simp_all [point.phase]
    | down_free q | free q =>
        obtain rfl : q = c := Option.some.inj ha
        simp only [step] at hs
        split_ifs at hs <;> obtain rfl := Option.some.inj hs <;> simp [state.at_point, point.phase]
    | down_wait q | read q | unlink q | up_free q =>
        obtain rfl : q = c := Option.some.inj ha
        simp only [step] at hs
        split at hs <;> simp_all [point.phase]
    | set_priority q v => cases ha
  · rcases (step_woken h hs ha).pc with hpc | hpc
    · rw [hpc]
      exact hc
    · rw [hpc]
      exact unblock_phase hc

/-- `sys_exit` has begun. -/
def thread.Exited (th : thread) : Prop := th.pc = .exiting ∨ th.pc.phase ≠ .alive

/-- Only the exit of a thread sets its `exit_status`, and it happens once. -/
theorem exit_step (h : Inv s) (hs : step s e = some s') (c : ℕ) :
    (∃ status, e = .exit c status ∧ ¬ (s.threads c).Exited
      ∧ (s'.threads c).exit_status = status.getD (s.threads c).exit_status ∧ (s'.threads c).Exited)
    ∨ (∀ status, e ≠ .exit c status) ∧ (s'.threads c).exit_status = (s.threads c).exit_status
      ∧ ((s.threads c).Exited → (s'.threads c).Exited) := by
  by_cases ha : e.actor = some c
  · cases e with
    | exit q status =>
        obtain rfl : q = c := Option.some.inj ha
        simp only [step] at hs
        split_ifs at hs with hq
        obtain rfl := Option.some.inj hs
        refine .inl ⟨status, rfl, ?_, by simp, .inl (by simp)⟩
        simp [thread.Exited, hq.2, point.phase]
    | create q =>
        obtain rfl : q = c := Option.some.inj ha
        simp only [step] at hs
        split_ifs at hs with hq
        obtain rfl := Option.some.inj hs
        refine .inr ⟨fun _ he => event.noConfusion he, ?_, fun hx => ?_⟩
        · rw [state.create_parent hq.1.ne]
        · simp [thread.Exited, hq.2, point.phase] at hx
    | up_wait q =>
        obtain rfl : q = c := Option.some.inj ha
        simp only [step] at hs
        split_ifs at hs with hq
        obtain rfl := Option.some.inj hs
        have hup : Woken s (sema_up s q (s.threads q).wait_sema fun m th =>
            { th with wait_sema := m }) q :=
          .sema_up (fun _ _ => rfl) (fun _ _ => rfl) fun _ _ => rfl
        refine .inr ⟨fun _ he => event.noConfusion he, ?_,
          fun _ => .inr (by simp [state.at_point, point.phase])⟩
        rw [state.at_point, state.set_self]
        exact hup.exit_status
    | down_free q | free q =>
        obtain rfl : q = c := Option.some.inj ha
        refine .inr ⟨fun _ he => event.noConfusion he, ?_, fun _ => .inr ?_⟩
        · simp only [step] at hs
          split_ifs at hs <;> obtain rfl := Option.some.inj hs <;> simp [state.at_point]
        · apply phase_step h hs
          simp only [step] at hs
          split_ifs at hs <;> simp_all [point.phase]
    | wait q =>
        obtain rfl : q = c := Option.some.inj ha
        simp only [step] at hs
        split_ifs at hs with hq hnil
        · obtain rfl := Option.some.inj hs
          exact .inr ⟨fun _ he => event.noConfusion he, rfl, id⟩
        · refine .inr ⟨fun _ he => event.noConfusion he, ?_, fun hx => ?_⟩
          · split at hs <;> obtain rfl :=
              Option.some.inj hs <;> simp [state.at_point, state.returns]
          · simp [thread.Exited, hq.2, point.phase] at hx
    | down_wait q =>
        obtain rfl : q = c := Option.some.inj ha
        simp only [step] at hs
        split at hs
        · rename_i d hq
          refine .inr ⟨fun _ he => event.noConfusion he, ?_, fun hx => ?_⟩
          · split_ifs at hs
            · obtain rfl := Option.some.inj hs
              rw [state.at_point, state.set_self]
              apply state.set_exit_status
              exact fun _ => rfl
            · obtain rfl := Option.some.inj hs
              rw [state.at_point, state.set_self]
              apply state.set_exit_status
              exact fun _ => rfl
          · simp [thread.Exited, hq, point.phase] at hx
        · cases hs
    | read q | unlink q =>
        obtain rfl : q = c := Option.some.inj ha
        simp only [step] at hs
        split at hs
        · rename_i hq
          obtain rfl := Option.some.inj hs
          refine .inr ⟨fun _ he => event.noConfusion he, by simp [state.at_point], fun hx => ?_⟩
          simp [thread.Exited, hq, point.phase] at hx
        · cases hs
    | up_free q =>
        obtain rfl : q = c := Option.some.inj ha
        simp only [step] at hs
        split at hs
        · rename_i d status hq
          obtain rfl := Option.some.inj hs
          have hup : Woken s (sema_up s d (s.threads d).free_sema fun m th =>
              { th with free_sema := m }) q :=
            .sema_up (fun _ _ => rfl) (fun _ _ => rfl) fun _ _ => rfl
          refine .inr ⟨fun _ he => event.noConfusion he, ?_, fun hx => ?_⟩
          · simp only [state.returns, state.at_point, state.set_self]
            exact hup.exit_status
          · simp [thread.Exited, hq, point.phase] at hx
        · cases hs
    | set_priority q v => cases ha
  · have hw := step_woken h hs ha
    refine .inr ⟨fun status he => ha (by rw [he]; rfl), hw.exit_status, fun hx => ?_⟩
    rcases hw.pc with hpc | hpc
    · rw [thread.Exited, hpc]
      exact hx
    · rw [thread.Exited, hpc]
      rcases hx with hx | hx
      · exact .inl (by rw [hx]; rfl)
      · exact .inr (unblock_phase hx)

theorem collected_step (hs : step s e = some s') {r : collected} (hr : r ∈ s.collected) :
    r ∈ s'.collected := by
  cases e with
  | create q | exit q | free q | up_wait q | down_free q =>
      simp only [step] at hs
      split_ifs at hs <;> obtain rfl := Option.some.inj hs <;>
        simpa [state.create, state.at_point] using hr
  | wait q tid =>
      simp only [step] at hs
      split_ifs at hs
      · obtain rfl := Option.some.inj hs
        exact hr
      · split at hs <;> obtain rfl := Option.some.inj hs <;> exact hr
  | down_wait q =>
      simp only [step] at hs
      split at hs
      · split_ifs at hs <;> obtain rfl := Option.some.inj hs <;> exact hr
      · cases hs
  | read q | unlink q =>
      simp only [step] at hs
      split at hs
      · obtain rfl := Option.some.inj hs
        exact hr
      · cases hs
  | up_free q =>
      simp only [step] at hs
      split at hs
      · obtain rfl := Option.some.inj hs
        simpa using .inr hr
      · cases hs
  | set_priority q v =>
      obtain rfl := Option.some.inj hs
      exact hr

/-- The parent, at a child that has exited, takes the step that is its turn. -/
theorem nears_own {n : ℕ} (h : Inv s) (hs : step s e = some s') (ha : e.actor = some p)
    (ht : (s.threads p).pc.target = some c) (hc : (s.threads c).pc.phase ≠ .alive)
    (hn : (s.threads p).pc.rank ≤ n) : Nears s' p c (n - 1) := by
  have hc' := phase_step h hs hc
  have hpar := h.tree.target p c ht
  rcases step_own hs ha ht with ⟨rfl, hpc⟩ | ⟨rfl, hpc⟩ | ⟨status, rfl, hpc⟩ | ⟨status, rfl, hpc⟩
  · -- The test succeeds: the child has been through `sema_up`.
    have hst : (s.pair c).stage = .waiting := by
      simp [state.pair, thread.pair, state.stage_eq hpar, thread.stage_target ht, hpc, point.stage]
    simp only [step, hpc] at hs
    split_ifs at hs with hv
    · exact absurd hc ((h.ok c).block hst hv hpar).1
    · obtain rfl := Option.some.inj hs
      refine .inr ⟨?_, hc', ?_⟩
      · simp [state.at_point, point.target]
      · simp only [hpc, point.rank] at hn
        simp only [state.at_point, state.set_self, point.rank]
        omega
  · simp only [step, hpc] at hs
    obtain rfl := Option.some.inj hs
    refine .inr ⟨?_, hc', ?_⟩
    · simp [state.at_point, point.target]
    · simp only [hpc, point.rank] at hn
      simp only [state.at_point, state.set_self, point.rank]
      omega
  · simp only [step, hpc] at hs
    obtain rfl := Option.some.inj hs
    refine .inr ⟨?_, hc', ?_⟩
    · simp [point.target]
    · simp only [hpc, point.rank] at hn
      simp only [state.set_self, point.rank]
      omega
  · simp only [step, hpc] at hs
    obtain rfl := Option.some.inj hs
    exact .inl ⟨_, List.mem_cons_self, rfl, rfl⟩

/-- Every step of the parent brings it nearer to the return; no other step takes it back. -/
theorem nears_step {n : ℕ} (h : Inv s) (hs : step s e = some s') (hn : Nears s p c n) :
    Nears s' p c (if e.actor = some p then n - 1 else n) := by
  rcases hn with ⟨r, hr, hrp, hrc⟩ | ⟨ht, hc, hn⟩
  · exact .inl ⟨r, collected_step hs hr, hrp, hrc⟩
  · split_ifs with ha
    · exact nears_own h hs ha ht hc hn
    · have hpc : (s'.threads p).pc = (s.threads p).pc := by
        rcases (step_woken h hs ha).pc with hpc | hpc
        · exact hpc
        · rw [hpc]
          cases hp : (s.threads p).pc with
          | asleep d =>
              rw [hp] at ht
              obtain rfl : d = c := Option.some.inj ht
              exact absurd (h.asleep hp) hc
          | _ => simp_all [point.unblock, point.target]
      refine .inr ⟨?_, phase_step h hs hc, ?_⟩
      · rw [hpc]
        exact ht
      · rw [hpc]
        exact hn

theorem nears_run {n : ℕ} {es : List event} (h : Inv s) (hs : run es s = some s')
    (hn : Nears s p c n) : Nears s' p c (n - es.countP fun e => e.actor = some p) := by
  induction es generalizing s n with
  | nil =>
      obtain rfl := Option.some.inj hs
      exact hn
  | cons e es ih =>
      obtain ⟨s₁, he, hs⟩ := Option.bind_eq_some_iff.mp hs
      have hstep := ih (h.step he) hs (nears_step h he hn)
      rw [List.countP_cons]
      by_cases ha : e.actor = some p
      · simp only [ha, if_true, decide_true] at hstep ⊢
        rwa [Nat.sub_sub, Nat.add_comm 1] at hstep
      · simpa only [ha, if_false, decide_false, Bool.false_eq_true, Nat.add_zero] using hstep

/-- A place in `process_wait` at a child that has exited is not the sleep. -/
theorem Inv.rank_pos (h : Inv s) (ht : (s.threads p).pc.target = some c)
    (hc : (s.threads c).pc.phase ≠ .alive) : 0 < (s.threads p).pc.rank := by
  cases hp : (s.threads p).pc with
  | asleep d =>
      rw [hp] at ht
      obtain rfl : d = c := Option.some.inj ht
      exact absurd (h.asleep hp) hc
  | _ => simp_all [point.rank, point.target]

theorem Inv.get_my_child {tid : ℤ} (h : Inv s) (hp : (s.threads p).pc = .running) :
    get_my_child s p tid = some c ↔
      (c : ℤ) = tid ∧ (s.threads c).parent = some p ∧ c ∉ s.collected.map (·.child) := by
  have hstage : ∀ c, (s.threads c).parent = some p →
      (c ∈ (s.threads p).children_list ↔ c ∉ s.collected.map (·.child)) := by
    intro c hc
    rw [← h.done, state.stage_eq hc, thread.stage_of_target (by simp [hp, point.target])]
    split_ifs with hm <;> simp [hm]
  refine ⟨fun hg => ?_, fun ⟨htid, hc, hcol⟩ => ?_⟩
  · have hmem : c ∈ (s.threads p).children_list := List.mem_of_find?_eq_some hg
    have hc := h.tree.linked p c hmem
    exact ⟨by simpa using List.find?_some hg, hc, (hstage c hc).mp hmem⟩
  · have hmem := (hstage c hc).mpr hcol
    cases hg : wait_exit.get_my_child s p tid with
    | none => exact absurd htid (by simpa using List.find?_eq_none.mp hg c hmem)
    | some d =>
        have hd : (d : ℤ) = tid := by simpa using List.find?_some hg
        rw [Int.ofNat_inj.mp (hd.trans htid.symm)]

/-- **The hand-shake**, as the two sides can rely on it. -/
structure HandShake (s : state) : Prop where
  /-- The first wait for a child goes to its `wait_sema`. -/
  waits : ∀ (p c : ℕ), p < s.next_tid → (s.threads p).pc = .running
    → (s.threads c).parent = some p → c ∉ s.collected.map (·.child) → step s (.wait p c) =
      some ({ s with rax := Function.update s.rax p none }.at_point p (.waiting c))
  /-- Every other call returns at once. -/
  refuses : ∀ (p : ℕ) (tid : ℤ), p < s.next_tid → (s.threads p).pc = .running →
    (∀ c : ℕ, (c : ℤ) = tid → (s.threads c).parent = some p → c ∈ s.collected.map (·.child)) →
      step s (.wait p tid) = some (s.returns p (-1))
  /-- A call that has got a status has got that of the child. -/
  status : ∀ r ∈ s.collected, (s.threads r.child).parent = some r.parent
    ∧ (s.threads r.child).pc.phase ≠ .alive
    ∧ r.value = if (s.threads r.child).exit_status < 0 then -1 else (s.threads r.child).exit_status
  /-- Every child is waited for once. -/
  once : (s.collected.map (·.child)).Nodup
  /-- The sleep ends with the exit of the child. -/
  asleep : ∀ p c, (s.threads p).pc = .asleep c → (s.threads c).pc.phase = .alive
  /-- After the exit of the child the parent returns within four steps of its own, whatever
  the others do. -/
  returned : ∀ p c, (s.threads p).pc.target = some c → (s.threads c).pc.phase ≠ .alive →
    ∀ es s', run es s = some s' → 4 ≤ es.countP (fun e => e.actor = some p) →
      ∃ r ∈ s'.collected, r.parent = p ∧ r.child = c
  /-- A page is freed only after the parent has read the status and unlinked the child. -/
  freed : ∀ c, (s.threads c).pc = .freed → ∃ r ∈ s.collected, r.child = c
    ∧ c ∉ (s.threads r.parent).children_list ∧ (s.threads r.parent).pc.target ≠ some c
  /-- The parent never touches a freed page. -/
  safe : ∀ p c, c ∈ (s.threads p).children_list ∨ (s.threads p).pc.target = some c →
    (s.threads c).pc ≠ .freed

theorem thread.stage_done {th : thread} (h : th.stage c = .done) :
    th.pc.target ≠ some c ∧ c ∉ th.children_list := by
  unfold thread.stage at h
  split_ifs at h with ht hm
  · exact absurd h th.pc.stage_ne_done
  · exact ⟨ht, hm⟩

theorem Inv.freed (h : Inv s) (hc : (s.threads c).pc = .freed) : s.stage c = .done := by
  have hok := h.ok c
  have hph : (s.pair c).phase = .freed := by simp [state.pair, thread.pair, hc, point.phase]
  have hpast : (s.pair c).Past := .inr hph
  change (s.pair c).stage = .done
  unfold pair.Ok at hok
  split at hok
  · exact absurd hpast hok.1.past
  · exact absurd hpast hok.1.past
  · exact absurd hpast hok.1.past
  · exact absurd hpast hok.1.past
  · exact absurd hpast hok.1.past
  · exact absurd hpast hok.1.past
  · assumption

/-- What the parent can still reach is not through. -/
theorem Inv.safe (h : Inv s)
    (hc : c ∈ (s.threads p).children_list ∨ (s.threads p).pc.target = some c) :
    (s.threads c).pc ≠ .freed := by
  intro hf
  have hpar : (s.threads c).parent = some p := by
    rcases hc with hc | hc
    · exact h.tree.linked p c hc
    · exact h.tree.target p c hc
  have hdone := h.freed hf
  rw [state.stage_eq hpar] at hdone
  obtain ⟨ht, hm⟩ := thread.stage_done hdone
  exact hc.elim hm ht

theorem Inv.handshake (h : Inv s) : HandShake s := by
  refine ⟨fun p c hlt hp hc hcol => ?_, fun p tid hlt hp hall => ?_, fun r hr => ?_, h.once,
    fun p c hpc => h.asleep hpc, fun p c ht hc es s' hs hcount => ?_, fun c hc => ?_,
    fun p c hc => h.safe hc⟩
  · have hg := (h.get_my_child hp).mpr ⟨Eq.refl (c : ℤ), hc, hcol⟩
    have hne : (s.threads p).children_list ≠ [] :=
      List.ne_nil_of_mem (List.mem_of_find?_eq_some hg)
    simp only [wait_exit.step, hlt, hp, and_self, if_true, if_neg hne, hg]
  · have hg : wait_exit.get_my_child s p tid = none := by
      rw [Option.eq_none_iff_forall_ne_some]
      intro c hg
      obtain ⟨htid, hc, hcol⟩ := (h.get_my_child hp).mp hg
      exact hcol (hall c htid hc)
    simp only [wait_exit.step, hlt, hp, and_self, if_true, hg, ite_self]
  · obtain ⟨hpar, hval⟩ := h.entry r hr
    have hdone := (h.done r.child).mpr (List.mem_map_of_mem hr)
    have hok := h.ok r.child
    refine ⟨hpar, ?_, hval⟩
    have hst : (s.pair r.child).stage = .done := hdone
    rw [pair.Ok, hst] at hok
    exact hok.1
  · rcases nears_run h hs (.inr ⟨ht, hc,
      (by cases (s.threads p).pc <;> simp [point.rank] : _ ≤ 4)⟩) with
      hr | ⟨ht', hc', hrank⟩
    · exact hr
    · have hpos := (h.run hs).rank_pos ht' hc'
      omega
  · have hdone := h.freed hc
    obtain ⟨r, hr, rfl⟩ := List.mem_map.mp ((h.done c).mp hdone)
    rw [state.stage_eq (h.entry r hr).1] at hdone
    obtain ⟨ht, hm⟩ := thread.stage_done hdone
    exact ⟨r, hr, rfl, hm, ht⟩

/-- **Any parents, any children, any order of their steps.** -/
theorem handshake_along {priority : ℕ → ℤ} {es : List event}
    (hrun : run es (boot priority) = some s) : HandShake s :=
  ((Inv.boot priority).run hrun).handshake

end Handshake

/-- Two children, the second of which exits first, and the parent sleeps for the first. -/
def two_children : List event :=
  [.create 0, .create 0, .wait 0 1, .down_wait 0, .exit 2 (some 7), .up_wait 2, .down_free 2,
    .exit 1 (some (-5)), .up_wait 1, .down_free 1, .down_wait 0, .read 0, .unlink 0, .up_free 0,
    .down_free 1, .free 1, .wait 0 1, .wait 0 2, .down_wait 0, .read 0, .unlink 0, .up_free 0]

theorem two_children_handshake : ∃ s, run two_children (boot fun _ => 31) = some s
    ∧ s.collected = [⟨0, 2, 7⟩, ⟨0, 1, -1⟩] ∧ (s.threads 1).pc = .freed ∧ HandShake s := by
  obtain ⟨s, hs⟩ : ∃ s, run two_children (boot fun _ => 31) = some s :=
    Option.isSome_iff_exists.mp (by decide +kernel)
  refine ⟨s, hs, ?_, ?_, handshake_along hs⟩
  · have hcol : (run two_children (boot fun _ => 31)).map (·.collected) = some [⟨0, 2, 7⟩,
      ⟨0, 1, -1⟩] := by
      decide +kernel
    rw [hs] at hcol
    exact Option.some.inj hcol
  · have hpc : (run two_children (boot fun _ => 31)).map (fun s => (s.threads 1).pc)
      = some .freed := by
      decide +kernel
    rw [hs] at hpc
    exact Option.some.inj hpc

end Pintos.wait_exit
