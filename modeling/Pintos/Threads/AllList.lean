/-
`threads/thread.c`: the life of a thread, from its page to its page.

A `struct thread` lies in a page of its own, got by `thread_create` and returned
by `do_schedule`, some time after the thread has died. `all_list` links the
`all_elem` fields of the threads; the timer walks it for the MLFQS scheduler, and
`init_thread` appends to it. The links are modelled as pointers: a store through
`tail.prev` writes into the page of the last thread, and a page that was returned
must not be touched.

Threads are named by their page. The page of the initial thread is not from the
pool. The rest of a thread's state (locks, donations, its process) is not here: a
lock operation is what it does to threads, a change of priorities, a `thread_block`
or a `thread_unblock`, and the `compare_cur_next_priority` of `sema_up` and
`lock_release`, which may yield. `thread_create` takes two locks on its way, those
of the page pool and of `allocate_tid`, so it is three steps, between which other
threads run.
-/
import Pintos.Lib.DList
import Pintos.Lib.Word
import Pintos.Threads.Mmu
import Pintos.Threads.Synch

set_option autoImplicit false

namespace Pintos.all_list

open DList

/-! ## `threads/fixed-point.c` -/

/-- `F`. -/
def F : ℤ := 2 ^ 14

/-- `int_to_fp`. -/
def int_to_fp (n : ℤ) : ℤ := i32 (n * F)

/-- `fp_to_int_round`. -/
def fp_to_int_round (x : ℤ) : ℤ :=
  if 0 ≤ x then (i32 (x + F / 2)).tdiv F else (i32 (x - F / 2)).tdiv F

/-- `add_fp`. -/
def add_fp (x y : ℤ) : ℤ := i32 (x + y)

/-- `add_fp_int`. -/
def add_fp_int (x n : ℤ) : ℤ := i32 (x + i32 (n * F))

/-- `mul_fp`. -/
def mul_fp (x y : ℤ) : ℤ := i32 ((x * y).tdiv F)

/-- `mul_fp_int`. -/
def mul_fp_int (x n : ℤ) : ℤ := i32 (x * n)

/-- `div_fp`; the processor traps on a zero. -/
def div_fp (x y : ℤ) : Outcome ℤ := if y = 0 then .panic else .ok (i32 ((x * F).tdiv y))

/-- `div_fp_int` by a constant. -/
def div_fp_int (x n : ℤ) : ℤ := x.tdiv n

/-! ## State -/

/-- `enum thread_status`. -/
inductive status
  | THREAD_RUNNING
  | THREAD_READY
  | THREAD_BLOCKED
  | THREAD_DYING
  deriving DecidableEq, Repr

/-- `struct thread`. The two links are `all_elem`; a null pointer is none. -/
structure thread where
  status : status
  priority : ℤ
  nice : ℤ
  recent_cpu : ℤ
  prev : Option (Ref ℕ)
  next : Option (Ref ℕ)
  deriving DecidableEq, Repr

/-- The threads of the kernel. -/
structure kernel where
  /-- The pages that hold a thread. -/
  thread : ℕ → Option thread
  kernel_pool : mmu.pool
  /-- `all_list.head.next`. -/
  head_next : Ref ℕ
  /-- `all_list.tail.prev`. -/
  tail_prev : Ref ℕ
  ready_list : List ℕ
  destruction_req : List ℕ
  /-- `running_thread ()`. -/
  current : ℕ
  initial_thread : ℕ
  idle_thread : Option ℕ
  load_avg : ℤ
  thread_mlfqs : Bool
  /-- The local variable of `thread_create`: the page that a thread has got, and has not set up. -/
  creating : ℕ → Option ℕ

namespace kernel

/-- Follow a pointer to a thread. -/
def get_thread (s : kernel) (t : ℕ) : Outcome all_list.thread :=
  match s.thread t with
  | some th => .ok th
  | none => .undefined

/-- Store into a thread. -/
@[simps] def set_thread (s : kernel) (t : ℕ) (th : all_list.thread) : kernel :=
  { s with thread := Function.update s.thread t (some th) }

/-- The priority `compare_priority` reads. -/
def priority (s : kernel) (t : ℕ) : ℤ := ((s.thread t).map thread.priority).getD 0

end kernel

/-- `compare_priority`. -/
def compare_priority (s : kernel) (a b : ℕ) : Prop := s.priority a > s.priority b

instance (s : kernel) : DecidableRel (compare_priority s) := fun _ _ =>
  inferInstanceAs (Decidable (_ > _))

/-! ## `all_list` -/

/-- `p->next = e`. -/
def set_next (s : kernel) (p e : Ref ℕ) : Outcome kernel :=
  match p with
  | .head => .ok { s with head_next := e }
  | .tail => .undefined
  | .elem t => do
      let th ← s.get_thread t
      return s.set_thread t { th with next := some e }

/-- `list_push_back (&all_list, &t->all_elem)`. -/
def list_push_back (s : kernel) (t : ℕ) : Outcome kernel := do
  let th ← s.get_thread t
  let s := s.set_thread t { th with prev := some s.tail_prev, next := some .tail }
  let s ← set_next s s.tail_prev (.elem t)
  return { s with tail_prev := .elem t }

/-- `list_next`, of an element. -/
def list_next (th : thread) : Outcome (Ref ℕ) :=
  match th.prev, th.next with
  | some _, some e => .ok e
  | _, _ => .panic

/-- The loop of `update_recent_cpu_all` and `update_all_priority`, from `e` on: the
dying threads and the idle thread are left out. -/
def all_list_loop (f : thread → Outcome thread) : ℕ → kernel → Ref ℕ → Outcome kernel
  | _, s, .tail => .ok s
  | 0, _, _ => .diverge
  | _ + 1, _, .head => .undefined
  | fuel + 1, s, .elem t => do
      let th ← s.get_thread t
      let th' ← if th.status = .THREAD_DYING ∨ s.idle_thread = some t then .ok th else f th
      let e ← list_next th'
      all_list_loop f fuel (s.set_thread t th') e

/-- The loop over the whole list. There are no more threads than pages of the pool and
the initial thread; a longer walk has come round. -/
def for_all_list (s : kernel) (f : thread → Outcome thread) : Outcome kernel :=
  all_list_loop f (s.kernel_pool.page_cnt + 1) s s.head_next

/-- The body of `update_recent_cpu_all`. -/
def decayed (load_avg : ℤ) (th : thread) : Outcome thread := do
  let coeff ← div_fp (mul_fp_int load_avg 2) (add_fp_int (mul_fp_int load_avg 2) 1)
  return { th with recent_cpu := add_fp (mul_fp coeff th.recent_cpu) (int_to_fp th.nice) }

/-- `update_recent_cpu_all`. -/
def update_recent_cpu_all (s : kernel) : Outcome kernel := for_all_list s (decayed s.load_avg)

/-- `update_priority` of a thread that is not the idle thread. -/
def with_priority (th : thread) : thread :=
  let new_priority := i32 (i32 (PRI_MAX - fp_to_int_round (div_fp_int th.recent_cpu 4))
    - i32 (th.nice * 2))
  { th with priority := if new_priority > PRI_MAX then PRI_MAX
      else if new_priority < PRI_MIN then PRI_MIN else new_priority }

/-- `update_all_priority`, in the timer interrupt: `compare_cur_next_priority` sorts the
ready list, and leaves the yield for later. -/
def update_all_priority (s : kernel) : Outcome kernel := do
  let s ← for_all_list s fun th => .ok (with_priority th)
  return { s with ready_list := list_sort (compare_priority s) s.ready_list }

/-- `update_load_avg`. -/
def update_load_avg (s : kernel) : kernel :=
  let ready_threads : ℤ := s.ready_list.length + if s.idle_thread = some s.current then 0 else 1
  let term1 := div_fp_int (mul_fp_int s.load_avg 59) 60
  let term2 := mul_fp_int (div_fp_int (int_to_fp 1) 60) ready_threads
  { s with load_avg := add_fp term1 term2 }

/-! ## Scheduling -/

/-- The loop of `do_schedule` that returns the pages of dead threads. -/
def free_victims : List ℕ → kernel → Outcome kernel
  | [], s => .ok s
  | victim :: rest, s => do
      Outcome.assert (mmu.page_from_pool s.kernel_pool victim = true)
      Outcome.assert (s.kernel_pool.used_map victim = true)
      free_victims rest { s with
        thread := Function.update s.thread victim none
        kernel_pool := s.kernel_pool.mark victim false }

/-- `next_thread_to_run`. -/
def next_thread_to_run (s : kernel) : Option ℕ × kernel :=
  match s.ready_list with
  | [] => (s.idle_thread, s)
  | next :: rest => (some next, { s with ready_list := rest })

/-- The end of `schedule`: a dead thread is queued for destruction. -/
def switch_to (s : kernel) (next : ℕ) : Outcome kernel := do
  let th ← s.get_thread next
  let s := s.set_thread next { th with status := .THREAD_RUNNING }
  if s.current = next then return s
  else
    let curr ← s.get_thread s.current
    if curr.status = .THREAD_DYING ∧ s.current ≠ s.initial_thread then
      return { s with
        destruction_req := list_insert_ordered (compare_priority s) s.destruction_req s.current
        current := next }
    else return { s with current := next }

/-- `schedule`. -/
def schedule (s : kernel) : Outcome kernel :=
  match next_thread_to_run s with
  | (none, _) => .panic
  | (some next, s) => do
      let curr ← s.get_thread s.current
      Outcome.assert (curr.status ≠ .THREAD_RUNNING)
      switch_to s next

/-- The status of the running thread is stored. -/
def set_status (s : kernel) (st : status) : Outcome kernel := do
  let th ← s.get_thread s.current
  return s.set_thread s.current { th with status := st }

/-- `do_schedule`. -/
def do_schedule (s : kernel) (st : status) : Outcome kernel := do
  let s ← free_victims s.destruction_req { s with destruction_req := [] }
  let s ← set_status s st
  schedule s

/-- `thread_block`. -/
def thread_block (s : kernel) : Outcome kernel := do
  let s ← set_status s .THREAD_BLOCKED
  schedule s

/-- `thread_unblock`. -/
def thread_unblock (s : kernel) (t : ℕ) : Outcome kernel := do
  let th ← s.get_thread t
  Outcome.assert (th.status = .THREAD_BLOCKED)
  let s := { s with ready_list := list_insert_ordered (compare_priority s) s.ready_list t }
  return s.set_thread t { th with status := .THREAD_READY }

/-- `thread_yield`. -/
def thread_yield (s : kernel) : Outcome kernel :=
  if s.idle_thread = some s.current then do_schedule s .THREAD_READY
  else do_schedule { s with
    ready_list := list_insert_ordered (compare_priority s) s.ready_list s.current } .THREAD_READY

/-- `thread_exit` behind `process_exit`. -/
def thread_exit (s : kernel) : Outcome kernel := do_schedule s .THREAD_DYING

/-- What `init_thread` stores in a page: with MLFQS, a thread takes over from `curr`. -/
def new_thread (thread_mlfqs : Bool) (curr : thread) (priority : ℤ) : thread where
  status := .THREAD_BLOCKED
  priority := priority
  nice := if thread_mlfqs then curr.nice else 0
  recent_cpu := if thread_mlfqs then curr.recent_cpu else 0
  prev := none
  next := none

/-- `init_thread` of a page other than the initial thread's. -/
def init_thread (s : kernel) (t : ℕ) (priority : ℤ) : Outcome kernel := do
  Outcome.assert (PRI_MIN ≤ priority ∧ priority ≤ PRI_MAX)
  let curr ← s.get_thread s.current
  list_push_back (s.set_thread t (new_thread s.thread_mlfqs curr priority)) t

/-- `thread_create`, up to `palloc_get_page`. -/
def thread_create_page (s : kernel) : kernel :=
  match s.kernel_pool.scan with
  | none => s
  | some t => { s with
      kernel_pool := s.kernel_pool.mark t true
      creating := Function.update s.creating s.current (some t) }

/-- `thread_create`, up to `update_priority`. -/
def thread_create_init (s : kernel) (priority : ℤ) : Outcome kernel :=
  match s.creating s.current with
  | none => .panic
  | some t => do
      let s ← init_thread { s with creating := Function.update s.creating s.current none } t priority
      let th ← s.get_thread t
      return if s.thread_mlfqs then s.set_thread t (with_priority th) else s

/-- `thread_create`, behind `allocate_tid`. -/
def thread_create_start (s : kernel) (t : ℕ) : Outcome kernel := do
  let s ← thread_unblock s t
  if compare_priority s t s.current then thread_yield s else return s

/-- `compare_cur_next_priority`, outside an interrupt. -/
def compare_cur_next_priority (s : kernel) : Outcome kernel :=
  let ready_list := list_sort (compare_priority s) s.ready_list
  match ready_list with
  | [] => .ok s
  | next :: _ =>
      if compare_priority s next s.current then thread_yield { s with ready_list := ready_list }
      else .ok { s with ready_list := ready_list }

/-- Donation, `recalc_priority` or `thread_set_priority` store a priority. -/
def set_priority (s : kernel) (t : ℕ) (priority : ℤ) : Outcome kernel := do
  let th ← s.get_thread t
  return s.set_thread t { th with priority := priority }

/-! ## Runs -/

/-- What can happen next. -/
inductive action
  | thread_create_page
  | thread_create_init (priority : ℤ)
  | thread_create_start (t : ℕ)
  | compare_cur_next_priority
  | set_priority (t : ℕ) (priority : ℤ)
  | thread_exit
  | thread_yield
  | thread_block
  | thread_unblock (t : ℕ)
  /-- The idle thread starts: `idle_thread = thread_current ()`. -/
  | idle
  | update_load_avg
  | update_recent_cpu_all
  | update_all_priority
  deriving DecidableEq, Repr

/-- One step. -/
def step (s : kernel) : action → Outcome kernel
  | .thread_create_page => .ok (thread_create_page s)
  | .thread_create_init priority => thread_create_init s priority
  | .thread_create_start t => thread_create_start s t
  | .compare_cur_next_priority => compare_cur_next_priority s
  | .set_priority t priority => set_priority s t priority
  | .thread_exit => thread_exit s
  | .thread_yield => thread_yield s
  | .thread_block => thread_block s
  | .thread_unblock t => thread_unblock s t
  | .idle => .ok { s with idle_thread := some s.current }
  | .update_load_avg => .ok (update_load_avg s)
  | .update_recent_cpu_all => update_recent_cpu_all s
  | .update_all_priority => update_all_priority s

/-- A sequence of steps. -/
def run : List action → kernel → Outcome kernel
  | [], s => .ok s
  | a :: as, s => do
      let s ← step s a
      run as s

/-- The links of `all_list`. -/
def links (s : kernel) : Links ℕ where
  next
    | .head => some s.head_next
    | .tail => none
    | .elem t => (s.thread t).bind thread.next
  prev
    | .head => none
    | .tail => some s.tail_prev
    | .elem t => (s.thread t).bind thread.prev

/-- `all_list` is the list of the threads that exist, each once. -/
def Lists (s : kernel) (l : List ℕ) : Prop :=
  Follows (links s) .head l ∧ l.Nodup ∧ ∀ t, (s.thread t).isSome = true ↔ t ∈ l

/-- The invariant. -/
structure Inv (s : kernel) (l : List ℕ) : Prop where
  lists : Lists s l
  pool : ∀ {t}, (s.thread t).isSome = true → t ≠ s.initial_thread →
    mmu.page_from_pool s.kernel_pool t = true ∧ s.kernel_pool.used_map t = true
  initial : mmu.page_from_pool s.kernel_pool s.initial_thread = false
  current : (s.thread s.current).isSome = true
  dying : ∀ v ∈ s.destruction_req, (s.thread v).isSome = true
  /-- A page that is not set up is taken, and there is no thread in it. -/
  creating : ∀ {c t}, s.creating c = some t → mmu.page_from_pool s.kernel_pool t = true
    ∧ s.kernel_pool.used_map t = true ∧ t ∉ l
  own : ∀ {c c' t}, s.creating c = some t → s.creating c' = some t → c = c'

/-- A step that leaves pages and links alone. -/
structure Keeps (s s' : kernel) : Prop where
  thread : ∀ t, (s'.thread t).map (fun th => (th.prev, th.next))
    = (s.thread t).map fun th => (th.prev, th.next)
  head_next : s'.head_next = s.head_next
  tail_prev : s'.tail_prev = s.tail_prev
  kernel_pool : s'.kernel_pool = s.kernel_pool
  initial_thread : s'.initial_thread = s.initial_thread
  creating : s'.creating = s.creating
  current : (s.thread s.current).isSome = true → (s.thread s'.current).isSome = true
  dying : (∀ v ∈ s.destruction_req, (s.thread v).isSome = true) →
    (s.thread s.current).isSome = true → ∀ v ∈ s'.destruction_req, (s.thread v).isSome = true

namespace Keeps

variable {s s' s₁ s₂ : kernel} {l : List ℕ}

theorem refl (s : kernel) : Keeps s s :=
  ⟨fun _ => rfl, rfl, rfl, rfl, rfl, rfl, fun h => h, fun h _ => h⟩

theorem isSome (h : Keeps s s') (t : ℕ) : (s'.thread t).isSome = (s.thread t).isSome := by
  have := congrArg Option.isSome (h.thread t)
  rwa [Option.isSome_map, Option.isSome_map] at this

theorem trans (h₁ : Keeps s s₁) (h₂ : Keeps s₁ s₂) : Keeps s s₂ where
  thread t := (h₂.thread t).trans (h₁.thread t)
  head_next := h₂.head_next.trans h₁.head_next
  tail_prev := h₂.tail_prev.trans h₁.tail_prev
  kernel_pool := h₂.kernel_pool.trans h₁.kernel_pool
  initial_thread := h₂.initial_thread.trans h₁.initial_thread
  creating := h₂.creating.trans h₁.creating
  current h := by
    rw [← h₁.isSome]
    apply h₂.current
    rw [h₁.isSome]
    exact h₁.current h
  dying hd hc v hv := by
    rw [← h₁.isSome]
    refine h₂.dying (fun w hw => ?_) ?_ v hv
    · rw [h₁.isSome]
      exact h₁.dying hd hc w hw
    · rw [h₁.isSome]
      exact h₁.current hc

theorem links_eq (h : Keeps s s') : links s' = links s := by
  have hfield : ∀ (g : all_list.thread → Option (Ref ℕ))
    (f : Option (Ref ℕ) × Option (Ref ℕ) → Option (Ref ℕ)),
      (∀ th, g th = f (th.prev, th.next)) → ∀ t, (s'.thread t).bind g = (s.thread t).bind g := by
    intro g f hg t
    have hmap := h.thread t
    cases h' : s'.thread t with
    | none =>
        rw [h'] at hmap
        cases hs : s.thread t with
        | none => rfl
        | some th =>
            rw [hs] at hmap
            cases hmap
    | some th' =>
        rw [h'] at hmap
        cases hs : s.thread t with
        | none =>
            rw [hs] at hmap
            cases hmap
        | some th =>
            rw [hs] at hmap
            show g th' = g th
            rw [hg, hg]
            exact congrArg f (Option.some.inj hmap)
  unfold links
  congr 1
  · funext r
    cases r with
    | head => exact congrArg some h.head_next
    | tail => rfl
    | elem t => exact hfield _ Prod.snd (fun _ => rfl) t
  · funext r
    cases r with
    | head => rfl
    | tail => exact congrArg some h.tail_prev
    | elem t => exact hfield _ Prod.fst (fun _ => rfl) t

theorem lists (h : Keeps s s') (hl : Lists s l) : Lists s' l := by
  obtain ⟨hfollows, hnd, hmem⟩ := hl
  refine ⟨by rw [h.links_eq]; exact hfollows, hnd, fun t => ?_⟩
  rw [h.isSome]
  exact hmem t

theorem inv (h : Keeps s s') (hi : Inv s l) : Inv s' l where
  lists := h.lists hi.lists
  pool {t} ht hne := by
    rw [h.isSome] at ht
    rw [h.initial_thread] at hne
    rw [h.kernel_pool]
    exact hi.pool ht hne
  initial := by
    rw [h.kernel_pool, h.initial_thread]
    exact hi.initial
  current := by
    rw [h.isSome]
    exact h.current hi.current
  dying v hv := by
    rw [h.isSome]
    exact h.dying hi.dying hi.current v hv
  creating {c t} ht := by
    rw [h.creating] at ht
    rw [h.kernel_pool]
    exact hi.creating ht
  own {c c' t} ht ht' := by
    rw [h.creating] at ht ht'
    exact hi.own ht ht'

/-- A store that does not touch `all_elem`. -/
theorem set_thread {t : ℕ} {th th' : all_list.thread} (hth : s.thread t = some th)
    (hlinks : (th'.prev, th'.next) = (th.prev, th.next)) : Keeps s (s.set_thread t th') := by
  refine ⟨fun u => ?_, rfl, rfl, rfl, rfl, rfl, fun h => h, fun h _ => h⟩
  rw [kernel.set_thread_thread]
  by_cases hu : u = t
  · subst hu
    rw [Function.update_self, hth]
    exact congrArg some hlinks
  · rw [Function.update_of_ne hu]

end Keeps

theorem get_thread_eq_ok {s : kernel} {t : ℕ} {th : thread} :
    s.get_thread t = .ok th ↔ s.thread t = some th := by
  unfold kernel.get_thread
  cases s.thread t with
  | none => simp
  | some x => simp

/-! ## Scheduling and the list -/

section Schedule

variable {s s' : kernel} {l : List ℕ} {st : status}

/-- A ready list in another order, and other numbers. -/
theorem Keeps.of_eq (hthread : s'.thread = s.thread) (hhead : s'.head_next = s.head_next)
    (htail : s'.tail_prev = s.tail_prev) (hpool : s'.kernel_pool = s.kernel_pool)
    (hinit : s'.initial_thread = s.initial_thread) (hcreating : s'.creating = s.creating)
    (hcur : s'.current = s.current) (hdying : s'.destruction_req = s.destruction_req) :
    Keeps s s' := by
  refine ⟨fun t => ?_, hhead, htail, hpool, hinit, hcreating, fun h => ?_, fun h _ => ?_⟩
  · rw [hthread]
  · rw [hcur]
    exact h
  · rw [hdying]
    exact h

theorem Keeps.ready_list (s : kernel) (r : List ℕ) : Keeps s { s with ready_list := r } :=
  .of_eq rfl rfl rfl rfl rfl rfl rfl rfl

end Schedule

/-! ## New threads -/

section Create

variable {s s' : kernel} {l : List ℕ} {t : ℕ} {priority : ℤ}

/-- What `init_thread` does to the kernel: `t` is a thread and the last in the list. -/
structure Joined (s : kernel) (t : ℕ) (s' : kernel) : Prop where
  appended : DList.Appended (links s) t (links s')
  new : (s'.thread t).isSome = true
  old : ∀ u, u ≠ t → (s'.thread u).isSome = (s.thread u).isSome
  kernel_pool : s'.kernel_pool = s.kernel_pool
  initial_thread : s'.initial_thread = s.initial_thread
  current : s'.current = s.current
  dying : s'.destruction_req = s.destruction_req
  creating : s'.creating = s.creating

/-- The stores of `list_push_back`, when the last place can be written to. -/
theorem list_push_back_stores (th : thread) (ht : s.tail_prev ≠ .elem t)
    (hlast : s.tail_prev = .head ∨ ∃ u thu, s.tail_prev = .elem u ∧ s.thread u = some thu) :
    ∃ s', list_push_back (s.set_thread t th) t = .ok s'
      ∧ s'.thread t = some { th with prev := some s.tail_prev, next := some .tail }
      ∧ (∀ x, x ≠ t → s'.thread x = if s.tail_prev = .elem x then
          (s.thread x).map fun e => { e with next := some (.elem t) } else s.thread x)
      ∧ s'.head_next = (if s.tail_prev = .head then .elem t else s.head_next)
      ∧ s'.tail_prev = .elem t ∧ s'.kernel_pool = s.kernel_pool
      ∧ s'.initial_thread = s.initial_thread ∧ s'.current = s.current
      ∧ s'.destruction_req = s.destruction_req ∧ s'.creating = s.creating := by
  have hget : (s.set_thread t th).get_thread t = .ok th := by
    rw [get_thread_eq_ok, kernel.set_thread_thread, Function.update_self]
  unfold list_push_back
  rw [hget, Outcome.ok_bind]
  rcases hlast with hhead | ⟨u, thu, helem, hthu⟩
  · simp only [kernel.set_thread_tail_prev, hhead, set_next, Outcome.ok_bind, Outcome.pure_eq]
    refine ⟨_, rfl, ?_, fun x hx => ?_, ?_, rfl, rfl, rfl, rfl, rfl, rfl⟩
    · exact Function.update_self _ _ _
    · rw [if_neg (by simp), kernel.set_thread_thread, Function.update_of_ne hx,
        kernel.set_thread_thread, Function.update_of_ne hx]
    · rw [if_pos trivial]
  · have hut : u ≠ t := fun heq => ht (by rw [helem, heq])
    have hgetu : ((s.set_thread t th).set_thread t
        { th with prev := some (.elem u), next := some .tail }).get_thread u = .ok thu := by
      rw [get_thread_eq_ok, kernel.set_thread_thread, Function.update_of_ne hut,
        kernel.set_thread_thread, Function.update_of_ne hut, hthu]
    simp only [kernel.set_thread_tail_prev, helem, set_next, hgetu, Outcome.ok_bind,
      Outcome.pure_eq]
    refine ⟨_, rfl, ?_, fun x hx => ?_, ?_, rfl, rfl, rfl, rfl, rfl, rfl⟩
    · rw [kernel.set_thread_thread, Function.update_of_ne hut.symm, kernel.set_thread_thread,
        Function.update_self]
    · rw [kernel.set_thread_thread]
      by_cases hxu : x = u
      · rw [hxu, Function.update_self, if_pos rfl, hthu]
        rfl
      · rw [Function.update_of_ne hxu, kernel.set_thread_thread, Function.update_of_ne hx,
          kernel.set_thread_thread, Function.update_of_ne hx, if_neg]
        exact fun heq => hxu (Ref.elem.inj heq).symm
    · rw [if_neg (by simp)]
      rfl

theorem list_push_back_joined (hl : Lists s l) (ht : t ∉ l) (th : thread) :
    ∃ s', list_push_back (s.set_thread t th) t = .ok s' ∧ Joined s t s' := by
  obtain ⟨hfollows, hnd, hmem⟩ := hl
  have hlast : s.tail_prev = last .head l := Option.some.inj hfollows.prev_tail
  have hwhere : s.tail_prev = .head ∨ ∃ u thu, s.tail_prev = .elem u ∧ s.thread u = some thu := by
    rcases last_mem .head l with hhead | ⟨u, hu, helem⟩
    · exact .inl (hlast.trans hhead)
    · obtain ⟨thu, hthu⟩ := Option.isSome_iff_exists.mp ((hmem u).mpr hu)
      exact .inr ⟨u, thu, hlast.trans helem, hthu⟩
  have hne : s.tail_prev ≠ .elem t := by
    rw [hlast]
    rcases last_mem .head l with hhead | ⟨u, hu, helem⟩
    · rw [hhead]
      simp
    · rw [helem]
      exact fun heq => ht (Ref.elem.inj heq ▸ hu)
  obtain ⟨s', hrun, hnew, hold, hhead, htail, hpool, hinit, hcur, hdying, hcreating⟩ :=
    list_push_back_stores th hne hwhere
  refine ⟨s', hrun, ⟨⟨s.tail_prev, rfl, ?_, ?_, fun r hr hrt => ?_⟩, ?_, ?_, fun r hr hrt => ?_⟩,
    by rw [hnew]; rfl, fun u hu => ?_, hpool, hinit, hcur, hdying, hcreating⟩
  · -- the last place points to `t`
    rcases hwhere with hhd | ⟨u, thu, helem, hthu⟩
    · rw [hhd]
      show some s'.head_next = _
      rw [hhead, if_pos hhd]
    · have hut : u ≠ t := fun heq => hne (by rw [helem, heq])
      rw [helem]
      show (s'.thread u).bind thread.next = _
      rw [hold u hut, if_pos helem, hthu]
      rfl
  · show (s'.thread t).bind thread.prev = _
    rw [hnew]
    rfl
  · cases r with
    | head =>
        show some s'.head_next = some s.head_next
        rw [hhead, if_neg (Ne.symm hr)]
    | tail => rfl
    | elem x =>
        have hxt : x ≠ t := fun heq => hrt (by rw [heq])
        show (s'.thread x).bind thread.next = (s.thread x).bind thread.next
        rw [hold x hxt, if_neg (Ne.symm hr)]
  · show (s'.thread t).bind thread.next = _
    rw [hnew]
    rfl
  · exact congrArg some htail
  · cases r with
    | head => rfl
    | tail => exact absurd rfl hrt
    | elem x =>
        have hxt : x ≠ t := fun heq => hr (by rw [heq])
        show (s'.thread x).bind thread.prev = (s.thread x).bind thread.prev
        rw [hold x hxt]
        split_ifs
        · cases s.thread x with
          | none => rfl
          | some e => rfl
        · rfl
  · rw [hold u hu]
    split_ifs
    · cases s.thread u with
      | none => rfl
      | some e => rfl
    · rfl

theorem Joined.isSome (h : Joined s t s') (u : ℕ) :
    (s'.thread u).isSome = true ↔ u = t ∨ (s.thread u).isSome = true := by
  by_cases hu : u = t
  · rw [hu]
    exact iff_of_true h.new (.inl rfl)
  · rw [h.old u hu]
    simp [hu]

theorem Joined.lists (h : Joined s t s') (hl : Lists s l) (ht : t ∉ l) :
    Lists s' (l ++ [t]) := by
  obtain ⟨hfollows, hnd, hmem⟩ := hl
  refine ⟨hfollows.append h.appended hnd ⟨by simp, by simp⟩ ht, ?_, fun u => ?_⟩
  · rw [List.nodup_append]
    refine ⟨hnd, List.nodup_singleton t, ?_⟩
    rintro a ha b hb rfl
    rw [List.mem_singleton.mp hb] at ha
    exact ht ha
  · rw [h.isSome, hmem, List.mem_append, List.mem_singleton, or_comm]

/-- What a store into the local variables leaves. -/
theorem update_cases {f : ℕ → Option ℕ} {a c : ℕ} {x : Option ℕ} {u : ℕ}
    (h : Function.update f a x c = some u) : c = a ∧ x = some u ∨ c ≠ a ∧ f c = some u := by
  by_cases hc : c = a
  · rw [hc, Function.update_self] at h
    exact .inl ⟨hc, h⟩
  · rw [Function.update_of_ne hc] at h
    exact .inr ⟨hc, h⟩

/-- **`init_thread`** in the page that the thread has got appends the thread. -/
theorem init_thread_inv (hi : Inv s l) (hcreating : s.creating s.current = some t)
    (hpri : PRI_MIN ≤ priority ∧ priority ≤ PRI_MAX) :
    ∃ s', init_thread { s with creating := Function.update s.creating s.current none } t
      priority = .ok s' ∧ Inv s' (l ++ [t]) := by
  obtain ⟨hin, hused, ht⟩ := hi.creating hcreating
  obtain ⟨curr, hcurr⟩ := Option.isSome_iff_exists.mp hi.current
  have hlists : Lists { s with creating := Function.update s.creating s.current none } l := hi.lists
  obtain ⟨s', hrun, hj⟩ := list_push_back_joined hlists ht (new_thread s.thread_mlfqs curr priority)
  have hget : ({ s with creating := Function.update s.creating s.current none } : kernel).get_thread
      s.current = .ok curr := get_thread_eq_ok.mpr hcurr
  -- the other pages that are not set up are other pages
  have hother : ∀ {c u}, s'.creating c = some u → c ≠ s.current
      ∧ s.creating c = some u ∧ u ≠ t := by
    intro c u hc
    rw [hj.creating] at hc
    rcases update_cases hc with ⟨-, hu⟩ | ⟨hne, hc⟩
    · cases hu
    · refine ⟨hne, hc, ?_⟩
      rintro rfl
      exact hne (hi.own hc hcreating)
  refine ⟨s', ?_, hj.lists hlists ht, fun {u} hu hui => ?_, ?_, ?_, fun v hv => ?_,
    fun {c u} hc => ?_, fun {c c' u} hc hc' => hi.own (hother hc).2.1 (hother hc').2.1⟩
  · unfold init_thread
    rw [Outcome.assert_pos hpri, Outcome.ok_bind, hget, Outcome.ok_bind]
    exact hrun
  · rw [hj.kernel_pool]
    rw [hj.initial_thread] at hui
    by_cases hut : u = t
    · rw [hut]
      exact ⟨hin, hused⟩
    · exact hi.pool (((hj.isSome u).mp hu).resolve_left hut) hui
  · rw [hj.kernel_pool, hj.initial_thread]
    exact hi.initial
  · rw [hj.current]
    exact (hj.isSome _).mpr (.inr hi.current)
  · rw [hj.dying] at hv
    exact (hj.isSome v).mpr (.inr (hi.dying v hv))
  · obtain ⟨-, hc, hut⟩ := hother hc
    obtain ⟨hin', hused', hul⟩ := hi.creating hc
    rw [hj.kernel_pool]
    refine ⟨hin', hused', fun hmem => ?_⟩
    rcases List.mem_append.mp hmem with hmem | hmem
    · exact hul hmem
    · exact hut (List.mem_singleton.mp hmem)

end Create

/-! ## The loops -/

section Loop

variable {s : kernel} {l : List ℕ} {f : thread → Outcome thread}

/-- What the two loops do with a thread stays in the thread. -/
structure InPlace (f : thread → Outcome thread) : Prop where
  links : ∀ {th th'}, f th = .ok th' → (th'.prev, th'.next) = (th.prev, th.next)
  safe : ∀ th, f th ≠ .undefined ∧ f th ≠ .diverge

theorem all_list_loop_safe (hf : InPlace f) {fuel : ℕ} {p e : Ref ℕ}
    (he : (links s).next p = some e) (hl : Follows (links s) p l) (hfuel : l.length ≤ fuel) :
    all_list_loop f fuel s e ≠ .undefined ∧ all_list_loop f fuel s e ≠ .diverge := by
  induction l generalizing s p e fuel with
  | nil =>
      obtain rfl : e = .tail := Option.some.inj (he.symm.trans hl.1)
      unfold all_list_loop
      simp
  | cons t l ih =>
      obtain ⟨hnext, hprev, hrest⟩ := hl
      obtain rfl : e = .elem t := Option.some.inj (he.symm.trans hnext)
      obtain ⟨n, rfl⟩ : ∃ n, fuel = n + 1 := ⟨fuel - 1, by rw [List.length_cons] at hfuel; omega⟩
      rw [List.length_cons] at hfuel
      -- the page of `t` is there, because `t` is linked
      change (s.thread t).bind thread.prev = some p at hprev
      obtain ⟨th, hth, hthp⟩ := Option.bind_eq_some_iff.mp hprev
      unfold all_list_loop
      rw [get_thread_eq_ok.mpr hth, Outcome.ok_bind]
      have hgo : ∀ th', (th'.prev, th'.next) = (th.prev, th.next) →
          (list_next th' >>= fun e => all_list_loop f n (s.set_thread t th') e) ≠ .undefined
          ∧ (list_next th' >>= fun e => all_list_loop f n (s.set_thread t th') e) ≠ .diverge := by
        intro th' hlinks
        have hk : Keeps s (s.set_thread t th') := .set_thread hth hlinks
        have hp' : th'.prev = some p := (congrArg Prod.fst hlinks).trans hthp
        cases hn : th'.next with
        | none => simp [list_next, hp', hn]
        | some e' =>
            have he' : (links (s.set_thread t th')).next (.elem t) = some e' := by
              show (Function.update s.thread t (some th') t).bind thread.next = _
              rw [Function.update_self]
              exact hn
            have hrest' : Follows (links (s.set_thread t th')) (.elem t) l := by
              rw [hk.links_eq]
              exact hrest
            simp only [list_next, hp', hn, Outcome.ok_bind]
            exact ih he' hrest' (by omega)
      by_cases hskip : th.status = .THREAD_DYING ∨ s.idle_thread = some t
      · simp only [if_pos hskip, Outcome.ok_bind]
        exact hgo th rfl
      · simp only [if_neg hskip]
        cases hfth : f th with
        | ok th' =>
            rw [Outcome.ok_bind]
            exact hgo th' (hf.links hfth)
        | panic => simp
        | undefined => exact absurd hfth (hf.safe th).1
        | diverge => exact absurd hfth (hf.safe th).2

theorem Inv.length_le (hi : Inv s l) : l.length ≤ s.kernel_pool.page_cnt + 1 := by
  have hsub : l ⊆ s.initial_thread :: List.range' s.kernel_pool.base s.kernel_pool.page_cnt := by
    intro t ht
    rw [List.mem_cons, List.mem_range'_1]
    by_cases hne : t = s.initial_thread
    · exact .inl hne
    · right
      have hin := (hi.pool ((hi.lists.2.2 t).mpr ht) hne).1
      unfold mmu.page_from_pool at hin
      simpa using hin
  have hle := (List.subperm_of_subset hi.lists.2.1 hsub).length_le
  rw [List.length_cons, List.length_range'] at hle
  exact hle

theorem Inv.for_all_list_safe (hi : Inv s l) (hf : InPlace f) :
    for_all_list s f ≠ .undefined ∧ for_all_list s f ≠ .diverge :=
  all_list_loop_safe hf rfl hi.lists.1 hi.length_le

theorem decayed_inPlace (load_avg : ℤ) : InPlace (decayed load_avg) := by
  have hdiv : ∀ x y, div_fp x y ≠ .undefined ∧ div_fp x y ≠ .diverge := by
    intro x y
    unfold div_fp
    split_ifs
    · simp
    · simp
  constructor
  · intro th th' h
    obtain ⟨coeff, -, hret⟩ := Outcome.bind_eq_ok.mp h
    obtain rfl := Outcome.ok.inj hret
    rfl
  · intro th
    unfold decayed
    obtain ⟨h₁, h₂⟩ := hdiv (mul_fp_int load_avg 2) (add_fp_int (mul_fp_int load_avg 2) 1)
    cases hd : div_fp (mul_fp_int load_avg 2) (add_fp_int (mul_fp_int load_avg 2) 1) with
    | ok c => simp
    | panic => simp
    | undefined => exact absurd hd h₁
    | diverge => exact absurd hd h₂

theorem with_priority_inPlace : InPlace fun th => .ok (with_priority th) := by
  constructor
  · intro th th' h
    obtain rfl := Outcome.ok.inj h
    rfl
  · intro th
    simp

end Loop

/-! ## Every run -/

/-- The walks over `all_list` and the insertion touch no page that was returned. -/
structure Touches (s : kernel) : Prop where
  recent_cpu : update_recent_cpu_all s ≠ .undefined ∧ update_recent_cpu_all s ≠ .diverge
  priority : update_all_priority s ≠ .undefined ∧ update_all_priority s ≠ .diverge
  insertion : ∀ p, thread_create_init s p ≠ .undefined

/-- `all_list` is exact, and its users are safe. -/
def Exact (s : kernel) : Prop := (∃ l, Lists s l) ∧ Touches s

/-- The step does not return the page of a dead thread. -/
def Quiet (s : kernel) : action → Prop
  | .thread_create_start t => s.destruction_req = [] ∨ ¬ compare_priority s t s.current
  | .compare_cur_next_priority =>
      s.destruction_req = [] ∨ ∀ t ∈ s.ready_list, ¬ compare_priority s t s.current
  | .thread_exit => s.destruction_req = []
  | .thread_yield => s.destruction_req = []
  | _ => True

section Runs

variable {s s' : kernel} {l : List ℕ}

theorem Inv.touches (hi : Inv s l) : Touches s := by
  refine ⟨hi.for_all_list_safe (decayed_inPlace _), ?_, fun p => ?_⟩
  · obtain ⟨h₁, h₂⟩ := hi.for_all_list_safe with_priority_inPlace
    unfold update_all_priority
    cases hrun : for_all_list s fun th => .ok (with_priority th) with
    | ok s₁ => simp
    | panic => simp
    | undefined => exact absurd hrun h₁
    | diverge => exact absurd hrun h₂
  · unfold thread_create_init
    cases hcreating : s.creating s.current with
    | none => simp
    | some t =>
        by_cases hpri : PRI_MIN ≤ p ∧ p ≤ PRI_MAX
        · obtain ⟨s₁, hinit, hi₁⟩ := init_thread_inv hi hcreating hpri
          have ht : (s₁.thread t).isSome = true := (hi₁.lists.2.2 t).mpr (by simp)
          obtain ⟨th, hth⟩ := Option.isSome_iff_exists.mp ht
          simp only [hinit, Outcome.ok_bind, get_thread_eq_ok.mpr hth]
          simp
        · unfold init_thread
          simp only [Outcome.assert_neg hpri]
          simp

theorem Inv.exact (hi : Inv s l) : Exact s := ⟨⟨l, hi.lists⟩, hi.touches⟩

/-- `thread_create`, from the call to the end. -/
def create (t : ℕ) (priority : ℤ) : List action :=
  [.thread_create_page, .compare_cur_next_priority, .thread_create_init priority,
    .compare_cur_next_priority, .thread_create_start t]

end Runs

end Pintos.all_list
