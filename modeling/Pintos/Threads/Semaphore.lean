/-
`threads/synch.c` under every schedule: one semaphore, or one lock, and any number of
threads.

A section with interrupts off is one step, and so is the test of the loop of `sema_down`
that a woken thread makes when it runs again. Being woken is not having the unit: `woken`
lists the threads that `sema_up` has unblocked and that have not tested since, and any
other thread can take the unit before they do.

`value` is an `unsigned`: `sema_up` counts modulo `2 ^ 32`.
-/
import Pintos.Threads.Synch

set_option autoImplicit false

namespace Pintos.synch

/-! ## Semaphores -/

/-- `struct semaphore`. -/
structure semaphore where
  value : ℕ
  waiters : List ℕ
  deriving DecidableEq, Repr

/-- A semaphore, and the threads at it. -/
structure sema_state where
  sema : semaphore
  /-- Unblocked, but not yet back in the loop. -/
  woken : List ℕ
  priority : ℕ → ℤ
  /-- The calls of `sema_up` so far, and the completed downs. The code keeps neither. -/
  ups : ℕ
  downs : ℕ

/-- `sema_init`. -/
def sema_init (value : ℕ) (priority : ℕ → ℤ) : sema_state where
  sema := { value := value, waiters := [] }
  woken := []
  priority := priority
  ups := 0
  downs := 0

namespace sema_state

/-- `compare_priority`. -/
def less (s : sema_state) (a b : ℕ) : Prop := s.priority a > s.priority b

instance (s : sema_state) : DecidableRel s.less := fun _ _ => inferInstanceAs (Decidable (_ > _))

/-- `value--` at the end of a down. -/
def take (s : sema_state) : sema_state :=
  { s with sema := { s.sema with value := s.sema.value - 1 }, downs := s.downs + 1 }

/-- The thread is in the middle of `sema_down`. -/
def Waits (s : sema_state) (t : ℕ) : Prop := t ∈ s.sema.waiters ∨ t ∈ s.woken

instance (s : sema_state) (t : ℕ) : Decidable (s.Waits t) := inferInstanceAs (Decidable (_ ∨ _))

end sema_state

/-- `sema_down` from the test of its loop on, up to the end or to the next sleep. -/
def sema_down (s : sema_state) (t : ℕ) : sema_state :=
  if s.sema.value = 0 then
    { s with sema := { s.sema with waiters := list_insert_ordered s.less s.sema.waiters t } }
  else s.take

/-- `sema_try_down`. -/
def sema_try_down (s : sema_state) : sema_state := if 0 < s.sema.value then s.take else s

/-- The part of `sema_up` that unblocks the waiter with the highest priority. -/
def sema_up_wake (s : sema_state) : sema_state :=
  match list_sort s.less s.sema.waiters with
  | [] => s
  | t :: rest => { s with sema := { s.sema with waiters := rest }, woken := t :: s.woken }

/-- `sema_up`. -/
def sema_up (s : sema_state) : sema_state :=
  let s := sema_up_wake s
  { s with sema := { s.sema with value := (s.sema.value + 1) % 2 ^ 32 }, ups := s.ups + 1 }

/-- What can happen next. -/
inductive sema_event
  /-- The call, and the first test. -/
  | down (t : ℕ)
  /-- A woken thread runs, and tests again. -/
  | recheck (t : ℕ)
  | try_down (t : ℕ)
  | up
  /-- Priorities change at any time. -/
  | set_priority (t : ℕ) (p : ℤ)
  deriving DecidableEq, Repr

/-- One step; `none` if the thread is not at the point where it could take it. -/
def sema_step (s : sema_state) : sema_event → Option sema_state
  | .down t => if s.Waits t then none else some (sema_down s t)
  | .recheck t => if t ∈ s.woken then some
        (sema_down { s with woken := s.woken.erase t } t) else none
  | .try_down t => if s.Waits t then none else some (sema_try_down s)
  | .up => some (sema_up s)
  | .set_priority t p => some { s with priority := Function.update s.priority t p }

/-- A schedule. -/
def sema_run : List sema_event → sema_state → Option sema_state
  | [], s => some s
  | e :: es, s => (sema_step s e).bind (sema_run es)

/-- What holds at a semaphore that started at `init`. -/
structure Counted (init : ℕ) (s : sema_state) : Prop where
  bound : s.sema.value < 2 ^ 32
  /-- The count, up to the turns of the counter. -/
  turns : ∃ k, s.sema.value + s.downs + k * 2 ^ 32 = init + s.ups
  /-- No wake-up is lost. -/
  wakes : s.sema.waiters ≠ [] → s.sema.value ≤ s.woken.length

namespace Counted

variable {init : ℕ} {s s' : sema_state}

theorem init_counted (h : init < 2 ^ 32) (priority : ℕ → ℤ) :
    Counted init (sema_init init priority) := by
  refine ⟨h, ⟨0, ?_⟩, fun hne => ?_⟩
  · simp [sema_init]
  · simp [sema_init] at hne

/-- A unit is taken. -/
theorem take (h : Counted init s) (hpos : 0 < s.sema.value) : Counted init s.take := by
  obtain ⟨k, hk⟩ := h.turns
  refine ⟨lt_of_le_of_lt (Nat.sub_le _ _) h.bound, ⟨k, ?_⟩, fun hne => ?_⟩
  · simp only [sema_state.take]
    omega
  · exact (Nat.sub_le _ _).trans (h.wakes hne)

/-- A thread goes to sleep only at 0. -/
theorem sema_down (h : Counted init s) (t : ℕ) : Counted init (sema_down s t) := by
  unfold synch.sema_down
  by_cases hzero : s.sema.value = 0
  · rw [if_pos hzero]
    refine ⟨h.bound, h.turns, fun _ => ?_⟩
    exact hzero.le.trans (Nat.zero_le _)
  · rw [if_neg hzero]
    exact h.take (Nat.pos_of_ne_zero hzero)

/-- The thread that tests again is not in flight any more. When the test succeeds, it has
taken the unit that its wake-up stands for. -/
theorem recheck (h : Counted init s) {t : ℕ} (ht : t ∈ s.woken) :
    Counted init (synch.sema_down { s with woken := s.woken.erase t } t) := by
  unfold synch.sema_down
  by_cases hzero : s.sema.value = 0
  · rw [if_pos hzero]
    refine ⟨h.bound, h.turns, fun _ => ?_⟩
    exact hzero.le.trans (Nat.zero_le _)
  · rw [if_neg hzero]
    obtain ⟨k, hk⟩ := h.turns
    refine ⟨lt_of_le_of_lt (Nat.sub_le _ _) h.bound, ⟨k, ?_⟩, fun hne => ?_⟩
    · simp only [sema_state.take]
      omega
    · have hle := h.wakes hne
      simp only [sema_state.take, List.length_erase_of_mem ht]
      omega

/-- A wake-up goes with every unit, as long as somebody waits. -/
theorem sema_up_wake_spec (h : Counted init s) :
    (sema_up_wake s).sema.value = s.sema.value ∧ (sema_up_wake s).ups = s.ups
      ∧ (sema_up_wake s).downs = s.downs
      ∧ ((sema_up_wake s).sema.waiters ≠ []
        → s.sema.value + 1 ≤ (sema_up_wake s).woken.length) := by
  unfold sema_up_wake
  split
  case h_1 hsort =>
    refine ⟨rfl, rfl, rfl, fun hne => ?_⟩
    have hempty : s.sema.waiters = [] := by
      have hperm := List.perm_insertionSort (fun a b => ¬ s.less b a) s.sema.waiters
      rw [show List.insertionSort (fun a b => ¬ s.less b a) s.sema.waiters = [] from hsort] at hperm
      exact List.nil_perm.mp hperm
    exact absurd hempty hne
  case h_2 t rest hsort =>
    refine ⟨rfl, rfl, rfl, fun _ => ?_⟩
    have hne : s.sema.waiters ≠ [] := by
      intro hempty
      rw [hempty] at hsort
      cases hsort
    exact Nat.succ_le_succ (h.wakes hne)

theorem sema_up (h : Counted init s) : Counted init (sema_up s) := by
  obtain ⟨hvalue, hups, hdowns, hwakes⟩ := h.sema_up_wake_spec
  obtain ⟨k, hk⟩ := h.turns
  have hbound := h.bound
  refine ⟨Nat.mod_lt _ (by decide), ?_, fun hne => ?_⟩
  · simp only [synch.sema_up, hvalue, hups, hdowns]
    by_cases hwrap : s.sema.value + 1 = 2 ^ 32
    · exact ⟨k + 1, by rw [hwrap, Nat.mod_self]; omega⟩
    · exact ⟨k, by rw [Nat.mod_eq_of_lt (by omega)]; omega⟩
  · simp only [synch.sema_up, hvalue] at hne ⊢
    exact (Nat.mod_le _ _).trans (hwakes hne)

/-- **One step.** -/
theorem step (h : Counted init s) {e : sema_event} (hstep : sema_step s e = some s') :
    Counted init s' := by
  cases e with
  | down t =>
      obtain ⟨-, hret⟩ := Option.ite_none_left_eq_some.mp hstep
      obtain rfl := Option.some.inj hret
      exact h.sema_down t
  | recheck t =>
      obtain ⟨ht, hret⟩ := Option.ite_none_right_eq_some.mp hstep
      obtain rfl := Option.some.inj hret
      exact h.recheck ht
  | try_down t =>
      obtain ⟨-, hret⟩ := Option.ite_none_left_eq_some.mp hstep
      obtain rfl := Option.some.inj hret
      unfold sema_try_down
      split
      · rename_i hpos
        exact h.take hpos
      · exact h
  | up =>
      obtain rfl := Option.some.inj hstep
      exact h.sema_up
  | set_priority t p =>
      obtain rfl := Option.some.inj hstep
      exact ⟨h.bound, h.turns, h.wakes⟩

/-- **Every schedule.** -/
theorem run (h : Counted init s) {es : List sema_event} (hrun : sema_run es s = some s') :
    Counted init s' := by
  induction es generalizing s with
  | nil =>
      obtain rfl := Option.some.inj hrun
      exact h
  | cons e es ih =>
      obtain ⟨s₁, hstep, hrest⟩ := Option.bind_eq_some_iff.mp hrun
      exact ih (h.step hstep) hrest

/-- The value is the count, as long as the count fits. -/
theorem value_eq (h : Counted init s) :
    s.downs ≤ init + s.ups ∧ s.sema.value = (init + s.ups - s.downs) % 2 ^ 32 := by
  obtain ⟨k, hk⟩ := h.turns
  refine ⟨by omega, ?_⟩
  have hcount : init + s.ups - s.downs = s.sema.value + 2 ^ 32 * k := by omega
  rw [hcount, Nat.add_mul_mod_self_left, Nat.mod_eq_of_lt h.bound]

end Counted

/-! ## Who is in the middle of a down -/

namespace sema_state

/-- The threads in the middle of `sema_down`. -/
def queue (s : sema_state) : List ℕ := s.sema.waiters ++ s.woken

variable {s : sema_state}

theorem mem_queue {t : ℕ} : t ∈ s.queue ↔ s.Waits t := List.mem_append

/-- A thread goes to sleep. -/
theorem queue_sleep (hzero : s.sema.value = 0) (t : ℕ) :
    (sema_down s t).queue.Perm (t :: s.queue) := by
  unfold sema_down
  rw [if_pos hzero]
  exact (List.perm_orderedInsert _ t s.sema.waiters).append_right s.woken

/-- A thread takes a unit. -/
theorem queue_take (hpos : s.sema.value ≠ 0) (t : ℕ) : (sema_down s t).queue = s.queue := by
  unfold sema_down
  rw [if_neg hpos]
  rfl

/-- A woken thread is still in the middle. -/
theorem queue_sema_up : (sema_up s).queue.Perm s.queue := by
  show (sema_up_wake s).queue.Perm s.queue
  unfold sema_up_wake
  have hperm := List.perm_insertionSort (fun a b => ¬ s.less b a) s.sema.waiters
  split
  case h_1 hsort => exact .refl _
  case h_2 t rest hsort =>
    rw [show List.insertionSort (fun a b => ¬ s.less b a) s.sema.waiters
      = t :: rest from hsort] at hperm
    show (rest ++ t :: s.woken).Perm (s.sema.waiters ++ s.woken)
    exact List.perm_middle.trans (hperm.append_right s.woken)

/-- A woken thread comes back to the test. -/
theorem queue_erase {t : ℕ} (ht : t ∈ s.woken) :
    s.queue.Perm (t :: ({ s with woken := s.woken.erase t } : sema_state).queue) := by
  show (s.sema.waiters ++ s.woken).Perm (t :: (s.sema.waiters ++ s.woken.erase t))
  exact ((List.perm_cons_erase ht).append_left _).trans List.perm_middle

end sema_state

/-! ## Locks -/

/-- Where a thread is. -/
inductive lock_phase
  /-- In code of its own, without the lock. -/
  | outside
  /-- In `lock_acquire`, in front of or inside `sema_down`. -/
  | acquiring
  /-- In `lock_try_acquire`, in front of `sema_try_down`. -/
  | trying
  /-- Behind a successful down, in front of `lock->holder = thread_current()`. -/
  | taking
  /-- In code of its own, with the lock. -/
  | inside
  /-- In `lock_release`, in front of `lock->holder = NULL`. -/
  | releasing
  /-- In `lock_release`, in front of `sema_up`. -/
  | upping
  deriving DecidableEq, Repr

/-- `struct lock`, and the threads at it. -/
structure lock_state where
  semaphore : sema_state
  holder : Option ℕ
  phase : ℕ → lock_phase

/-- `lock_init`. -/
def lock_init (priority : ℕ → ℤ) : lock_state where
  semaphore := sema_init 1 priority
  holder := none
  phase _ := .outside

/-- Thread `t` is at another point. -/
def lock_state.at_phase (s : lock_state) (t : ℕ) (ph : lock_phase) : lock_state :=
  { s with phase := Function.update s.phase t ph }

/-- A thread makes a call. -/
def lock_phase.Free (ph : lock_phase) : Prop := ph = .outside ∨ ph = .inside

instance (ph : lock_phase) : Decidable ph.Free := inferInstanceAs (Decidable (_ ∨ _))

/-- What can happen next. -/
inductive lock_event
  | acquire (t : ℕ)
  | try_acquire (t : ℕ)
  | down (t : ℕ)
  | recheck (t : ℕ)
  | try_down (t : ℕ)
  | set_holder (t : ℕ)
  | release (t : ℕ)
  | clear_holder (t : ℕ)
  | up (t : ℕ)
  | set_priority (t : ℕ) (p : ℤ)
  deriving DecidableEq, Repr

/-- One step; `none` if the thread is not at that point, or if an assertion stops the
kernel there. The donations of `lock_acquire` and `lock_release` are changes of priorities. -/
def lock_step (s : lock_state) : lock_event → Option lock_state
  | .acquire t =>
      if (s.phase t).Free ∧ s.holder ≠ some t then some (s.at_phase t .acquiring) else none
  | .try_acquire t =>
      if (s.phase t).Free ∧ s.holder ≠ some t then some (s.at_phase t .trying) else none
  | .down t =>
      if s.phase t = .acquiring then
        (sema_step s.semaphore (.down t)).map fun m =>
          { s with semaphore := m }.at_phase t
            (if s.semaphore.sema.value = 0 then .acquiring else .taking)
      else none
  | .recheck t =>
      if s.phase t = .acquiring then
        (sema_step s.semaphore (.recheck t)).map fun m =>
          { s with semaphore := m }.at_phase t
            (if s.semaphore.sema.value = 0 then .acquiring else .taking)
      else none
  | .try_down t =>
      if s.phase t = .trying then
        (sema_step s.semaphore (.try_down t)).map fun m =>
          { s with semaphore := m }.at_phase t
            (if s.semaphore.sema.value = 0 then .outside else .taking)
      else none
  | .set_holder t =>
      if s.phase t = .taking then some ({ s with holder := some t }.at_phase t .inside) else none
  | .release t =>
      if (s.phase t).Free ∧ s.holder = some t then some (s.at_phase t .releasing) else none
  | .clear_holder t =>
      if s.phase t = .releasing then some ({ s with holder := none }.at_phase t .upping) else none
  | .up t =>
      if s.phase t = .upping then
        some ({ s with semaphore := sema_up s.semaphore }.at_phase t .outside)
      else none
  | .set_priority t p =>
      some { s with semaphore :=
        { s.semaphore with priority := Function.update s.semaphore.priority t p } }

/-- A schedule. -/
def lock_run : List lock_event → lock_state → Option lock_state
  | [], s => some s
  | e :: es, s => (lock_step s e).bind (lock_run es)

/-- The thread has the unit of the lock's semaphore. -/
def lock_phase.Owns : lock_phase → Prop
  | .taking => True
  | .inside => True
  | .releasing => True
  | .upping => True
  | _ => False

/-- Between a completed `lock_acquire` or `lock_try_acquire` and the end of `lock_release`. -/
def lock_phase.Holds : lock_phase → Prop
  | .inside => True
  | .releasing => True
  | .upping => True
  | _ => False

theorem lock_phase.Holds.owns {ph : lock_phase} (h : ph.Holds) : ph.Owns := by
  cases ph with
  | inside => trivial
  | releasing => trivial
  | upping => trivial
  | _ => exact h.elim

/-- The unit is in the semaphore, or with one thread. -/
structure Exclusive (s : lock_state) : Prop where
  unit : (s.semaphore.sema.value = 1 ∧ ∀ t, ¬ (s.phase t).Owns)
    ∨ (s.semaphore.sema.value = 0 ∧ ∃ o, (s.phase o).Owns ∧ ∀ t, (s.phase t).Owns → t = o)
  holder : ∀ t, s.holder = some t ↔ s.phase t = .inside ∨ s.phase t = .releasing

namespace Exclusive

variable {s s' : lock_state}

theorem init_exclusive (priority : ℕ → ℤ) : Exclusive (lock_init priority) := by
  refine ⟨.inl ⟨rfl, fun _ h => h⟩, fun t => ?_⟩
  simp [lock_init]

theorem phase_self (s : lock_state) (t : ℕ) (ph : lock_phase) : (s.at_phase t ph).phase t = ph :=
  Function.update_self _ _ _

theorem phase_of_ne (s : lock_state) {t u : ℕ} (ph : lock_phase) (h : u ≠ t) :
    (s.at_phase t ph).phase u = s.phase u :=
  Function.update_of_ne h _ _

/-- Two owners are one. -/
theorem unique (h : Exclusive s) {t u : ℕ} (ht : (s.phase t).Owns) (hu : (s.phase u).Owns) :
    t = u := by
  rcases h.unit with ⟨-, hnone⟩ | ⟨-, o, -, hall⟩
  · exact absurd ht (hnone t)
  · rw [hall t ht, hall u hu]

/-- A thread moves on, and neither gets nor gives back the unit. -/
theorem unit_at_phase (h : Exclusive s) (t : ℕ) (ph : lock_phase) (m : sema_state) (k : Option ℕ)
    (hown : ph.Owns ↔ (s.phase t).Owns) (hvalue : m.sema.value = s.semaphore.sema.value) :
    let s₁ := ({ s with semaphore := m, holder := k } : lock_state).at_phase t ph
    (s₁.semaphore.sema.value = 1 ∧ ∀ u, ¬ (s₁.phase u).Owns)
      ∨ (s₁.semaphore.sema.value = 0 ∧ ∃ o, (s₁.phase o).Owns ∧ ∀ u, (s₁.phase u).Owns
        → u = o) := by
  intro s₁
  have hsame : ∀ u, (s₁.phase u).Owns ↔ (s.phase u).Owns := by
    intro u
    by_cases hut : u = t
    · rw [hut, phase_self]
      exact hown
    · rw [phase_of_ne _ _ hut]
  have hval : s₁.semaphore.sema.value = s.semaphore.sema.value := hvalue
  simp only [hsame, hval]
  exact h.unit

/-- The holder stays: the thread is neither at nor comes to a point where it is the holder. -/
theorem holder_at_phase (h : Exclusive s) {t : ℕ} {ph : lock_phase} {m : sema_state}
    (hnew : (ph = .inside ∨ ph = .releasing) ↔ (s.phase t = .inside ∨ s.phase t = .releasing)) :
    ∀ u, (({ s with semaphore := m } : lock_state).at_phase t ph).holder = some u
      ↔ (({ s with semaphore := m } : lock_state).at_phase t ph).phase u = .inside
        ∨ (({ s with semaphore := m } : lock_state).at_phase t ph).phase u = .releasing := by
  intro u
  by_cases hut : u = t
  · rw [hut, phase_self, hnew]
    exact h.holder t
  · rw [phase_of_ne _ _ hut]
    exact h.holder u

theorem not_holder_of_not_owns {ph : lock_phase} (h : ¬ ph.Owns) :
    ¬ (ph = .inside ∨ ph = .releasing) := by
  rintro (rfl | rfl)
  · exact h trivial
  · exact h trivial

/-- **A call** of `lock_acquire` or `lock_try_acquire`: the assertion lets only a thread pass
that does not own the unit. -/
theorem call (h : Exclusive s) {t : ℕ} (hfree : (s.phase t).Free) (hne : s.holder ≠ some t)
    {ph : lock_phase} (hph : ¬ ph.Owns) : Exclusive (s.at_phase t ph) := by
  have hout : ¬ (s.phase t).Owns := by
    rcases hfree with hout | hin
    · rw [hout]
      exact fun hf => hf
    · exact absurd ((h.holder t).mpr (.inl hin)) hne
  refine ⟨h.unit_at_phase t ph s.semaphore s.holder (iff_of_false hph hout) rfl, ?_⟩
  exact h.holder_at_phase
    (iff_of_false (not_holder_of_not_owns hph) (not_holder_of_not_owns hout))

/-- **A down** by a thread that does not own the unit: it sleeps, or it takes the unit. -/
theorem take (h : Exclusive s) {t : ℕ} {ph : lock_phase} {m : sema_state}
    (ht : ¬ (s.phase t).Owns) (hph : ¬ ph.Owns)
    (hvalue : m.sema.value = s.semaphore.sema.value - 1) :
    Exclusive (({ s with semaphore := m } : lock_state).at_phase t
      (if s.semaphore.sema.value = 0 then ph else .taking)) := by
  by_cases hzero : s.semaphore.sema.value = 0
  · rw [if_pos hzero]
    refine ⟨h.unit_at_phase t ph m s.holder (iff_of_false hph ht) (by rw [hvalue, hzero]), ?_⟩
    exact h.holder_at_phase 
      (iff_of_false (not_holder_of_not_owns hph) (not_holder_of_not_owns ht))
  · rw [if_neg hzero]
    rcases h.unit with ⟨hone, hnone⟩ | ⟨hno, -⟩
    · refine ⟨.inr ⟨?_, t, ?_, fun u hu => ?_⟩, ?_⟩
      · show m.sema.value = 0
        rw [hvalue, hone]
      · rw [phase_self]
        trivial
      · by_contra hut
        rw [phase_of_ne _ _ hut] at hu
        exact hnone u hu
      · exact h.holder_at_phase (iff_of_false (by simp) (not_holder_of_not_owns ht))
    · exact absurd hno hzero

/-- The value after a test. -/
theorem value_sema_down (m : sema_state) (t : ℕ) :
    (sema_down m t).sema.value = m.sema.value - 1 := by
  unfold sema_down
  split
  · rename_i hzero
    show m.sema.value = m.sema.value - 1
    rw [hzero]
  · rfl

/-- **One step.** -/
theorem step (h : Exclusive s) {e : lock_event} (hstep : lock_step s e = some s') :
    Exclusive s' := by
  cases e with
  | acquire t =>
      obtain ⟨⟨hfree, hne⟩, hret⟩ := Option.ite_none_right_eq_some.mp hstep
      obtain rfl := Option.some.inj hret
      exact h.call hfree hne fun hf => hf
  | try_acquire t =>
      obtain ⟨⟨hfree, hne⟩, hret⟩ := Option.ite_none_right_eq_some.mp hstep
      obtain rfl := Option.some.inj hret
      exact h.call hfree hne fun hf => hf
  | down t =>
      obtain ⟨hph, hret⟩ := Option.ite_none_right_eq_some.mp hstep
      obtain ⟨m, hm, rfl⟩ := Option.map_eq_some_iff.mp hret
      obtain ⟨-, hsome⟩ := Option.ite_none_left_eq_some.mp hm
      obtain rfl := Option.some.inj hsome
      have hnot : ¬ (s.phase t).Owns := by
        rw [hph]
        exact fun hf => hf
      exact h.take hnot (fun hf => hf) (value_sema_down _ _)
  | recheck t =>
      obtain ⟨hph, hret⟩ := Option.ite_none_right_eq_some.mp hstep
      obtain ⟨m, hm, rfl⟩ := Option.map_eq_some_iff.mp hret
      obtain ⟨-, hsome⟩ := Option.ite_none_right_eq_some.mp hm
      obtain rfl := Option.some.inj hsome
      have hnot : ¬ (s.phase t).Owns := by
        rw [hph]
        exact fun hf => hf
      exact h.take hnot (fun hf => hf) (value_sema_down _ _)
  | try_down t =>
      obtain ⟨hph, hret⟩ := Option.ite_none_right_eq_some.mp hstep
      obtain ⟨m, hm, rfl⟩ := Option.map_eq_some_iff.mp hret
      obtain ⟨-, hsome⟩ := Option.ite_none_left_eq_some.mp hm
      obtain rfl := Option.some.inj hsome
      have hnot : ¬ (s.phase t).Owns := by
        rw [hph]
        exact fun hf => hf
      refine h.take hnot (fun hf => hf) ?_
      unfold sema_try_down
      split
      · rfl
      · rename_i hzero
        omega
  | set_holder t =>
      obtain ⟨hph, hret⟩ := Option.ite_none_right_eq_some.mp hstep
      obtain rfl := Option.some.inj hret
      have hown : (s.phase t).Owns := by
        rw [hph]
        trivial
      refine ⟨h.unit_at_phase t .inside s.semaphore (some t) (iff_of_true trivial hown) rfl,
        fun u => ?_⟩
      by_cases hut : u = t
      · rw [hut, phase_self]
        simp [lock_state.at_phase]
      · rw [phase_of_ne _ _ hut]
        refine iff_of_false (fun hu => hut (Option.some.inj hu).symm) fun hu => hut ?_
        apply h.unique _ hown
        rcases hu with hu | hu
        · rw [show s.phase u = _ from hu]
          trivial
        · rw [show s.phase u = _ from hu]
          trivial
  | release t =>
      obtain ⟨⟨hfree, hhold⟩, hret⟩ := Option.ite_none_right_eq_some.mp hstep
      obtain rfl := Option.some.inj hret
      have hin := (h.holder t).mp hhold
      have hown : (s.phase t).Owns := by
        rcases hin with hin | hin
        · rw [hin]
          trivial
        · rw [hin]
          trivial
      refine ⟨h.unit_at_phase t .releasing s.semaphore s.holder (iff_of_true trivial hown) rfl, ?_⟩
      exact h.holder_at_phase (iff_of_true (.inr rfl) hin)
  | clear_holder t =>
      obtain ⟨hph, hret⟩ := Option.ite_none_right_eq_some.mp hstep
      obtain rfl := Option.some.inj hret
      have hown : (s.phase t).Owns := by
        rw [hph]
        trivial
      refine ⟨h.unit_at_phase t .upping s.semaphore none (iff_of_true trivial hown) rfl,
        fun u => ?_⟩
      have hother : ∀ u, s.phase u = .inside ∨ s.phase u = .releasing → u = t := by
        intro u hu
        exact Option.some.inj (((h.holder u).mpr hu).symm.trans ((h.holder t).mpr (.inr hph)))
      refine iff_of_false (fun hu => by cases hu) fun hu => ?_
      by_cases hut : u = t
      · rw [hut, phase_self] at hu
        simp at hu
      · rw [phase_of_ne _ _ hut] at hu
        exact hut (hother u hu)
  | up t =>
      obtain ⟨hph, hret⟩ := Option.ite_none_right_eq_some.mp hstep
      obtain rfl := Option.some.inj hret
      have hown : (s.phase t).Owns := by
        rw [hph]
        trivial
      have hwake : (sema_up_wake s.semaphore).sema.value = s.semaphore.sema.value := by
        unfold sema_up_wake
        split
        · rfl
        · rfl
      rcases h.unit with ⟨-, hnone⟩ | ⟨hzero, o, -, hall⟩
      · exact absurd hown (hnone t)
      · refine ⟨.inl ⟨?_, fun u hu => ?_⟩, ?_⟩
        · show ((sema_up_wake s.semaphore).sema.value + 1) % 2 ^ 32 = 1
          simp [hwake, hzero]
        · by_cases hut : u = t
          · rw [hut, phase_self] at hu
            exact hu
          · rw [phase_of_ne _ _ hut] at hu
            exact hut ((hall u hu).trans (hall t hown).symm)
        · exact h.holder_at_phase (iff_of_false (by simp) (by simp [hph]))
  | set_priority t p =>
      obtain rfl := Option.some.inj hstep
      exact ⟨h.unit, h.holder⟩

/-- **Every schedule.** -/
theorem run (h : Exclusive s) {es : List lock_event} (hrun : lock_run es s = some s') :
    Exclusive s' := by
  induction es generalizing s with
  | nil =>
      obtain rfl := Option.some.inj hrun
      exact h
  | cons e es ih =>
      obtain ⟨s₁, hstep, hrest⟩ := Option.bind_eq_some_iff.mp hrun
      exact ih (h.step hstep) hrest

end Exclusive

/-- **Semaphores and locks under every schedule.** The value is what was there, plus the ups,
minus the completed downs, as far as an `unsigned` counts; no wake-up is lost; and at most one
thread holds a lock. -/
theorem sema_and_lock_safe :
    (∀ (init : ℕ) (priority : ℕ → ℤ) (es : List sema_event) (s : sema_state), init < 2 ^ 32 →
      sema_run es (sema_init init priority) = some s →
        s.downs ≤ init + s.ups ∧ s.sema.value = (init + s.ups - s.downs) % 2 ^ 32
        ∧ (s.sema.waiters ≠ [] → s.sema.value ≤ s.woken.length))
    ∧ ∀ (priority : ℕ → ℤ) (es : List lock_event) (s : lock_state),
      lock_run es (lock_init priority) = some s →
        ∀ t u, (s.phase t).Holds → (s.phase u).Holds → t = u := by
  constructor
  · intro init priority es s hinit hrun
    have h := (Counted.init_counted hinit priority).run hrun
    exact ⟨h.value_eq.1, h.value_eq.2, h.wakes⟩
  · intro priority es s hrun t u ht hu
    have h := (Exclusive.init_exclusive priority).run hrun
    exact h.unique ht.owns hu.owns

/-- Thread 2 is woken, thread 3 is faster, and thread 2 sleeps again; at the lock, thread 2
gets in when thread 1 is out. -/
theorem overtaken_sleeps_again :
    (∃ s, sema_run [.down 1, .down 2, .up, .try_down 3, .recheck 2]
        (sema_init 1 fun _ => PRI_DEFAULT) = some s
      ∧ s.sema.waiters = [2] ∧ s.sema.value = 0 ∧ s.sema.value ≤ s.woken.length)
    ∧ ∃ s, lock_run [.acquire 1, .down 1, .set_holder 1, .acquire 2, .down 2, .release 1,
        .clear_holder 1, .up 1, .recheck 2, .set_holder 2] (lock_init fun _ => PRI_DEFAULT) = some s
      ∧ (s.phase 2).Holds ∧ ∀ u, (s.phase u).Holds → 2 = u := by
  refine ⟨⟨_, rfl, by decide, by decide, ?_⟩, ⟨_, rfl, trivial, fun u hu => ?_⟩⟩
  · exact (sema_and_lock_safe.1 1 (fun _ => PRI_DEFAULT)
      [.down 1, .down 2, .up, .try_down 3, .recheck 2] _ (by decide) rfl).2.2 (by decide)
  · exact sema_and_lock_safe.2 (fun _ => PRI_DEFAULT)
      [.acquire 1, .down 1, .set_holder 1, .acquire 2,
      .down 2, .release 1, .clear_holder 1, .up 1, .recheck 2, .set_holder 2] _ rfl 2 u trivial hu

/-- A semaphore that starts at the largest `unsigned` is at 0 after one `sema_up`. -/
theorem sema_up_wraps : ∃ s, sema_run [.up] (sema_init (2 ^ 32 - 1) fun _ => PRI_DEFAULT) = some s
    ∧ s.ups = 1 ∧ s.downs = 0 ∧ s.sema.value = 0 ∧ s.sema.value ≠ 2 ^ 32 - 1 + s.ups - s.downs := by
  refine ⟨_, rfl, by decide, by decide, by decide, by decide⟩

end Pintos.synch
