/-
`devices/timer.c`: the alarm clock.

`timer_sleep` computes when to wake up while interrupts are still on, and files the
thread with interrupts off; a tick may fall between the two. `timer_interrupt` looks at
`closet_tick` alone before it looks at the list. The variable is declared with the value
`NULL`, and a wake-up time of 0 is that value.

Times are integers: the counter does not overflow. Everything else a thread does is a
step of the scheduler, and the CPU that an interrupt takes away on its return is one
too.
-/
import Pintos.Lib.Runs
import Pintos.Threads.Places

set_option autoImplicit false

namespace Pintos

/-! ## Sleeping -/

/-- `block_thread`. -/
structure block_thread where
  /-- The thread that sleeps. -/
  block_threads : ℕ
  wakeup_tick : ℤ
  deriving DecidableEq, Repr

/-- `compare_tick`. -/
def compare_tick (a b : block_thread) : Prop := a.wakeup_tick < b.wakeup_tick

instance : DecidableRel compare_tick := fun _ _ => inferInstanceAs (Decidable (_ < _))

/-- The kernel with its timer. -/
structure timer where
  s : kernel
  ticks : ℤ
  block_thread_list : List block_thread
  /-- `NULL` is 0. -/
  closet_tick : ℤ
  /-- The local `target` of a thread that has called `timer_sleep` and is not filed yet. -/
  target : ℕ → Option block_thread

/-- `timer_sleep` by `cur`, with interrupts on. -/
def timer_sleep_target (x : timer) (cur : ℕ) (ticks : ℤ) : timer :=
  { x with target := Function.update x.target cur (some ⟨cur, x.ticks + ticks⟩) }

/-- `timer_sleep` by `cur`, with interrupts off. -/
def timer_sleep_block (x : timer) (cur : ℕ) (target : block_thread) : timer :=
  { s := thread_block x.s cur
    ticks := x.ticks
    block_thread_list := list_insert_ordered compare_tick x.block_thread_list target
    closet_tick :=
      if x.closet_tick = 0 ∨ x.closet_tick > target.wakeup_tick then target.wakeup_tick
      else x.closet_tick
    target := Function.update x.target cur none }

/-! ## Waking up -/

/-- The loop of `wake_up`: what it has taken off the list, and what it has left. -/
def wake_up_loop (cur_tick : ℤ) :
    List block_thread → kernel → Outcome (List block_thread × List block_thread × kernel)
  | [], s => .ok ([], [], s)
  | entry :: next, s =>
      if entry.wakeup_tick ≤ cur_tick then do
        let s ← thread_unblock s entry.block_threads
        let (taken, left, s) ← wake_up_loop cur_tick next s
        return (entry :: taken, left, s)
      else .ok ([], entry :: next, s)

/-- `wake_up`. -/
def wake_up (x : timer) (cur_tick : ℤ) : Outcome (List block_thread × timer) := do
  let (taken, left, s) ← wake_up_loop cur_tick x.block_thread_list x.s
  let closet_tick :=
    match left with
    | [] => 0
    | entry :: _ => entry.wakeup_tick
  return (taken, { x with s := s, block_thread_list := left, closet_tick := closet_tick })

/-- `timer_interrupt`, with the entries it has woken. -/
def timer_interrupt (x : timer) : Outcome (List block_thread × timer) :=
  let x := { x with ticks := x.ticks + 1 }
  if x.closet_tick ≠ 0 ∧ x.ticks ≥ x.closet_tick then wake_up x x.ticks else .ok ([], x)

/-! ## Runs -/

/-- The timer, with all entries that were ever filed and all that were ever woken. -/
structure alarm where
  timer : Pintos.timer
  filed : List block_thread
  woken : List block_thread

/-- What can happen next. -/
inductive alarm_event
  /-- The running thread calls `timer_sleep`. -/
  | timer_sleep (ticks : ℤ)
  /-- It goes on with interrupts off. -/
  | block
  | timer_interrupt
  /-- A step of the scheduler. -/
  | sched (a : sched_action)
  deriving DecidableEq, Repr

/-- Whether a thread is filed. -/
def timer.Sleeps (x : timer) (t : ℕ) : Prop :=
    t ∈ x.block_thread_list.map block_thread.block_threads

instance (x : timer) (t : ℕ) : Decidable (x.Sleeps t) := inferInstanceAs (Decidable (_ ∈ _))

/-- One event. Nobody else has a pointer to unblock a sleeping thread with. -/
def alarm_step (x : alarm) : alarm_event → Option alarm
  | .timer_sleep ticks =>
      match x.timer.s.current with
      | none => none
      | some cur =>
          if x.timer.target cur = none then
            some { x with timer := timer_sleep_target x.timer cur ticks }
          else none
  | .block =>
      match x.timer.s.current with
      | none => none
      | some cur =>
          match x.timer.target cur with
          | none => none
          | some target =>
              some { x with
                timer := timer_sleep_block x.timer cur target
                filed := x.filed ++ [target] }
  | .timer_interrupt =>
      match timer_interrupt x.timer with
      | .ok (taken, t) => some { x with timer := t, woken := x.woken ++ taken }
      | _ => none
  | .sched (.thread_unblock t) =>
      if x.timer.Sleeps t then none
      else (sched_step x.timer.s (.thread_unblock t)).toOption.map fun s =>
        { x with timer := { x.timer with s := s } }
  | .sched a =>
      (sched_step x.timer.s a).toOption.map fun s => { x with timer := { x.timer with s := s } }

/-- The kernel when `main` starts, its clock at 0. -/
def alarm_boot : alarm where
  timer := {
    s := kernel_boot, ticks := 0, block_thread_list := [], closet_tick := 0, target :=
      fun _ => none }
  filed := []
  woken := []

/-- A run. -/
def alarm_run : List alarm_event → alarm → Option alarm := Runs.run alarm_step

/-- **The sleepers due are awake**: of the entries filed, those with a wake-up time up to now
have been woken, each once, and no other has. -/
def alarm.WokenExactly (x : alarm) : Prop :=
  x.woken.Perm (x.filed.filter fun e => e.wakeup_tick ≤ x.timer.ticks)

instance (x : alarm) : Decidable x.WokenExactly := inferInstanceAs (Decidable (List.Perm _ _))

/-- `block_thread_list` in order. -/
def timer.Sorted (x : timer) : Prop :=
  x.block_thread_list.Pairwise fun a b => a.wakeup_tick ≤ b.wakeup_tick

instance (x : timer) : Decidable x.Sorted := inferInstanceAs (Decidable (List.Pairwise _ _))

/-- The front of the list has wake-up time 0, and the interrupt takes `closet_tick` for
`NULL` or for a time to come. -/
def timer.Misses (x : timer) : Prop :=
  (∃ e, x.block_thread_list.head? = some e ∧ e.wakeup_tick = 0)
    ∧ (x.closet_tick = 0 ∨ x.ticks + 1 < x.closet_tick)

/-! ## The invariant -/

/-- What the filed entries make of `closet_tick`: 0 when there is none, and else the front's
wake-up time. A front that is due at 0 looks like none. -/
def timer.Cached (x : timer) : Prop :=
  match x.block_thread_list with
  | [] => x.closet_tick = 0
  | e :: _ => if e.wakeup_tick = 0 then 0 ≤ x.closet_tick else x.closet_tick = e.wakeup_tick

/-- The invariant of a run. -/
structure alarm.Inv (x : alarm) : Prop where
  placed : x.timer.s.Placed
  ticks_nonneg : 0 ≤ x.timer.ticks
  sorted : x.timer.Sorted
  cached : x.timer.Cached
  /-- A sleeping thread is blocked, and filed once. -/
  parked : ∀ e ∈ x.timer.block_thread_list, x.timer.s.Parked e.block_threads
  once : (x.timer.block_thread_list.map block_thread.block_threads).Nodup
  target : ∀ t e, x.timer.target t = some e → e.block_threads = t
  /-- What was filed has been woken or is in the list. -/
  split : x.filed.Perm (x.woken ++ x.timer.block_thread_list)
  woken_due : ∀ e ∈ x.woken, e.wakeup_tick ≤ x.timer.ticks

theorem alarm_boot_inv : alarm_boot.Inv where
  placed := kernel.kernel_boot_placed
  ticks_nonneg := le_rfl
  sorted := List.Pairwise.nil
  cached := rfl
  parked := nofun
  once := List.nodup_nil
  target := nofun
  split := List.Perm.nil
  woken_due := nofun

/-! ### Filing -/

/-- The list stays in order: it is a queue whose first is the earliest. -/
theorem sorted_insert {l : List block_thread}
    (h : l.Pairwise fun a b => a.wakeup_tick ≤ b.wakeup_tick) (e : block_thread) :
    (list_insert_ordered compare_tick l e).Pairwise fun a b => a.wakeup_tick ≤ b.wakeup_tick := by
  let key : block_thread → ℤᵒᵈ := fun a => OrderDual.toDual a.wakeup_tick
  have hsorted : (Queue.insert key l e).Pairwise fun a b => key b ≤ key a := Queue.sorted_insert h e
  have heq : Queue.insert key l e = list_insert_ordered compare_tick l e := rfl
  rwa [heq] at hsorted

/-- **`closet_tick`** after an entry is filed. -/
theorem cached_insert {x : timer} (h : x.Cached) (cur : ℕ) (e : block_thread) :
    (timer_sleep_block x cur e).Cached := by
  unfold timer.Cached timer_sleep_block at *
  dsimp only
  cases hl : x.block_thread_list with
  | nil =>
      rw [hl] at h
      simp only at h
      simp only [list_insert_ordered, List.orderedInsert_nil]
      split_ifs <;> omega
  | cons a l =>
      rw [hl] at h
      simp only at h
      unfold list_insert_ordered
      rw [List.orderedInsert_cons]
      -- the new entry is the front or it is not; the front's time is 0 or it is not
      by_cases hlt : compare_tick e a
      · rw [if_pos hlt]
        unfold compare_tick at hlt
        dsimp only
        split_ifs at h ⊢ <;> omega
      · rw [if_neg hlt]
        unfold compare_tick at hlt
        dsimp only
        split_ifs at h ⊢ <;> omega

/-- Filing the running thread. -/
theorem alarm.Inv.block {x : alarm} (h : x.Inv) {cur : ℕ} (hc : x.timer.s.current = some cur)
    {target : block_thread} (ht : x.timer.target cur = some target) :
    Inv { x with
      timer := timer_sleep_block x.timer cur target
      filed := x.filed ++ [target] } := by
  have hmem : ∀ e, e ∈ (timer_sleep_block x.timer cur target).block_thread_list
      ↔ e = target ∨ e ∈ x.timer.block_thread_list := fun e => mem_list_insert_ordered
  have hperm : (timer_sleep_block x.timer cur target).block_thread_list.Perm
      (target :: x.timer.block_thread_list) := List.perm_orderedInsert _ _ _
  have hthread : target.block_threads = cur := h.target cur target ht
  refine ⟨h.placed.thread_block hc, h.ticks_nonneg, sorted_insert h.sorted target,
    cached_insert h.cached cur target, fun e he => ?_, ?_, fun t e he => ?_, ?_, h.woken_due⟩
  · rcases (hmem e).mp he with rfl | he
    · rw [hthread]
      exact h.placed.parked_of_block hc
    · have hparked := h.parked e he
      exact hparked.thread_block (hparked.ne_current hc)
  · -- the running thread is not asleep
    apply ((hperm.map _).nodup_iff).mpr
    refine List.nodup_cons.mpr ⟨fun hin => ?_, h.once⟩
    obtain ⟨e, he, heq⟩ := List.mem_map.mp hin
    exact (h.parked e he).ne_current hc (heq.trans hthread)
  · change Function.update x.timer.target cur none t = some e at he
    by_cases htc : t = cur
    · rw [htc, Function.update_self] at he
      cases he
    · rw [Function.update_of_ne htc] at he
      exact h.target t e he
  · -- what was filed: the entries before, and the new one
    calc x.filed ++ [target]
        _ |>.Perm (target :: x.filed) := List.perm_append_singleton _ _
        _ |>.Perm (target :: (x.woken ++ x.timer.block_thread_list)) := h.split.cons _
        _ |>.Perm (x.woken ++ target :: x.timer.block_thread_list) := List.perm_middle.symm
        _ |>.Perm (x.woken ++ (timer_sleep_block x.timer cur target).block_thread_list) :=
          hperm.symm.append_left _

/-! ### Waking -/

theorem thread_unblock_returns {s : kernel} (hs : s.Placed) {t : ℕ} (h : s.Parked t) :
    ∃ s', thread_unblock s t = .ok s' ∧ s'.Placed := by
  obtain ⟨s', hrun⟩ : ∃ s', thread_unblock s t = .ok s' := by
    unfold thread_unblock
    rw [Outcome.assert_pos h.blocked]
    exact ⟨_, rfl⟩
  exact ⟨s', hrun, (hs.thread_unblock h.created h.not_waiting hrun).1⟩

/-- **The loop of `wake_up`** takes a front part of the list, up to the first entry that is
not due. -/
theorem wake_up_loop_spec (T : ℤ) {l : List block_thread} {s : kernel} (hs : s.Placed)
    (hparked : ∀ e ∈ l, s.Parked e.block_threads)
    (honce : (l.map block_thread.block_threads).Nodup) :
    ∃ taken left s', wake_up_loop T l s = .ok (taken, left, s') ∧ l = taken ++ left
      ∧ (∀ e ∈ taken, e.wakeup_tick ≤ T) ∧ (∀ e, left.head? = some e → T < e.wakeup_tick)
      ∧ s'.Placed ∧ ∀ t, s.Parked t → (∀ e ∈ taken, e.block_threads ≠ t) → s'.Parked t := by
  induction l generalizing s with
  | nil => exact ⟨[], [], s, rfl, rfl, nofun, nofun, hs, fun t ht _ => ht⟩
  | cons a l ih =>
      by_cases hdue : a.wakeup_tick ≤ T
      · obtain ⟨s₁, hwake, hs₁⟩ := thread_unblock_returns hs (hparked a List.mem_cons_self)
        obtain ⟨hnot, honce'⟩ := List.nodup_cons.mp honce
        have hstay : ∀ t, s.Parked t → a.block_threads ≠ t → s₁.Parked t :=
          fun t ht hne => ht.thread_unblock hne.symm hwake
        obtain ⟨taken, left, s', hloop, hl, htaken, hleft, hs', hrest⟩ := ih hs₁ (fun e he => by
          refine hstay _ (hparked e (List.mem_cons_of_mem _ he)) fun heq => hnot ?_
          rw [heq]
          exact List.mem_map_of_mem he) honce'
        refine ⟨a :: taken, left, s', ?_, by rw [hl, List.cons_append], fun e he => ?_, hleft, hs',
          fun t ht hne => ?_⟩
        · simp only [wake_up_loop, if_pos hdue, hwake, Outcome.ok_bind, hloop]
          rfl
        · rcases List.mem_cons.mp he with rfl | he
          · exact hdue
          · exact htaken e he
        · refine hrest t (hstay t ht (hne a List.mem_cons_self)) fun e he => ?_
          exact hne e (List.mem_cons_of_mem _ he)
      · refine ⟨[], a :: l, s, ?_, rfl, nofun, fun e he => ?_, hs, fun t ht _ => ht⟩
        · simp only [wake_up_loop, if_neg hdue]
        · obtain rfl := Option.some.inj he
          exact not_le.mp hdue

/-- In an ordered list, an entry that is not due has none behind it that is. -/
theorem all_later {T : ℤ} {l : List block_thread}
    (hl : l.Pairwise fun a b => a.wakeup_tick ≤ b.wakeup_tick)
    (hhead : ∀ e, l.head? = some e → T < e.wakeup_tick) : ∀ e ∈ l, T < e.wakeup_tick := by
  cases l with
  | nil => nofun
  | cons a l =>
      have ha := hhead a rfl
      intro e he
      rcases List.mem_cons.mp he with rfl | he
      · exact ha
      · exact ha.trans_le ((List.pairwise_cons.mp hl).1 e he)

namespace alarm

variable {x : alarm}

/-- **What was woken is right** exactly when nothing left in the list is due. -/
theorem wokenExactly_iff (hsplit : x.filed.Perm (x.woken ++ x.timer.block_thread_list))
    (hdue : ∀ e ∈ x.woken, e.wakeup_tick ≤ x.timer.ticks) :
    x.WokenExactly ↔ ∀ e ∈ x.timer.block_thread_list, x.timer.ticks < e.wakeup_tick := by
  have hall : x.woken.filter (fun e => e.wakeup_tick ≤ x.timer.ticks) = x.woken :=
    List.filter_eq_self.mpr fun e he => decide_eq_true (hdue e he)
  have hfilter : (x.filed.filter fun e => e.wakeup_tick ≤ x.timer.ticks).Perm
      (x.woken ++ x.timer.block_thread_list.filter fun e => e.wakeup_tick ≤ x.timer.ticks) := by
    have hperm := hsplit.filter fun e => decide (e.wakeup_tick ≤ x.timer.ticks)
    rwa [List.filter_append, hall] at hperm
  unfold WokenExactly
  constructor
  · intro hex e he
    by_contra hle
    -- an entry that is due and not woken makes the two lengths differ
    have hmem : e ∈ x.timer.block_thread_list.filter fun e => e.wakeup_tick ≤ x.timer.ticks :=
      List.mem_filter.mpr ⟨he, decide_eq_true (not_lt.mp hle)⟩
    have hlen := (hex.trans hfilter).length_eq
    rw [List.length_append] at hlen
    have hpos := List.length_pos_of_mem hmem
    omega
  · intro hlater
    have hnone : x.timer.block_thread_list.filter (fun e => e.wakeup_tick ≤ x.timer.ticks) = [] :=
      List.filter_eq_nil_iff.mpr fun e he => by simpa using hlater e he
    rw [hnone, List.append_nil] at hfilter
    exact hfilter.symm

/-- **`wake_up`** in a state with the invariant, `closet_tick` apart. -/
theorem Inv.wake_up (h : x.Inv) {T : ℤ} (hT : 0 < T) :
    ∃ taken t, Pintos.wake_up { x.timer with ticks := T } T = .ok (taken, t) ∧ t.ticks = T
      ∧ (x.timer.ticks ≤ T → Inv { x with timer := t, woken := x.woken ++ taken })
      ∧ ∀ e ∈ t.block_thread_list, T < e.wakeup_tick := by
  obtain ⟨taken, left, s, hloop, hlist, htaken, hhead, hs, hstay⟩ :=
    wake_up_loop_spec T h.placed h.parked h.once
  have hsorted := h.sorted
  unfold timer.Sorted at hsorted
  rw [hlist] at hsorted
  have hsorted' := hsorted.sublist (List.sublist_append_right taken left)
  have hlater := all_later hsorted' hhead
  have honce := h.once
  rw [hlist, List.map_append] at honce
  refine ⟨taken, _, by simp only [Pintos.wake_up, hloop, Outcome.ok_bind]; rfl, rfl, fun hle => ?_, hlater⟩
  refine ⟨hs, hT.le, hsorted', ?_, fun e he => ?_, (List.nodup_append.mp honce).2.1, h.target, ?_,
    fun e he => ?_⟩
  · unfold timer.Cached
    cases left with
    | nil => rfl
    | cons e left =>
        have hpos := hT.trans (hlater e List.mem_cons_self)
        dsimp only
        rw [if_neg hpos.ne']
  · apply hstay
    · apply h.parked e
      rw [hlist]
      exact List.mem_append_right _ he
    · intro u hu heq
      exact (List.nodup_append.mp honce).2.2 _ (List.mem_map_of_mem hu) _
        (List.mem_map_of_mem he) heq
  · have hsplit := h.split
    rw [hlist, ← List.append_assoc] at hsplit
    exact hsplit
  · rcases List.mem_append.mp he with he | he
    · exact (h.woken_due e he).trans hle
    · exact htaken e he

/-- **`timer_interrupt`** returns, keeps the invariant, and wakes exactly the sleepers that
are due unless it misses the front. -/
theorem Inv.timer_interrupt (h : x.Inv) :
    ∃ taken t, Pintos.timer_interrupt x.timer = .ok (taken, t)
      ∧ Inv { x with timer := t, woken := x.woken ++ taken }
      ∧ (WokenExactly { x with timer := t, woken := x.woken ++ taken } ↔ ¬ x.timer.Misses) := by
  have hT : 0 < x.timer.ticks + 1 := Int.lt_add_one_of_le h.ticks_nonneg
  unfold Pintos.timer_interrupt
  dsimp only
  split
  case isTrue hfire =>
    obtain ⟨taken, t, hwake, hticks, hinv, hlater⟩ := h.wake_up hT
    have hinv := hinv (by omega)
    refine ⟨taken, t, hwake, hinv, ?_⟩
    rw [wokenExactly_iff hinv.split hinv.woken_due]
    dsimp only
    rw [hticks]
    refine iff_of_true hlater ?_
    rintro ⟨-, hnull | hlate⟩
    · exact hfire.1 hnull
    · omega
  case isFalse hquiet =>
    -- nothing is woken, and the clock has moved on
    have hinv : Inv { x with timer := { x.timer with ticks := x.timer.ticks + 1 }, woken := x.woken ++ [] } := by
      refine ⟨h.placed, hT.le, h.sorted, h.cached, h.parked, h.once, h.target, ?_, fun e he => ?_⟩
      · rw [List.append_nil]
        exact h.split
      · rw [List.append_nil] at he
        have hdue := h.woken_due e he
        dsimp only
        omega
    refine ⟨[], _, rfl, hinv, ?_⟩
    rw [wokenExactly_iff hinv.split hinv.woken_due]
    dsimp only
    have hcached := h.cached
    unfold timer.Cached at hcached
    unfold timer.Misses
    cases hl : x.timer.block_thread_list with
    | nil => simp
    | cons a l =>
        rw [hl] at hcached
        dsimp only at hcached
        simp only [List.head?_cons, Option.some.injEq, exists_eq_left']
        by_cases hzero : a.wakeup_tick = 0
        · -- the front is due and stays
          rw [if_pos hzero] at hcached
          refine iff_of_false (fun hlater => ?_) (not_not.mpr ⟨hzero, by omega⟩)
          have ha := hlater a List.mem_cons_self
          omega
        · rw [if_neg hzero] at hcached
          refine iff_of_true (all_later (hl ▸ h.sorted) fun e he => ?_) fun hm => hzero hm.1
          obtain rfl := Option.some.inj he
          omega

/-- **One event** keeps the invariant. -/
theorem Inv.step {x' : alarm} (h : x.Inv) {a : alarm_event} (hstep : alarm_step x a = some x') :
    x'.Inv := by
  cases a with
  | timer_sleep n =>
      unfold alarm_step at hstep
      dsimp only at hstep
      split at hstep
      · cases hstep
      · rename_i cur hc
        split at hstep
        · obtain rfl := Option.some.inj hstep
          refine ⟨h.placed, h.ticks_nonneg, h.sorted, h.cached, h.parked, h.once, fun t e he => ?_,
            h.split, h.woken_due⟩
          change Function.update x.timer.target cur _ t = some e at he
          by_cases htc : t = cur
          · rw [htc, Function.update_self] at he
            obtain rfl := Option.some.inj he
            exact htc.symm
          · rw [Function.update_of_ne htc] at he
            exact h.target t e he
        · cases hstep
  | block =>
      unfold alarm_step at hstep
      dsimp only at hstep
      split at hstep
      · cases hstep
      · rename_i cur hc
        split at hstep
        · cases hstep
        · rename_i target ht
          obtain rfl := Option.some.inj hstep
          exact h.block hc ht
  | timer_interrupt =>
      obtain ⟨taken, t, hint, hinv, -⟩ := h.timer_interrupt
      unfold alarm_step at hstep
      rw [hint] at hstep
      obtain rfl := Option.some.inj hstep
      exact hinv
  | sched a =>
      -- a step of the scheduler that is not about a sleeper
      obtain ⟨s, hs, hne, rfl⟩ : ∃ s, sched_step x.timer.s a = .ok s
          ∧ (∀ t, x.timer.Sleeps t → a ≠ .thread_unblock t)
          ∧ x' = { x with timer := { x.timer with s := s } } := by
        cases a with
        | thread_unblock t =>
            unfold alarm_step at hstep
            dsimp only at hstep
            split at hstep
            · cases hstep
            · rename_i hawake
              obtain ⟨s, hs, rfl⟩ := Option.map_eq_some_iff.mp hstep
              refine ⟨s, Outcome.toOption_eq_some.mp hs, fun u hu heq => ?_, rfl⟩
              obtain rfl := sched_action.thread_unblock.inj heq
              exact hawake hu
        | thread_block =>
            obtain ⟨s, hs, rfl⟩ := Option.map_eq_some_iff.mp hstep
            exact ⟨s, Outcome.toOption_eq_some.mp hs, fun _ _ => nofun, rfl⟩
        | kernel a =>
            obtain ⟨s, hs, rfl⟩ := Option.map_eq_some_iff.mp hstep
            exact ⟨s, Outcome.toOption_eq_some.mp hs, fun _ _ => nofun, rfl⟩
      refine ⟨h.placed.sched_step hs, h.ticks_nonneg, h.sorted, h.cached, fun e he => ?_, h.once,
        h.target, h.split, h.woken_due⟩
      exact (h.parked e he).sched_step (hne _ (List.mem_map_of_mem he)) hs

theorem run_inv {es : List alarm_event} (hrun : alarm_run es alarm_boot = some x) : x.Inv :=
  Runs.invariant (fun _ _ _ h hstep => h.step hstep) alarm_boot_inv hrun

end alarm

/-- **The alarm clock.** In every state of a run the list is in order, its threads are blocked,
and the next interrupt will return; and after every interrupt exactly the sleepers due have
been woken, if and only if no interrupt of the run misses the front of the list. -/
theorem sleepers_woken_along_iff (es : List alarm_event) :
    (∀ pre post x, es = pre ++ post → alarm_run pre alarm_boot = some x →
      x.timer.Sorted
        ∧ (∀ e ∈ x.timer.block_thread_list,
          (x.timer.s.threads e.block_threads).status = .THREAD_BLOCKED)
        ∧ (timer_interrupt x.timer).Returns
        ∧ (pre.getLast? = some .timer_interrupt → x.WokenExactly))
      ↔ ∀ pre post x, es = pre ++ .timer_interrupt :: post → alarm_run pre alarm_boot = some x →
        ¬ x.timer.Misses := by
  constructor
  · intro h pre post x hes hrun
    obtain ⟨taken, t, hint, -, hexact⟩ := (alarm.run_inv hrun).timer_interrupt
    have hstep : alarm_step x .timer_interrupt
        = some { x with timer := t, woken := x.woken ++ taken } := by
      unfold alarm_step
      rw [hint]
    -- the cut behind the interrupt
    have hafter := h (pre ++ [.timer_interrupt]) post _ (by rw [hes, List.append_assoc]; rfl)
      (Runs.run_concat.mpr ⟨x, hrun, hstep⟩)
    exact hexact.mp (hafter.2.2.2 List.getLast?_concat)
  · intro h pre post x hes hrun
    have hinv := alarm.run_inv hrun
    obtain ⟨taken, t, hint, -, -⟩ := hinv.timer_interrupt
    refine ⟨hinv.sorted, fun e he => (hinv.parked e he).blocked, ⟨_, hint⟩, fun hlast => ?_⟩
    obtain ⟨pre, rfl⟩ := List.getLast?_eq_some_iff.mp hlast
    obtain ⟨y, hpre, hstep⟩ := Runs.run_concat.mp hrun
    obtain ⟨taken, t, hint, -, hexact⟩ := (alarm.run_inv hpre).timer_interrupt
    unfold alarm_step at hstep
    rw [hint] at hstep
    obtain rfl := Option.some.inj hstep
    apply hexact.mpr
    exact h pre post y (by rw [hes, List.append_assoc]; rfl) hpre

/-- `main` sleeps for -1 tick in tick 1, and the next interrupt lets it sleep. -/
theorem sleeper_at_zero_missed :
    ∃ x, alarm_run [.timer_interrupt, .timer_sleep (-1), .block,
      .timer_interrupt] alarm_boot = some x
      ∧ x.timer.ticks = 2 ∧ x.filed = [⟨0, 0⟩] ∧ x.woken = [] ∧ ¬ x.WokenExactly :=
  ⟨_, rfl, by decide, by decide, by decide, by decide⟩

end Pintos
