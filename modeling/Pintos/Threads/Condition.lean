/-
Condition variables of `threads/synch.c`: one condition, the lock that goes with it, and
any number of threads.

A thread in `cond_wait` is in the list of waiters from before it releases the lock until
it is signalled. It blocks on a semaphore of its own, on its stack; until it does, that
semaphore has no waiters, and `compare_priority_for_cond`, which finds a thread's
priority there, puts it behind everybody else.

The steps are those of the lock's machine, with the sections of `cond_wait` and
`cond_signal` between them. `cond_signal` is one step, the moment of the signal;
`cond_broadcast` is a row of signals. Priorities change at any time.
-/
import Pintos.Lib.Queue
import Pintos.Lib.Runs
import Pintos.Threads.Semaphore
import Mathlib

set_option autoImplicit false

namespace Pintos.synch

/-! ## Steps -/

/-- Where a thread is in `cond_wait`. -/
inductive wait_phase
  | outside
  /-- In the list, in `lock_release` or behind it, in front of `sema_down`. -/
  | releasing
  /-- In the list of its own semaphore. -/
  | blocked
  /-- Unblocked, but not yet back in the loop of `sema_down`. -/
  | woken
  /-- Behind `sema_down`, in `lock_acquire`. -/
  | acquiring
  deriving DecidableEq, Repr

/-- A condition variable, its lock, and the threads at them. -/
structure cond_state where
  lock : lock_state
  /-- `cond->waiters`: each `struct semaphore_elem` by the thread it belongs to. -/
  waiters : List ℕ
  /-- The semaphore in the `struct semaphore_elem` of a thread. -/
  semaphore : ℕ → Pintos.synch.semaphore
  phase : ℕ → wait_phase

namespace cond_state

/-- A thread's priority. -/
def priority (s : cond_state) (t : ℕ) : ℤ := s.lock.semaphore.priority t

/-- `compare_priority`. -/
def less (s : cond_state) (a b : ℕ) : Prop := s.priority a > s.priority b

instance (s : cond_state) : DecidableRel s.less := fun _ _ => inferInstanceAs (Decidable (_ > _))

/-- `compare_priority_for_cond`. -/
def less_for_cond (s : cond_state) (a b : ℕ) : Prop :=
  match (s.semaphore a).waiters, (s.semaphore b).waiters with
  | [], _ => False
  | _ :: _, [] => True
  | t1 :: _, t2 :: _ => s.priority t1 > s.priority t2

instance (s : cond_state) : DecidableRel s.less_for_cond := fun a b => by
  unfold less_for_cond
  split
  · exact .isFalse id
  · exact .isTrue trivial
  · exact Int.decLt _ _

/-- Store into a thread's semaphore. -/
def set_semaphore (s : cond_state) (t : ℕ) (k : Pintos.synch.semaphore) : cond_state :=
  { s with semaphore := Function.update s.semaphore t k }

/-- A thread is at another point. -/
def at_phase (s : cond_state) (t : ℕ) (ph : wait_phase) : cond_state :=
  { s with phase := Function.update s.phase t ph }

end cond_state

/-- `cond_init`. -/
def cond_init (priority : ℕ → ℤ) : cond_state where
  lock := lock_init priority
  waiters := []
  semaphore _ := { value := 0, waiters := [] }
  phase _ := .outside

/-- `cond_wait` by `t`, up to the call of `lock_release`. -/
def cond_wait (s : cond_state) (t : ℕ) : cond_state :=
  let s := s.set_semaphore t { value := 0, waiters := [] }
  { s with waiters := list_insert_ordered s.less_for_cond s.waiters t }.at_phase t .releasing

/-- `sema_down (&waiter.semaphore)` by `t`, from the test of its loop on. -/
def cond_sema_down (s : cond_state) (t : ℕ) : cond_state :=
  let k := s.semaphore t
  if k.value = 0 then
    (s.set_semaphore t { k with waiters := list_insert_ordered s.less k.waiters t }).at_phase t .blocked
  else (s.set_semaphore t { k with value := k.value - 1 }).at_phase t .acquiring

/-- `sema_up` of the semaphore of `w`. -/
def cond_sema_up (s : cond_state) (w : ℕ) : cond_state :=
  let k := s.semaphore w
  match list_sort s.less k.waiters with
  | [] => s.set_semaphore w { k with value := (k.value + 1) % 2 ^ 32 }
  | t :: rest =>
      (s.set_semaphore w { value := (k.value + 1) % 2 ^ 32, waiters := rest }).at_phase t .woken

/-- `cond_signal`. -/
def cond_signal (s : cond_state) : cond_state :=
  match list_sort s.less_for_cond s.waiters with
  | [] => s
  | w :: rest => cond_sema_up { s with waiters := rest } w

/-- What can happen next. -/
inductive cond_event
  /-- A step of the lock's machine. -/
  | lock (e : lock_event)
  | wait (t : ℕ)
  | sema_down (t : ℕ)
  /-- A woken thread runs, and tests again. -/
  | recheck (t : ℕ)
  /-- The thread has the lock again, and `cond_wait` returns. -/
  | returns (t : ℕ)
  | signal (t : ℕ)
  deriving DecidableEq, Repr

/-- The lock steps that a thread can make: inside `cond_wait` the rest of `lock_release`,
and `lock_acquire`. -/
def cond_state.Allows (s : cond_state) : lock_event → Prop
  | .acquire t => s.phase t = .outside ∨ s.phase t = .acquiring
  | .try_acquire t => s.phase t = .outside
  | .release t => s.phase t = .outside
  | _ => True

instance (s : cond_state) : (e : lock_event) → Decidable (s.Allows e)
  | .acquire _ => inferInstanceAs (Decidable (_ ∨ _))
  | .try_acquire _ => inferInstanceAs (Decidable (_ = _))
  | .release _ => inferInstanceAs (Decidable (_ = _))
  | .down _ => .isTrue trivial
  | .recheck _ => .isTrue trivial
  | .try_down _ => .isTrue trivial
  | .set_holder _ => .isTrue trivial
  | .clear_holder _ => .isTrue trivial
  | .up _ => .isTrue trivial
  | .set_priority _ _ => .isTrue trivial

/-- One step; `none` if the thread is not at that point, or if an assertion stops the
kernel there. -/
def cond_step (s : cond_state) : cond_event → Option cond_state
  | .lock e =>
      if s.Allows e then (lock_step s.lock e).map fun m => { s with lock := m } else none
  | .wait t =>
      if s.phase t = .outside then
        (lock_step s.lock (.release t)).map fun m => cond_wait { s with lock := m } t
      else none
  | .sema_down t =>
      if s.phase t = .releasing ∧ s.lock.phase t = .outside then some (cond_sema_down s t) else none
  | .recheck t => if s.phase t = .woken then some (cond_sema_down s t) else none
  | .returns t =>
      if s.phase t = .acquiring ∧ s.lock.phase t
        = .inside then some (s.at_phase t .outside) else none
  | .signal t =>
      if s.phase t = .outside ∧ s.lock.phase t = .inside ∧ s.lock.holder = some t then
        some (cond_signal s)
      else none

/-- A schedule. -/
def cond_run : List cond_event → cond_state → Option cond_state := Runs.run cond_step

/-! ## The law -/

/-- **The signal wakes `w`**: `w` leaves the list, nobody else does, its semaphore has one unit
more, and nobody waiting has a higher priority. -/
def SignalsBest (s s' : cond_state) : Prop :=
  s.waiters ≠ [] → ∃ w, s.waiters.Perm (w :: s'.waiters)
    ∧ (s.semaphore w).value = 0 ∧ s'.semaphore w = { value := 1, waiters := [] }
    ∧ (∀ u, u ≠ w → s'.semaphore u = s.semaphore u ∧ s'.phase u = s.phase u)
    ∧ s'.phase w = (if s.phase w = .blocked then .woken else s.phase w)
    ∧ ∀ u ∈ s.waiters, s.priority u ≤ s.priority w

/-- **The condition at a signal**: a waiter that is not asleep yet has no higher priority than
some waiter that is asleep; with nobody asleep, than the first in the list. -/
def NoneAhead (s : cond_state) : Prop :=
  if ∃ b ∈ s.waiters, s.phase b = .blocked then
    ∀ u ∈ s.waiters, s.phase u ≠ .blocked →
      ∃ b ∈ s.waiters, s.phase b = .blocked ∧ s.priority u ≤ s.priority b
  else ∀ w, s.waiters.head? = some w → ∀ u ∈ s.waiters, s.priority u ≤ s.priority w

instance (s : cond_state) : Decidable (NoneAhead s) := by
  unfold NoneAhead
  infer_instance

/-- What goes together for a thread: whether it is in the list, where it is in `cond_wait`, and
its semaphore. A listed thread blocks on its own semaphore alone. A thread that was signalled
and is not through `sema_down` has its unit. -/
def WaitPoint (t : ℕ) (listed : Prop) (ph : wait_phase) (k : semaphore) : Prop :=
  (listed ∧ (ph = .releasing ∧ k = ⟨0, []⟩ ∨ ph = .blocked ∧ k = ⟨0, [t]⟩))
    ∨ (¬ listed ∧ ph ≠ .blocked ∧ (ph = .releasing ∨ ph = .woken → k = ⟨1, []⟩))

/-- The invariant of a schedule. -/
structure CondInv (s : cond_state) : Prop where
  nodup : s.waiters.Nodup
  point : ∀ t, WaitPoint t (t ∈ s.waiters) (s.phase t) (s.semaphore t)

namespace CondInv

variable {s s' : cond_state} {t : ℕ}

/-- The semaphore of a waiter. -/
theorem semaphore (h : CondInv s) (ht : t ∈ s.waiters) :
    s.semaphore t = { value := 0, waiters := if s.phase t = .blocked then [t] else [] } := by
  rcases h.point t with ⟨-, ⟨hp, hk⟩ | ⟨hp, hk⟩⟩ | ⟨hnot, -⟩
  · rw [hk, hp]
    rfl
  · rw [hk, hp]
    rfl
  · exact absurd ht hnot

/-- A step of one thread. -/
theorem of_thread (h : CondInv s) (hnodup : s'.waiters.Nodup)
    (hother : ∀ u, u ≠ t → (u ∈ s'.waiters ↔ u ∈ s.waiters) ∧ s'.phase u = s.phase u
      ∧ s'.semaphore u = s.semaphore u)
    (hself : WaitPoint t (t ∈ s'.waiters) (s'.phase t) (s'.semaphore t)) : CondInv s' := by
  refine ⟨hnodup, fun u => ?_⟩
  by_cases hut : u = t
  · rw [hut]
    exact hself
  · obtain ⟨hmem, hphase, hsema⟩ := hother u hut
    rw [hphase, hsema, hmem]
    exact h.point u

end CondInv

/-! ## The order of the waiters -/

section Rank

variable (s : cond_state)

/-- The key that `compare_priority_for_cond` compares: a thread that is not asleep has none. -/
def cond_state.rank (t : ℕ) : WithBot ℤ :=
  if s.phase t = .blocked then (s.priority t : WithBot ℤ) else ⊥

variable {s}

theorem less_for_cond_iff (h : CondInv s) {a b : ℕ} (ha : a ∈ s.waiters) (hb : b ∈ s.waiters) :
    s.less_for_cond a b ↔ s.rank b < s.rank a := by
  unfold cond_state.less_for_cond cond_state.rank
  rw [h.semaphore ha, h.semaphore hb]
  by_cases hpa : s.phase a = .blocked
  · rw [if_pos hpa, if_pos hpa]
    by_cases hpb : s.phase b = .blocked
    · rw [if_pos hpb, if_pos hpb]
      exact WithBot.coe_lt_coe.symm
    · rw [if_neg hpb, if_neg hpb]
      exact iff_of_true trivial (WithBot.bot_lt_coe _)
  · rw [if_neg hpa, if_neg hpa]
    exact iff_of_false id not_lt_bot

/-- The sort of `cond_signal` is by rank. -/
theorem list_sort_for_cond (h : CondInv s) :
    list_sort s.less_for_cond s.waiters = Queue.sort s.rank s.waiters := by
  have hmap := List.map_insertionSort (fun a b => ¬ s.less_for_cond b a)
    (fun a b => ¬ s.rank a < s.rank b) id s.waiters fun a ha b hb =>
      not_congr (less_for_cond_iff h hb ha)
  rwa [List.map_id, List.map_id] at hmap

end Rank

/-! ## Signals -/

variable {s s' : cond_state}

/-- **`sema_up` of a waiter's semaphore**: the waiter wakes if it is asleep. -/
theorem cond_sema_up_waiter (h : CondInv s) {w : ℕ} (hw : w ∈ s.waiters) (rest : List ℕ) :
    cond_sema_up { s with waiters := rest } w
      = { s with
          waiters := rest
          semaphore := Function.update s.semaphore w { value := 1, waiters := [] }
          phase := Function.update s.phase w (if s.phase w = .blocked then .woken
            else s.phase w) } := by
  have hsema := h.semaphore hw
  unfold cond_sema_up
  dsimp only
  rw [hsema]
  by_cases hp : s.phase w = .blocked
  · simp only [if_pos hp]
    rfl
  · simp only [if_neg hp, Function.update_eq_self]
    rfl

/-- **`cond_signal`** takes the first waiter by rank. -/
theorem cond_signal_eq (h : CondInv s) (hne : s.waiters ≠ []) :
    ∃ w rest, Queue.sort s.rank s.waiters = w :: rest ∧ w ∈ s.waiters
      ∧ s.waiters.Perm (w :: rest)
      ∧ cond_signal s = { s with
          waiters := rest
          semaphore := Function.update s.semaphore w { value := 1, waiters := [] }
          phase := Function.update s.phase w (if s.phase w = .blocked then .woken
            else s.phase w) } := by
  have hperm := Queue.sort_perm s.rank s.waiters
  cases hsort : Queue.sort s.rank s.waiters with
  | nil =>
      rw [hsort] at hperm
      exact absurd (List.nil_perm.mp hperm) hne
  | cons w rest =>
      rw [hsort] at hperm
      have hw : w ∈ s.waiters := hperm.mem_iff.mp List.mem_cons_self
      refine ⟨w, rest, rfl, hw, hperm.symm, ?_⟩
      unfold cond_signal
      rw [list_sort_for_cond h, hsort]
      exact cond_sema_up_waiter h hw rest

/-- **The signal wakes the best waiter** exactly when nobody is ahead of those asleep. -/
theorem cond_signal_best_iff (h : CondInv s) : SignalsBest s (cond_signal s) ↔ NoneAhead s := by
  unfold SignalsBest NoneAhead
  by_cases hempty : s.waiters = []
  · refine iff_of_true (fun hne => absurd hempty hne) ?_
    simp [hempty]
  obtain ⟨w, rest, hsort, hw, hperm, heq⟩ := cond_signal_eq h hempty
  have hfront := Queue.sort_front hsort
  -- the waiter that is woken is the one the sort puts in front
  have hbest : (s.waiters ≠ [] → ∃ v, s.waiters.Perm (v :: (cond_signal s).waiters)
      ∧ (s.semaphore v).value = 0 ∧ (cond_signal s).semaphore v = { value := 1, waiters := [] }
      ∧ (∀ u, u ≠ v → (cond_signal s).semaphore u = s.semaphore u
        ∧ (cond_signal s).phase u = s.phase u)
      ∧ (cond_signal s).phase v = (if s.phase v = .blocked then .woken else s.phase v)
      ∧ ∀ u ∈ s.waiters, s.priority u ≤ s.priority v)
      ↔ ∀ u ∈ s.waiters, s.priority u ≤ s.priority w := by
    rw [heq]
    constructor
    · intro hall
      obtain ⟨v, hpermv, -, -, -, -, hle⟩ := hall hempty
      have hv : v = w := by
        by_contra hne
        -- `w` is not left behind, so it is `v`
        have hmem : w ∈ v :: rest := hpermv.mem_iff.mp hw
        have hnodup := hperm.nodup_iff.mp h.nodup
        rcases List.mem_cons.mp hmem with heq | hrest
        · exact hne heq.symm
        · exact (List.nodup_cons.mp hnodup).1 hrest
      rw [← hv]
      exact hle
    · intro hle _
      refine ⟨w, hperm, ?_, Function.update_self _ _ _, fun u hu => ?_,
        Function.update_self _ _ _, hle⟩
      · rw [h.semaphore hw]
      · exact ⟨Function.update_of_ne hu _ _, Function.update_of_ne hu _ _⟩
  rw [hbest]
  split
  case isTrue hasleep =>
    -- somebody is asleep, so the front is
    obtain ⟨b₀, hb₀, hpb₀⟩ := hasleep
    have hwb : s.phase w = .blocked := by
      by_contra hp
      have hle := hfront b₀ hb₀
      unfold cond_state.rank at hle
      rw [if_pos hpb₀, if_neg hp] at hle
      exact absurd hle (not_le.mpr (WithBot.bot_lt_coe _))
    have hasleep_le : ∀ b ∈ s.waiters, s.phase b = .blocked → s.priority b ≤ s.priority w := by
      intro b hb hpb
      have hle := hfront b hb
      unfold cond_state.rank at hle
      rw [if_pos hpb, if_pos hwb] at hle
      exact WithBot.coe_le_coe.mp hle
    constructor
    · intro hle u hu _
      exact ⟨w, hw, hwb, hle u hu⟩
    · intro hahead u hu
      by_cases hpu : s.phase u = .blocked
      · exact hasleep_le u hu hpu
      · obtain ⟨b, hb, hpb, hub⟩ := hahead u hu hpu
        exact hub.trans (hasleep_le b hb hpb)
  case isFalse hnone =>
    -- nobody is asleep, so the sort moves nobody
    have hrank : ∀ a ∈ s.waiters, s.rank a = ⊥ := by
      intro a ha
      unfold cond_state.rank
      rw [if_neg fun hp => hnone ⟨a, ha, hp⟩]
    have hsame : Queue.sort s.rank s.waiters = s.waiters :=
      Queue.sort_of_const fun a ha b hb => (hrank a ha).trans (hrank b hb).symm
    rw [hsame] at hsort
    simp [hsort]

/-! ## Schedules -/

namespace CondInv

variable {t : ℕ}

theorem init_inv (priority : ℕ → ℤ) : CondInv (cond_init priority) := by
  refine ⟨List.nodup_nil, fun t => .inr ⟨List.not_mem_nil, nofun, ?_⟩⟩
  rintro (h | h)
  · cases h
  · cases h

/-- What the lock's machine does. -/
theorem set_lock (h : CondInv s) (m : lock_state) : CondInv { s with lock := m } :=
  ⟨h.nodup, h.point⟩

/-- **`cond_wait`**: a thread joins. -/
theorem wait (h : CondInv s) (ht : s.phase t = .outside) : CondInv (cond_wait s t) := by
  have hnot : t ∉ s.waiters := by
    intro hmem
    rcases h.point t with ⟨-, ⟨hp, -⟩ | ⟨hp, -⟩⟩ | ⟨hnot, -⟩
    · rw [ht] at hp
      cases hp
    · rw [ht] at hp
      cases hp
    · exact hnot hmem
  have hmem : ∀ u, u ∈ (cond_wait s t).waiters ↔ u = t ∨ u ∈ s.waiters :=
    fun u => List.mem_orderedInsert _
  apply h.of_thread (t := t)
  · apply (List.perm_orderedInsert _ _ _).nodup_iff.mpr
    exact List.nodup_cons.mpr ⟨hnot, h.nodup⟩
  · intro u hu
    refine ⟨?_, Function.update_of_ne hu _ _, Function.update_of_ne hu _ _⟩
    rw [hmem u]
    simp [hu]
  · refine .inl ⟨(hmem t).mpr (.inl rfl), .inl ⟨?_, ?_⟩⟩
    · exact Function.update_self _ _ _
    · exact Function.update_self _ _ _

/-- Only the thread itself is at another point. -/
theorem update_point (h : CondInv s) {ph : wait_phase} {k : Pintos.synch.semaphore}
    (hself : WaitPoint t (t ∈ s.waiters) ph k) : CondInv ((s.set_semaphore t k).at_phase t ph) := by
  refine h.of_thread (t := t) h.nodup (fun u hu => ⟨Iff.rfl, ?_, ?_⟩) ?_
  · exact Function.update_of_ne hu _ _
  · exact Function.update_of_ne hu _ _
  · change WaitPoint t _ (Function.update s.phase t ph t) (Function.update s.semaphore t k t)
    rw [Function.update_self, Function.update_self]
    exact hself

/-- **`sema_down`** of its own semaphore: a waiter goes to sleep, and a thread that was
signalled goes on. -/
theorem sema_down (h : CondInv s) (ht : s.phase t = .releasing ∨ s.phase t = .woken) :
    CondInv (cond_sema_down s t) := by
  unfold cond_sema_down
  rcases h.point t with ⟨hmem, ⟨-, hk⟩ | ⟨hp, -⟩⟩ | ⟨hnot, -, hk⟩
  · rw [hk]
    exact h.update_point (.inl ⟨hmem, .inr ⟨rfl, rfl⟩⟩)
  · rw [hp] at ht
    rcases ht with ht | ht
    · cases ht
    · cases ht
  · rw [hk ht]
    refine h.update_point (.inr ⟨hnot, nofun, ?_⟩)
    rintro (hp | hp)
    · cases hp
    · cases hp

/-- **`cond_signal`**. -/
theorem signal (h : CondInv s) : CondInv (cond_signal s) := by
  by_cases hempty : s.waiters = []
  · unfold cond_signal
    rw [hempty]
    exact h
  obtain ⟨w, rest, -, hw, hperm, heq⟩ := cond_signal_eq h hempty
  obtain ⟨hnot, hnodup⟩ := List.nodup_cons.mp (hperm.nodup_iff.mp h.nodup)
  rw [heq]
  refine h.of_thread (t := w) hnodup (fun u hu => ⟨?_, ?_, ?_⟩) (.inr ⟨hnot, ?_, fun _ => ?_⟩)
  · rw [hperm.mem_iff]
    simp [hu]
  · exact Function.update_of_ne hu _ _
  · exact Function.update_of_ne hu _ _
  · dsimp only
    rw [Function.update_self]
    split
    · decide
    · assumption
  · exact Function.update_self _ _ _

/-- **One step.** -/
theorem step (h : CondInv s) {e : cond_event} (hstep : cond_step s e = some s') : CondInv s' := by
  cases e with
  | lock e =>
      obtain ⟨-, hret⟩ := Option.ite_none_right_eq_some.mp hstep
      obtain ⟨m, -, rfl⟩ := Option.map_eq_some_iff.mp hret
      exact h.set_lock m
  | wait t =>
      obtain ⟨ht, hret⟩ := Option.ite_none_right_eq_some.mp hstep
      obtain ⟨m, -, rfl⟩ := Option.map_eq_some_iff.mp hret
      exact (h.set_lock m).wait ht
  | sema_down t =>
      obtain ⟨ht, hret⟩ := Option.ite_none_right_eq_some.mp hstep
      obtain rfl := Option.some.inj hret
      exact h.sema_down (.inl ht.1)
  | recheck t =>
      obtain ⟨ht, hret⟩ := Option.ite_none_right_eq_some.mp hstep
      obtain rfl := Option.some.inj hret
      exact h.sema_down (.inr ht)
  | returns t =>
      obtain ⟨ht, hret⟩ := Option.ite_none_right_eq_some.mp hstep
      obtain rfl := Option.some.inj hret
      refine h.of_thread (t := t) h.nodup (fun u hu => ⟨Iff.rfl, ?_, rfl⟩) ?_
      · exact Function.update_of_ne hu _ _
      · -- a thread in `lock_acquire` is not in the list any more
        change WaitPoint t _ (Function.update s.phase t _ t) _
        rw [Function.update_self]
        rcases h.point t with ⟨-, ⟨hp, -⟩ | ⟨hp, -⟩⟩ | ⟨hnot, -, -⟩
        · rw [ht.1] at hp
          cases hp
        · rw [ht.1] at hp
          cases hp
        · refine .inr ⟨hnot, nofun, ?_⟩
          rintro (hp | hp)
          · cases hp
          · cases hp
  | signal t =>
      obtain ⟨-, hret⟩ := Option.ite_none_right_eq_some.mp hstep
      obtain rfl := Option.some.inj hret
      exact h.signal

theorem run (h : CondInv s) {es : List cond_event} (hrun : cond_run es s = some s') : CondInv s' :=
  Runs.invariant (fun _ _ _ h hstep => h.step hstep) h hrun

end CondInv

/-- **`cond_signal` wakes the best waiter.** On every schedule, from any priorities, each signal
wakes one thread, and none that waits has a higher priority, if and only if at each signal
nobody is ahead of those asleep. -/
theorem signals_best_along_iff (priority : ℕ → ℤ) (es : List cond_event) :
    (∀ pre t post s s', es = pre ++ .signal t :: post → cond_run pre (cond_init priority) = some s →
      cond_step s (.signal t) = some s' → SignalsBest s s')
      ↔ ∀ pre t post s s', es = pre ++ .signal t :: post →
        cond_run pre (cond_init priority) = some s → cond_step s (.signal t) = some s' →
        NoneAhead s := by
  have hsignal : ∀ {pre : List cond_event} {t : ℕ} {s s' : cond_state},
      cond_run pre (cond_init priority) = some s → cond_step s (.signal t) = some s' →
      (SignalsBest s s' ↔ NoneAhead s) := by
    intro pre t s s' hrun hstep
    obtain ⟨-, hret⟩ := Option.ite_none_right_eq_some.mp hstep
    obtain rfl := Option.some.inj hret
    exact cond_signal_best_iff ((CondInv.init_inv priority).run hrun)
  constructor
  · intro h pre t post s s' hes hrun hstep
    exact (hsignal hrun hstep).mp (h pre t post s s' hes hrun hstep)
  · intro h pre t post s s' hes hrun hstep
    exact (hsignal hrun hstep).mpr (h pre t post s s' hes hrun hstep)

/-- A completed `lock_acquire` of a free lock. -/
def acquires (t : ℕ) : List cond_event :=
    [.lock (.acquire t), .lock (.down t), .lock (.set_holder t)]

/-- `cond_wait` up to the end of `lock_release`. -/
def waits (t : ℕ) : List cond_event := [.wait t, .lock (.clear_holder t), .lock (.up t)]

/-- Thread 1, of priority 20, is asleep on the condition. Thread 2, of priority 40, has released
the lock in `cond_wait` when thread 3 takes it and signals: thread 1 is woken. -/
theorem window_overtaken :
    ∃ s s', cond_run (acquires 1 ++ waits 1 ++ [.sema_down 1] ++ acquires 2 ++ waits
      2 ++ acquires 3)
        (cond_init fun t => if t = 1 then 20 else if t = 2 then 40 else 60) = some s
      ∧ cond_step s (.signal 3) = some s' ∧ s.waiters = [1, 2] ∧ s'.waiters = [2]
      ∧ s.priority 1 = 20 ∧ s.priority 2 = 40 ∧ ¬ SignalsBest s s' := by
  refine ⟨_, _, rfl, rfl, by decide, by decide, by decide, by decide, ?_⟩
  intro h
  obtain ⟨w, hperm, -, -, -, -, hle⟩ := h (by decide)
  -- the list has lost thread 1
  have hw : w = 1 := by
    have hmem : w ∈ [1, 2] := hperm.mem_iff.mpr List.mem_cons_self
    have hnodup : (w :: [2]).Nodup := hperm.nodup_iff.mp (by decide)
    simp at hmem hnodup
    omega
  have hbad := hle 2 (by decide)
  rw [hw] at hbad
  exact absurd hbad (by decide)

end Pintos.synch
