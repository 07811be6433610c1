/-
A lock, as the code around `lock_acquire` and `lock_release` sees it.

`Semaphore.lean` follows every thread through the code of the lock. A user of the lock needs less of
it: a call of `lock_acquire` takes the lock or puts its thread to sleep, a thread that was woken
tests again, and `lock_release` gives the lock back and wakes a sleeper. `Fit` is what holds between
these, and each of them has one lemma that says who has the lock behind it and who waits for it.
-/
import Pintos.Threads.Semaphore

set_option autoImplicit false

namespace Pintos.synch

/-- `struct lock`. -/
structure lock where
  semaphore : sema_state
  holder : Option ℕ

namespace lock

/-- `lock_init`. -/
def lock_init (priority : ℕ → ℤ) : lock where
  semaphore := sema_init 1 priority
  holder := none

/-- `sema_down` of the lock from the test of its loop on, and the end of `lock_acquire`. -/
def sema_down (l : lock) (t : ℕ) : lock :=
  if l.semaphore.sema.value = 0 then { l with semaphore := synch.sema_down l.semaphore t }
  else { semaphore := synch.sema_down l.semaphore t, holder := some t }

/-- `lock_acquire`, up to the end or to the sleep. -/
def lock_acquire (l : lock) (t : ℕ) : Outcome lock := do
  Outcome.assert (l.holder ≠ some t)
  return l.sema_down t

/-- A thread that was woken goes on in `lock_acquire`. -/
def recheck (l : lock) (t : ℕ) : lock :=
  sema_down { l with semaphore := { l.semaphore with woken := l.semaphore.woken.erase t } } t

/-- `lock_release`. -/
def lock_release (l : lock) (t : ℕ) : Outcome lock := do
  Outcome.assert (l.holder = some t)
  return { semaphore := sema_up l.semaphore, holder := none }

/-- The priority of a thread changes, for the waiters of the lock too. -/
def set_priority (l : lock) (t : ℕ) (p : ℤ) : lock :=
  { l with semaphore := { l.semaphore with priority := Function.update l.semaphore.priority t p } }

/-- The thread is inside `lock_acquire`. -/
def Waits (l : lock) (t : ℕ) : Prop := l.semaphore.Waits t

instance (l : lock) (t : ℕ) : Decidable (l.Waits t) :=
    inferInstanceAs (Decidable (l.semaphore.Waits t))

/-- What holds between calls. -/
structure Fit (l : lock) : Prop where
  counted : Counted 1 l.semaphore
  /-- The unit of the semaphore is there while nobody has the lock. -/
  free : l.semaphore.sema.value = if l.holder = none then 1 else 0
  nodup : l.semaphore.queue.Nodup

variable {l : lock} {t : ℕ}

theorem lock_init_fit (priority : ℕ → ℤ) : (lock_init priority).Fit :=
  ⟨Counted.init_counted (by decide) priority, rfl, List.nodup_nil⟩

namespace Fit

theorem value_eq_zero (h : l.Fit) : l.semaphore.sema.value = 0 ↔ l.holder ≠ none := by
  rw [h.free]
  split
  · rename_i hnone
    simp [hnone]
  · rename_i hsome
    simp [hsome]

/-- The test of the loop, where `m` is the semaphore in front of it. -/
theorem test (h : l.Fit) {m : sema_state} (hcounted : Counted 1 (synch.sema_down m t))
    (hvalue : m.sema.value = l.semaphore.sema.value) (hnodup : (t :: m.queue).Nodup) :
    Fit (sema_down { l with semaphore := m } t)
      ∧ ((l.holder = none ∧ (sema_down { l with semaphore := m } t).holder = some t
          ∧ ∀ u, (sema_down { l with semaphore := m } t).Waits u ↔ m.Waits u)
        ∨ (l.holder ≠ none ∧ (sema_down { l with semaphore := m } t).holder = l.holder
          ∧ ∀ u, (sema_down { l with semaphore := m } t).Waits u ↔ u = t ∨ m.Waits u)) := by
  have hleft := Exclusive.value_sema_down m t
  by_cases hzero : m.sema.value = 0
  · -- asleep
    have hsome := h.value_eq_zero.mp (hvalue ▸ hzero)
    have hperm := sema_state.queue_sleep hzero t
    have hdown : sema_down { l with semaphore := m } t
        = { l with semaphore := synch.sema_down m t } :=
      if_pos hzero
    rw [hdown]
    refine ⟨⟨hcounted, ?_, hperm.nodup_iff.mpr hnodup⟩, .inr ⟨hsome, rfl, fun u => ?_⟩⟩
    · dsimp only
      rw [hleft, hzero, if_neg hsome]
    · show (synch.sema_down m t).Waits u ↔ _
      rw [← sema_state.mem_queue, hperm.mem_iff, List.mem_cons, sema_state.mem_queue]
  · -- the lock is taken
    have hnone : l.holder = none := by
      by_contra hsome
      exact hzero (hvalue.trans (h.value_eq_zero.mpr hsome))
    have hqueue := sema_state.queue_take hzero t
    have hdown : sema_down { l with semaphore := m } t
        = { semaphore := synch.sema_down m t, holder := some t } := if_neg hzero
    rw [hdown]
    refine ⟨⟨hcounted, ?_, ?_⟩, .inl ⟨hnone, rfl, fun u => ?_⟩⟩
    · dsimp only
      rw [hleft, hvalue, h.free, if_pos hnone]
      rfl
    · dsimp only
      rw [hqueue]
      exact (List.nodup_cons.mp hnodup).2
    · show (synch.sema_down m t).Waits u ↔ _
      rw [← sema_state.mem_queue, hqueue, sema_state.mem_queue]

/-- **`lock_acquire`** takes the lock if it is free, and sleeps if not. -/
theorem acquire (h : l.Fit) (hout : ¬ l.Waits t) (hne : l.holder ≠ some t) :
    ∃ l', l.lock_acquire t = .ok l' ∧ l'.Fit
      ∧ ((l.holder = none ∧ l'.holder = some t ∧ ∀ u, l'.Waits u ↔ l.Waits u)
        ∨ (l.holder ≠ none ∧ l'.holder = l.holder ∧ ∀ u, l'.Waits u ↔ u = t ∨ l.Waits u)) := by
  have hnodup : (t :: l.semaphore.queue).Nodup :=
    List.nodup_cons.mpr ⟨fun ht => hout (sema_state.mem_queue.mp ht), h.nodup⟩
  obtain ⟨hfit, hcases⟩ := h.test (h.counted.sema_down t) rfl hnodup
  refine ⟨l.sema_down t, ?_, hfit, hcases⟩
  unfold lock_acquire
  rw [Outcome.assert_pos hne]
  rfl

/-- **A woken thread** takes the lock if it is still free, and sleeps again if not. -/
theorem rechecked (h : l.Fit) (ht : t ∈ l.semaphore.woken) :
    (l.recheck t).Fit
      ∧ ((l.holder = none ∧ (l.recheck t).holder = some t
          ∧ ∀ u, (l.recheck t).Waits u ↔ u ≠ t ∧ l.Waits u)
        ∨ (l.holder ≠ none ∧ (l.recheck t).holder = l.holder ∧ ∀ u, (l.recheck t).Waits u
          ↔ l.Waits u)) := by
  have hperm := sema_state.queue_erase ht
  have hnodup := hperm.nodup_iff.mp h.nodup
  have hmem : ∀ u, l.Waits u ↔ u = t
      ∨ ({ l.semaphore with woken := l.semaphore.woken.erase t } : sema_state).Waits u := by
    intro u
    show l.semaphore.Waits u ↔ _
    rw [← sema_state.mem_queue, hperm.mem_iff, List.mem_cons, sema_state.mem_queue]
  have hout : ¬ ({ l.semaphore with woken := l.semaphore.woken.erase t } : sema_state).Waits t := by
    rw [← sema_state.mem_queue]
    exact (List.nodup_cons.mp hnodup).1
  obtain ⟨hfit, hcases⟩ := h.test (h.counted.recheck ht) rfl hnodup
  refine ⟨hfit, ?_⟩
  rcases hcases with ⟨hnone, hholder, hwaits⟩ | ⟨hsome, hholder, hwaits⟩
  · refine .inl ⟨hnone, hholder, fun u => ?_⟩
    show (sema_down _ t).Waits u ↔ _
    rw [hwaits, hmem]
    constructor
    · intro hu
      exact ⟨fun heq => hout (heq ▸ hu), .inr hu⟩
    · rintro ⟨hne, heq | hu⟩
      · exact absurd heq hne
      · exact hu
  · refine .inr ⟨hsome, hholder, fun u => ?_⟩
    show (sema_down _ t).Waits u ↔ _
    rw [hwaits, hmem]

/-- **`lock_release`** by the holder. -/
theorem release (h : l.Fit) (hholder : l.holder = some t) :
    ∃ l', l.lock_release t = .ok l' ∧ l'.Fit ∧ l'.holder = none ∧ ∀ u, l'.Waits u ↔ l.Waits u := by
  have hzero : l.semaphore.sema.value = 0 := h.value_eq_zero.mpr (by simp [hholder])
  have hperm := sema_state.queue_sema_up (s := l.semaphore)
  have hvalue : (sema_up l.semaphore).sema.value = 1 := by
    obtain ⟨hwake, -⟩ := h.counted.sema_up_wake_spec
    show ((sema_up_wake l.semaphore).sema.value + 1) % 2 ^ 32 = 1
    rw [hwake, hzero]
    rfl
  refine ⟨{ semaphore := sema_up l.semaphore, holder := none }, ?_,
    ⟨h.counted.sema_up, hvalue, hperm.nodup_iff.mpr h.nodup⟩, rfl, fun u => ?_⟩
  · unfold lock_release
    rw [Outcome.assert_pos hholder]
    rfl
  · show (sema_up l.semaphore).Waits u ↔ l.semaphore.Waits u
    rw [← sema_state.mem_queue, hperm.mem_iff, sema_state.mem_queue]

/-- Priorities do not matter to who has the lock. -/
theorem reprioritised (h : l.Fit) (t : ℕ) (p : ℤ) : (l.set_priority t p).Fit :=
  ⟨⟨h.counted.bound, h.counted.turns, h.counted.wakes⟩, h.free, h.nodup⟩

/-- While the lock is free, one of those who wait for it was woken. -/
theorem woken (h : l.Fit) (hnone : l.holder = none) (ht : l.Waits t) : l.semaphore.woken ≠ [] := by
  rcases ht with hwait | hwoken
  · have hle := h.counted.wakes (List.ne_nil_of_mem hwait)
    rw [h.free, if_pos hnone] at hle
    exact List.ne_nil_of_length_pos hle
  · exact List.ne_nil_of_mem hwoken

end Fit

end lock

end Pintos.synch
