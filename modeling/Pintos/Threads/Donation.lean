/-
Priority donation: the law, and exactly which steps keep it.

The law says that a thread's priority is the largest of the priority it was
given and the priorities of the threads that wait for a lock it holds. It speaks
of four things only: who holds what, who waits for what, the priorities, and the
original ones. `donation_view` is that part of the kernel state, and the first
half of this file is about views alone. The second half computes the view after
each call.

The code keeps a second account: the donations recorded in each holder's list,
from which the priority is recomputed by `lock_release` and
`thread_set_priority`. Recording happens once, when a thread starts to wait, and
only if its priority is at least the holder's. So a recomputed priority is right
exactly if the records then agree with the threads that are really waiting
(`Accounts`). Taking a lock recomputes nothing; it is right exactly if nobody
who still waits for the lock has a higher priority (`NoHigherWaiter`). All other
calls keep the law unconditionally; for `lock_acquire` this is the walk along
the chain of holders (`lock_acquire_loop_law`), provided that nothing comes in
between: the locks that `malloc` takes on the way must be free, and giving them
back must not change the caller's priority or make it yield (`Undisturbed`).
Between two turns of the walk the law does not hold; `Inside` says what does.
-/
import Pintos.Threads.Synch
import Mathlib.Order.Bounds.Basic

set_option autoImplicit false

namespace Pintos

/-! ## Greatest elements -/

section Greatest

variable {α : Type} [LinearOrder α] {o x : α} {D W : Set α}

/-- The greatest of `o` and `D` is the greatest of `o` and `W` exactly when each
of the two sets accounts for the other. -/
theorem isGreatest_insert_iff (hx : IsGreatest (insert o D) x) :
    IsGreatest (insert o W) x ↔
      (∀ w ∈ W, w ≤ o ∨ ∃ d ∈ D, w ≤ d) ∧ (∀ d ∈ D, d ≤ o ∨ ∃ w ∈ W, d ≤ w) := by
  obtain ⟨hmem, hub⟩ := hx
  constructor
  · rintro ⟨hmem', hub'⟩
    constructor
    · intro w hw
      have hwx : w ≤ x := hub' (Set.mem_insert_of_mem _ hw)
      rcases hmem with rfl | hxD
      · exact .inl hwx
      · exact .inr ⟨x, hxD, hwx⟩
    · intro d hd
      have hdx : d ≤ x := hub (Set.mem_insert_of_mem _ hd)
      rcases hmem' with rfl | hxW
      · exact .inl hdx
      · exact .inr ⟨x, hxW, hdx⟩
  · rintro ⟨hWD, hDW⟩
    have hox : o ≤ x := hub (Set.mem_insert _ _)
    -- every element of `W` is below `x`, because `o` and `D` are
    have hWx : ∀ w ∈ W, w ≤ x := by
      intro w hw
      rcases hWD w hw with h | ⟨d, hd, h⟩
      · exact h.trans hox
      · exact h.trans (hub (Set.mem_insert_of_mem _ hd))
    refine ⟨?_, ?_⟩
    · rcases hmem with rfl | hxD
      · exact Set.mem_insert _ _
      · rcases hDW x hxD with h | ⟨w, hw, h⟩
        · exact .inl (le_antisymm h hox)
        · exact .inr (le_antisymm h (hWx w hw) ▸ hw)
    · rintro w (rfl | hw)
      · exact hox
      · exact hWx w hw

end Greatest

/-! ## The law -/

/-- What the law speaks of. -/
structure donation_view where
  holder : ℕ → Option ℕ
  waiting : ℕ → Option ℕ
  priority : ℕ → ℤ
  original_priority : ℕ → ℤ

namespace donation_view

variable (v : donation_view)

/-- The priorities of the threads that wait for a lock `t` holds. -/
def waiters (t : ℕ) : Set ℤ :=
  {x | ∃ w l, v.holder l = some t ∧ v.waiting w = some l ∧ v.priority w = x}

/-- **The law of priority donation.** -/
def Law : Prop :=
  ∀ t, IsGreatest (insert (v.original_priority t) (v.waiters t)) (v.priority t)

/-- The law, but for the thread `t`. -/
def LawBut (t : ℕ) : Prop :=
  ∀ t', t' ≠ t → IsGreatest (insert (v.original_priority t') (v.waiters t')) (v.priority t')

/-- Nobody else who waits for `l` has a higher priority than `t`. -/
def NoHigherWaiter (t l : ℕ) : Prop :=
  ∀ w, w ≠ t → v.waiting w = some l → v.priority w ≤ v.priority t

variable {v}

/-! ### Taking a lock -/

/-- The view after `t` has taken the free lock `l`. -/
def take (v : donation_view) (t l : ℕ) : donation_view :=
  { v with holder := Function.update v.holder l (some t),
           waiting := Function.update v.waiting t none }

theorem take_holder_self (t l : ℕ) : (v.take t l).holder l = some t := Function.update_self _ _ _

theorem take_holder_of_ne (t : ℕ) {l k : ℕ} (h : k ≠ l) : (v.take t l).holder k = v.holder k :=
  Function.update_of_ne h _ _

theorem take_waiting_self (t l : ℕ) : (v.take t l).waiting t = none := Function.update_self _ _ _

theorem take_waiting_of_ne {t w : ℕ} (l : ℕ) (h : w ≠ t) :
    (v.take t l).waiting w = v.waiting w := Function.update_of_ne h _ _

/-- Taking a lock keeps the law exactly when no other waiter for it has a higher
priority. -/
theorem take_law_iff (h : v.Law) {t l : ℕ} (hfree : v.holder l = none)
    (hself : v.waiting t = none ∨ v.waiting t = some l) :
    (v.take t l).Law ↔ v.NoHigherWaiter t l := by
  -- a waiter for a lock that was held before is not `t`, and waits as before
  have hold : ∀ {w k t'}, v.holder k = some t' → v.waiting w = some k → w ≠ t := by
    rintro w k t' hk hw rfl
    rcases hself with hs | hs
    · rw [hs] at hw
      cases hw
    · obtain rfl : l = k := Option.some.inj (hs.symm.trans hw)
      rw [hfree] at hk
      cases hk
  constructor
  · intro hlaw w hwt hw
    refine (hlaw t).2 (Set.mem_insert_of_mem _ ⟨w, l, ?_, ?_, rfl⟩)
    · exact take_holder_self t l
    · exact (take_waiting_of_ne l hwt).trans hw
  · intro hno t'
    obtain ⟨hmem, hub⟩ := h t'
    refine ⟨?_, ?_⟩
    · rcases hmem with hx | ⟨w, k, hk, hw, hx⟩
      · exact .inl hx
      · refine .inr ⟨w, k, ?_, ?_, hx⟩
        · refine (take_holder_of_ne t ?_).trans hk
          rintro rfl
          rw [hfree] at hk
          cases hk
        · exact (take_waiting_of_ne l (hold hk hw)).trans hw
    · rintro x (rfl | ⟨w, k, hk, hw, rfl⟩)
      · exact hub (Set.mem_insert _ _)
      · have hwt : w ≠ t := by
          rintro rfl
          rw [take_waiting_self] at hw
          cases hw
        have hw' : v.waiting w = some k := by
          rwa [take_waiting_of_ne l hwt] at hw
        by_cases hkl : k = l
        · subst hkl
          obtain rfl : t = t' := by
            rw [take_holder_self] at hk
            exact Option.some.inj hk
          exact hno w hwt hw'
        · rw [take_holder_of_ne t hkl] at hk
          exact hub (Set.mem_insert_of_mem _ ⟨w, k, hk, hw', rfl⟩)

/-! ### Recomputing a priority -/

/-- The view after the running thread `t` has got a new base and a recomputed
priority. -/
def recalc (v : donation_view) (t : ℕ) (base x : ℤ) : donation_view :=
  { v with priority := Function.update v.priority t x,
           original_priority := Function.update v.original_priority t base }

theorem recalc_priority_self (t : ℕ) (base x : ℤ) : (v.recalc t base x).priority t = x :=
  Function.update_self _ _ _

theorem recalc_priority_of_ne {t w : ℕ} (base x : ℤ) (h : w ≠ t) :
    (v.recalc t base x).priority w = v.priority w := Function.update_of_ne h _ _

theorem recalc_original_self (t : ℕ) (base x : ℤ) :
    (v.recalc t base x).original_priority t = base := Function.update_self _ _ _

theorem recalc_original_of_ne {t w : ℕ} (base x : ℤ) (h : w ≠ t) :
    (v.recalc t base x).original_priority w = v.original_priority w := Function.update_of_ne h _ _

/-- The running thread waits for nothing, so its own priority matters to nobody
else. -/
theorem recalc_law_iff {t : ℕ} (h : v.LawBut t) {base x : ℤ} (hrun : v.waiting t = none) :
    (v.recalc t base x).Law ↔ IsGreatest (insert base (v.waiters t)) x := by
  have hw : ∀ t', (v.recalc t base x).waiters t' = v.waiters t' := by
    intro t'
    ext y
    constructor
    · rintro ⟨w, l, hl, hw, rfl⟩
      have hwt : w ≠ t := by
        rintro rfl
        rw [show v.waiting w = some l from hw] at hrun
        cases hrun
      exact ⟨w, l, hl, hw, (recalc_priority_of_ne base x hwt).symm⟩
    · rintro ⟨w, l, hl, hw, rfl⟩
      have hwt : w ≠ t := by
        rintro rfl
        rw [hw] at hrun
        cases hrun
      exact ⟨w, l, hl, hw, recalc_priority_of_ne base x hwt⟩
  constructor
  · intro hlaw
    have ht := hlaw t
    rw [hw, recalc_original_self, recalc_priority_self] at ht
    exact ht
  · intro hx t'
    rw [hw]
    by_cases htt : t' = t
    · subst htt
      rw [recalc_original_self, recalc_priority_self]
      exact hx
    · rw [recalc_original_of_ne base x htt, recalc_priority_of_ne base x htt]
      exact h t' htt

/-! ### Giving a lock back -/

/-- The view after lock `l` has been given back. -/
def release (v : donation_view) (l : ℕ) : donation_view :=
  { v with holder := Function.update v.holder l none }

theorem release_holder_self (l : ℕ) : (v.release l).holder l = none := Function.update_self _ _ _

theorem release_holder_of_ne {l k : ℕ} (h : k ≠ l) : (v.release l).holder k = v.holder k :=
  Function.update_of_ne h _ _

/-- Only the old holder's waiters change. -/
theorem release_waiters {t l : ℕ} (hl : v.holder l = some t) {t' : ℕ} (ht : t' ≠ t) :
    (v.release l).waiters t' = v.waiters t' := by
  ext x
  constructor
  · rintro ⟨w, k, hk, hw, rfl⟩
    have hkl : k ≠ l := by
      rintro rfl
      rw [release_holder_self] at hk
      cases hk
    rw [release_holder_of_ne hkl] at hk
    exact ⟨w, k, hk, hw, rfl⟩
  · rintro ⟨w, k, hk, hw, rfl⟩
    refine ⟨w, k, (release_holder_of_ne ?_).trans hk, hw, rfl⟩
    rintro rfl
    exact ht (Option.some.inj (hk.symm.trans hl))

theorem release_lawBut (h : v.Law) {t l : ℕ} (hl : v.holder l = some t) :
    (v.release l).LawBut t := by
  intro t' ht
  rw [release_waiters hl ht]
  exact h t'

/-! ### Starting to wait

The walk along the holders repairs the law one thread at a time. Before each
turn it holds everywhere but at the holder of the lock `m` that the walk has
come to; that thread lacks a donation of `p`. -/

/-- The view after `t` has started to wait for `l`. -/
def block (v : donation_view) (t l : ℕ) : donation_view :=
  { v with waiting := Function.update v.waiting t (some l) }

/-- The view after the priority of `t` has become `x`. -/
def raise (v : donation_view) (t : ℕ) (x : ℤ) : donation_view :=
  { v with priority := Function.update v.priority t x }

/-- The law, once the holder of `m` has been given `p`. -/
def LawUpTo (v : donation_view) (m : ℕ) (p : ℤ) : Prop :=
  ∀ t, IsGreatest (insert (v.original_priority t) (v.waiters t))
    (if v.holder m = some t then max (v.priority t) p else v.priority t)

theorem block_waiting_self (t l : ℕ) : (v.block t l).waiting t = some l :=
  Function.update_self _ _ _

theorem block_waiting_of_ne {t w : ℕ} (l : ℕ) (h : w ≠ t) :
    (v.block t l).waiting w = v.waiting w := Function.update_of_ne h _ _

theorem raise_priority_self (t : ℕ) (x : ℤ) : (v.raise t x).priority t = x :=
  Function.update_self _ _ _

theorem raise_priority_of_ne {t w : ℕ} (x : ℤ) (h : w ≠ t) :
    (v.raise t x).priority w = v.priority w := Function.update_of_ne h _ _

/-- A thread that starts to wait owes its priority to the holder. -/
theorem block_lawUpTo (h : v.Law) {t l : ℕ} (hrun : v.waiting t = none) :
    (v.block t l).LawUpTo l (v.priority t) := by
  have hkeep : ∀ {w k}, v.waiting w = some k → (v.block t l).waiting w = some k := by
    intro w k hw
    refine (block_waiting_of_ne l ?_).trans hw
    rintro rfl
    rw [hrun] at hw
    cases hw
  intro t'
  obtain ⟨hmem, hub⟩ := h t'
  have hmem' : v.priority t' ∈ insert (v.original_priority t') ((v.block t l).waiters t') := by
    rcases hmem with hx | ⟨w, k, hk, hw, hx⟩
    · exact .inl hx
    · exact .inr ⟨w, k, hk, hkeep hw, hx⟩
  show IsGreatest (insert (v.original_priority t') ((v.block t l).waiters t'))
    (if v.holder l = some t' then max (v.priority t') (v.priority t) else v.priority t')
  by_cases hl : v.holder l = some t'
  · rw [if_pos hl]
    refine ⟨?_, ?_⟩
    · rcases le_total (v.priority t) (v.priority t') with hle | hle
      · rw [max_eq_left hle]
        exact hmem'
      · rw [max_eq_right hle]
        exact .inr ⟨t, l, hl, block_waiting_self t l, rfl⟩
    · rintro x (rfl | ⟨w, k, hk, hw, rfl⟩)
      · exact (hub (Set.mem_insert _ _)).trans (le_max_left _ _)
      · by_cases hwt : w = t
        · subst hwt
          exact le_max_right _ _
        · rw [block_waiting_of_ne l hwt] at hw
          exact (hub (Set.mem_insert_of_mem _ ⟨w, k, hk, hw, rfl⟩)).trans (le_max_left _ _)
  · rw [if_neg hl]
    refine ⟨hmem', ?_⟩
    rintro x (rfl | ⟨w, k, hk, hw, rfl⟩)
    · exact hub (Set.mem_insert _ _)
    · have hwt : w ≠ t := by
        rintro rfl
        rw [block_waiting_self] at hw
        obtain rfl := Option.some.inj hw
        exact hl hk
      rw [block_waiting_of_ne l hwt] at hw
      exact hub (Set.mem_insert_of_mem _ ⟨w, k, hk, hw, rfl⟩)

/-- The walk may stop at a lock that nobody holds. -/
theorem LawUpTo.of_free {m : ℕ} {p : ℤ} (h : v.LawUpTo m p) (hm : v.holder m = none) : v.Law := by
  intro t
  have ht := h t
  rwa [if_neg (by rw [hm]; simp)] at ht

/-- It may stop at a holder whose priority is higher. -/
theorem LawUpTo.of_higher {m t : ℕ} {p : ℤ} (h : v.LawUpTo m p) (hm : v.holder m = some t)
    (hp : p < v.priority t) : v.Law := by
  intro t'
  have ht := h t'
  by_cases htt : v.holder m = some t'
  · obtain rfl : t = t' := Option.some.inj (hm.symm.trans htt)
    rwa [if_pos htt, max_eq_left hp.le] at ht
  · rwa [if_neg htt] at ht

/-- A lock that nobody waits for may change hands during the walk. -/
theorem LawUpTo.set_holder {m k : ℕ} {p : ℤ} (h : v.LawUpTo m p) (hk : ∀ w, v.waiting w ≠ some k)
    (hm : m ≠ k) (x : Option ℕ) :
    ({ v with holder := Function.update v.holder k x } : donation_view).LawUpTo m p := by
  have hother : ∀ l, l ≠ k → Function.update v.holder k x l = v.holder l := fun l hl =>
    Function.update_of_ne hl _ _
  intro t
  have hwaiters : ({ v with holder := Function.update v.holder k x } : donation_view).waiters t
      = v.waiters t := by
    ext y
    constructor
    · rintro ⟨w, l, hl, hw, rfl⟩
      have hlk : l ≠ k := fun he => hk w (he ▸ hw)
      exact ⟨w, l, (hother l hlk).symm.trans hl, hw, rfl⟩
    · rintro ⟨w, l, hl, hw, rfl⟩
      have hlk : l ≠ k := fun he => hk w (he ▸ hw)
      exact ⟨w, l, (hother l hlk).trans hl, hw, rfl⟩
  have ht := h t
  rw [hwaiters]
  simp only [hother m hm]
  exact ht

/-- Raising a holder changes the waiters of one thread at most: the holder of the
lock it waits for. -/
theorem raise_waiters {t : ℕ} (x : ℤ) {t' : ℕ}
    (ht : ∀ k, v.waiting t = some k → v.holder k ≠ some t') :
    (v.raise t x).waiters t' = v.waiters t' := by
  ext y
  constructor
  · rintro ⟨w, k, hk, hw, rfl⟩
    have hwt : w ≠ t := fun h => ht k (h ▸ hw) hk
    exact ⟨w, k, hk, hw, (raise_priority_of_ne x hwt).symm⟩
  · rintro ⟨w, k, hk, hw, rfl⟩
    have hwt : w ≠ t := fun h => ht k (h ▸ hw) hk
    exact ⟨w, k, hk, hw, raise_priority_of_ne x hwt⟩

section Raise

variable {m t : ℕ} {p : ℤ} (h : v.LawUpTo m p) (hm : v.holder m = some t) (hp : v.priority t ≤ p)
  (hself : ∀ k, v.waiting t = some k → v.holder k ≠ some t)

include h hm hp hself

/-- The raised holder itself is in order now. -/
theorem LawUpTo.raise_self : IsGreatest
    (insert (v.original_priority t) ((v.raise t p).waiters t)) p := by
  have ht := h t
  rw [if_pos hm, max_eq_right hp] at ht
  rwa [raise_waiters p hself]

/-- **One turn of the walk**: the debt moves on to the holder of the lock that the
raised thread waits for. -/
theorem LawUpTo.raise_next {n : ℕ} (hn : v.waiting t = some n) : (v.raise t p).LawUpTo n p := by
  intro t'
  show IsGreatest (insert (v.original_priority t') ((v.raise t p).waiters t'))
    (if v.holder n = some t' then max ((v.raise t p).priority t') p else (v.raise t p).priority t')
  by_cases htt : t' = t
  · subst htt
    rw [if_neg (hself n hn), raise_priority_self]
    exact h.raise_self hm hp hself
  rw [raise_priority_of_ne p htt]
  have ht := h t'
  rw [if_neg fun he => htt (Option.some.inj (he.symm.trans hm))] at ht
  by_cases hnt : v.holder n = some t'
  · have hnew : p ∈ (v.raise t p).waiters t' := ⟨t, n, hnt, hn, raise_priority_self t p⟩
    obtain ⟨hmem, hub⟩ := ht
    rw [if_pos hnt]
    refine ⟨?_, ?_⟩
    · rcases le_total p (v.priority t') with hle | hle
      · rw [max_eq_left hle]
        rcases hmem with hx | ⟨w, k, hk, hw, hx⟩
        · exact .inl hx
        · by_cases hwt : w = t
          · -- the old maximum was the raised thread's: then `p` is no larger
            subst hwt
            obtain rfl : p = v.priority t' := le_antisymm hle (hx ▸ hp)
            exact .inr hnew
          · exact .inr ⟨w, k, hk, hw, (raise_priority_of_ne p hwt).trans hx⟩
      · rw [max_eq_right hle]
        exact .inr hnew
    · rintro x (rfl | ⟨w, k, hk, hw, rfl⟩)
      · exact (hub (Set.mem_insert _ _)).trans (le_max_left _ _)
      · by_cases hwt : w = t
        · subst hwt
          rw [raise_priority_self]
          exact le_max_right _ _
        · rw [raise_priority_of_ne p hwt]
          exact (hub (Set.mem_insert_of_mem _ ⟨w, k, hk, hw, rfl⟩)).trans (le_max_left _ _)
  · rw [if_neg hnt, raise_waiters]
    · exact ht
    · intro k hk
      obtain rfl : n = k := Option.some.inj (hn.symm.trans hk)
      exact hnt

/-- The last turn: the raised thread waits for nothing. -/
theorem LawUpTo.raise_last (hn : v.waiting t = none) : (v.raise t p).Law := by
  intro t'
  by_cases htt : t' = t
  · subst htt
    rw [raise_priority_self]
    exact h.raise_self hm hp hself
  · rw [raise_priority_of_ne p htt, raise_waiters]
    · have ht := h t'
      rwa [if_neg fun he => htt (Option.some.inj (he.symm.trans hm))] at ht
    · intro k hk
      rw [hn] at hk
      cases hk

end Raise

end donation_view

/-! ## The view of the kernel state, and its invariant -/

/-- The part of the kernel state the law speaks of. -/
def kernel.view (s : kernel) : donation_view where
  holder := fun l => (s.locks l).holder
  waiting := fun t => (s.threads t).in_sema_down
  priority := fun t => (s.threads t).priority
  original_priority := fun t => (s.threads t).original_priority

/-- Recorded donations stand in order, the largest first. -/
def Ordered (l : List donation) : Prop := l.Pairwise fun a b => b.priority ≤ a.priority

/-- What the steps keep true besides the law. Inside `lock_release` there is a
moment when the lock has no holder any more and its semaphore is not up yet;
`busy` is that lock, or `none` between steps. `donor` is the thread inside
`create_donation`, or `none` between calls. -/
structure kernel.InvBut (s : kernel) (busy donor : Option ℕ) : Prop where
  /-- `pending_lock` is set exactly while the thread is suspended. -/
  pending : ∀ t, donor ≠ some t → (s.threads t).pending_lock = (s.threads t).in_sema_down
  outside : ∀ t, donor ≠ some t → (s.threads t).in_create_donation = []
  running : ∀ c, s.current = some c → (s.threads c).in_sema_down = none
  value_but : ∀ l, busy ≠ some l →
    (s.locks l).value = if (s.locks l).holder = none then 1 else 0
  /-- Nobody waits for a lock of its own. -/
  self : ∀ t l, (s.threads t).in_sema_down = some l → (s.locks l).holder ≠ some t
  ordered : ∀ t, Ordered (s.threads t).donations
  holder_lt : ∀ l t, (s.locks l).holder = some t → t < s.next_tid
  waiting_lt : ∀ t l, (s.threads t).in_sema_down = some l → t < s.next_tid
  current_lt : ∀ c, s.current = some c → c < s.next_tid
  ready_lt : ∀ t ∈ s.ready_list, t < s.next_tid
  waiters_lt : ∀ l, ∀ t ∈ (s.locks l).waiters, t < s.next_tid

/-- The invariant between calls. -/
abbrev kernel.Inv (s : kernel) : Prop := s.InvBut none none

theorem kernel.InvBut.value {s : kernel} {donor : Option ℕ} (h : s.InvBut none donor) (l : ℕ) :
    (s.locks l).value = if (s.locks l).holder = none then 1 else 0 :=
  h.value_but l (by simp)

theorem kernel_boot_inv : kernel_boot.Inv where
  pending := fun _ _ => rfl
  outside := fun _ _ => rfl
  running := fun _ _ => rfl
  value_but := fun _ _ => rfl
  self := by
    intro t l h
    cases h
  ordered := fun _ => List.Pairwise.nil
  holder_lt := by
    intro l t h
    cases h
  waiting_lt := by
    intro t l h
    cases h
  current_lt := by
    intro c h
    obtain rfl := Option.some.inj h
    exact Nat.one_pos
  ready_lt := by
    intro t h
    cases h
  waiters_lt := by
    intro l t h
    cases h

theorem kernel_boot_law : kernel_boot.view.Law := by
  intro t
  refine ⟨Set.mem_insert _ _, ?_⟩
  rintro x (rfl | ⟨w, l, hl, -, -⟩)
  · exact le_refl _
  · cases hl

/-! ### Assignments -/

namespace kernel

variable {s : kernel} {t l : ℕ} {f : thread → thread} {g : lock → lock}

@[simp] theorem set_thread_self : (s.set_thread t f).threads t = f (s.threads t) :=
  Function.update_self _ _ _

theorem set_thread_of_ne {t' : ℕ} (h : t' ≠ t) : (s.set_thread t f).threads t' = s.threads t' :=
  Function.update_of_ne h _ _

@[simp] theorem set_lock_self : (s.set_lock l g).locks l = g (s.locks l) :=
  Function.update_self _ _ _

theorem set_lock_of_ne {l' : ℕ} (h : l' ≠ l) : (s.set_lock l g).locks l' = s.locks l' :=
  Function.update_of_ne h _ _

@[simp] theorem set_lock_threads : (s.set_lock l g).threads = s.threads := rfl

@[simp] theorem set_thread_locks : (s.set_thread t f).locks = s.locks := rfl

/-- A property of all threads survives an assignment to one that keeps it there. -/
theorem forall_set_thread {P : ℕ → thread → Prop} (h : ∀ t', P t' (s.threads t'))
    (ht : P t (f (s.threads t))) : ∀ t', P t' ((s.set_thread t f).threads t') := by
  intro t'
  by_cases htt : t' = t
  · subst htt
    rw [set_thread_self]
    exact ht
  · rw [set_thread_of_ne htt]
    exact h t'

theorem forall_set_lock {P : ℕ → lock → Prop} (h : ∀ l', P l' (s.locks l'))
    (hl : P l (g (s.locks l))) : ∀ l', P l' ((s.set_lock l g).locks l') := by
  intro l'
  by_cases hll : l' = l
  · subst hll
    rw [set_lock_self]
    exact hl
  · rw [set_lock_of_ne hll]
    exact h l'

/-- An assignment that leaves a field of the thread alone leaves it alone
everywhere. -/
theorem set_thread_field {β : Type} (field : thread → β)
    (h : field (f (s.threads t)) = field (s.threads t)) (t' : ℕ) :
    field ((s.set_thread t f).threads t') = field (s.threads t') :=
  forall_set_thread (P := fun t' th => field th = field (s.threads t')) (fun _ => rfl) h t'

theorem set_lock_field {β : Type} (field : lock → β)
    (h : field (g (s.locks l)) = field (s.locks l)) (l' : ℕ) :
    field ((s.set_lock l g).locks l') = field (s.locks l') :=
  forall_set_lock (P := fun l' k => field k = field (s.locks l')) (fun _ => rfl) h l'

/-- Assignments the law does not see. -/
theorem view_set_thread (hi : (f (s.threads t)).in_sema_down = (s.threads t).in_sema_down)
    (hp : (f (s.threads t)).priority = (s.threads t).priority)
    (ho : (f (s.threads t)).original_priority = (s.threads t).original_priority) :
    (s.set_thread t f).view = s.view := by
  have h1 := set_thread_field (s := s) thread.in_sema_down hi
  have h2 := set_thread_field (s := s) thread.priority hp
  have h3 := set_thread_field (s := s) thread.original_priority ho
  unfold view
  congr 1
  · exact funext h1
  · exact funext h2
  · exact funext h3

theorem view_set_lock (hh : (g (s.locks l)).holder = (s.locks l).holder) :
    (s.set_lock l g).view = s.view := by
  have h1 := set_lock_field (s := s) lock.holder hh
  unfold view
  congr 1
  exact funext h1

/-- An assignment to what a thread waits for. -/
theorem view_set_thread_waiting (hp : (f (s.threads t)).priority = (s.threads t).priority)
    (ho : (f (s.threads t)).original_priority = (s.threads t).original_priority) :
    (s.set_thread t f).view = { s.view with
      waiting := Function.update s.view.waiting t (f (s.threads t)).in_sema_down } := by
  have h2 := set_thread_field (s := s) thread.priority hp
  have h3 := set_thread_field (s := s) thread.original_priority ho
  unfold view
  congr 1
  · funext t'
    by_cases htt : t' = t
    · subst htt
      rw [set_thread_self, Function.update_self]
    · rw [set_thread_of_ne htt, Function.update_of_ne htt]
  · exact funext h2
  · exact funext h3

/-- An assignment to a thread's priorities. -/
theorem view_set_thread_priority
    (hi : (f (s.threads t)).in_sema_down = (s.threads t).in_sema_down) :
    (s.set_thread t f).view
      = s.view.recalc t (f (s.threads t)).original_priority (f (s.threads t)).priority := by
  have h1 := set_thread_field (s := s) thread.in_sema_down hi
  unfold view donation_view.recalc
  congr 1
  · exact funext h1
  · funext t'
    by_cases htt : t' = t
    · subst htt
      rw [set_thread_self, Function.update_self]
    · rw [set_thread_of_ne htt, Function.update_of_ne htt]
  · funext t'
    by_cases htt : t' = t
    · subst htt
      rw [set_thread_self, Function.update_self]
    · rw [set_thread_of_ne htt, Function.update_of_ne htt]

/-- An assignment to a lock's holder. -/
theorem view_set_lock_holder :
    (s.set_lock l g).view = { s.view with
      holder := Function.update s.view.holder l (g (s.locks l)).holder } := by
  unfold view
  congr 1
  funext l'
  by_cases hll : l' = l
  · subst hll
    rw [set_lock_self, Function.update_self]
  · rw [set_lock_of_ne hll, Function.update_of_ne hll]

theorem InvBut.set_thread {busy donor : Option ℕ} (h : s.InvBut busy donor)
    (hp : (f (s.threads t)).pending_lock = (s.threads t).pending_lock)
    (hi : (f (s.threads t)).in_sema_down = (s.threads t).in_sema_down)
    (hd : (f (s.threads t)).in_create_donation = (s.threads t).in_create_donation)
    (ho : Ordered (f (s.threads t)).donations) : (s.set_thread t f).InvBut busy donor := by
  have hpend := set_thread_field (s := s) thread.pending_lock hp
  have hin := set_thread_field (s := s) thread.in_sema_down hi
  have hcall := set_thread_field (s := s) thread.in_create_donation hd
  exact {
    pending := fun t' ht' => by rw [hpend, hin]; exact h.pending t' ht'
    outside := fun t' ht' => by rw [hcall]; exact h.outside t' ht'
    running := fun c hc => by rw [hin]; exact h.running c hc
    value_but := h.value_but
    self := fun t' k hk => by rw [hin] at hk; exact h.self t' k hk
    ordered := forall_set_thread (P := fun _ th => Ordered th.donations) h.ordered ho
    holder_lt := h.holder_lt
    waiting_lt := fun t' k hk => by rw [hin] at hk; exact h.waiting_lt t' k hk
    current_lt := h.current_lt
    ready_lt := h.ready_lt
    waiters_lt := h.waiters_lt }

/-- The donor's own record is free, but for what it waits for. -/
theorem InvBut.set_donor {busy : Option ℕ} (h : s.InvBut busy (some t))
    (hi : (f (s.threads t)).in_sema_down = (s.threads t).in_sema_down)
    (ho : Ordered (f (s.threads t)).donations) : (s.set_thread t f).InvBut busy (some t) := by
  have hin := set_thread_field (s := s) thread.in_sema_down hi
  have hne : ∀ t', some t ≠ some t' → t' ≠ t := fun t' ht' he => ht' (he ▸ rfl)
  exact { h with
    pending := fun t' ht' => by rw [set_thread_of_ne (hne t' ht')]; exact h.pending t' ht'
    outside := fun t' ht' => by rw [set_thread_of_ne (hne t' ht')]; exact h.outside t' ht'
    running := fun c hc => by rw [hin]; exact h.running c hc
    self := fun t' k hk => by rw [hin] at hk; exact h.self t' k hk
    ordered := forall_set_thread (P := fun _ th => Ordered th.donations) h.ordered ho
    waiting_lt := fun t' k hk => by rw [hin] at hk; exact h.waiting_lt t' k hk }

/-- Between calls anybody may become the donor. -/
theorem InvBut.donor {busy : Option ℕ} (h : s.InvBut busy none) (t : ℕ) : s.InvBut busy (some t) :=
  { h with
    pending := fun t' _ => h.pending t' (by simp)
    outside := fun t' _ => h.outside t' (by simp) }

theorem InvBut.set_lock {busy donor : Option ℕ} (h : s.InvBut busy donor)
    (hh : (g (s.locks l)).holder = (s.locks l).holder)
    (hv : (g (s.locks l)).value = (s.locks l).value)
    (hw : ∀ t ∈ (g (s.locks l)).waiters, t < s.next_tid) : (s.set_lock l g).InvBut busy donor := by
  have hhold := set_lock_field (s := s) lock.holder hh
  have hval := set_lock_field (s := s) lock.value hv
  exact {
    pending := h.pending
    outside := h.outside
    running := h.running
    value_but := fun l' hb => by rw [hhold, hval]; exact h.value_but l' hb
    self := fun t' k hk => by rw [hhold]; exact h.self t' k hk
    ordered := h.ordered
    holder_lt := fun l' t' hl' => by rw [hhold] at hl'; exact h.holder_lt l' t' hl'
    waiting_lt := h.waiting_lt
    current_lt := h.current_lt
    ready_lt := h.ready_lt
    waiters_lt := forall_set_lock (P := fun _ k => ∀ t ∈ k.waiters, t < s.next_tid)
      h.waiters_lt hw }

end kernel

/-! ## The calls

For each function: the view afterwards, and the invariant. -/

theorem Ordered.insert {l : List donation} (h : Ordered l) (d : donation) :
    Ordered (list_insert_ordered compare_priority_for_donate l d) := by
  induction l with
  | nil => exact List.pairwise_singleton _ _
  | cons x l ih =>
      obtain ⟨hx, hl⟩ := List.pairwise_cons.mp h
      rw [list_insert_ordered, List.orderedInsert_cons]
      by_cases hlt : compare_priority_for_donate d x
      · rw [if_pos hlt]
        refine List.pairwise_cons.mpr ⟨fun y hy => ?_, h⟩
        have hxd : x.priority < d.priority := hlt
        rcases List.mem_cons.mp hy with rfl | hy
        · exact hxd.le
        · exact (hx y hy).trans hxd.le
      · rw [if_neg hlt]
        refine List.pairwise_cons.mpr ⟨fun y hy => ?_, ih hl⟩
        have hdx : d.priority ≤ x.priority := not_lt.mp hlt
        rcases mem_list_insert_ordered.mp hy with rfl | hy
        · exact hdx
        · exact hx y hy

theorem ordered_list_sort (l : List donation) :
    Ordered (list_sort compare_priority_for_donate l) := by
  have : IsTrans donation fun a b => ¬ compare_priority_for_donate b a :=
    ⟨fun a b c hab hbc => not_lt.mpr ((not_lt.mp hbc).trans (not_lt.mp hab))⟩
  have : Std.Total fun a b : donation => ¬ compare_priority_for_donate b a :=
    ⟨fun a b => (le_total b.priority a.priority).imp not_lt.mpr not_lt.mpr⟩
  exact (List.pairwise_insertionSort (fun a b => ¬ compare_priority_for_donate b a) l).imp
    fun h => not_lt.mp h

/-- The front of an ordered list of donations is its maximum. -/
theorem isGreatest_front {front : donation} {rest : List donation} (h : Ordered (front :: rest))
    (base : ℤ) :
    IsGreatest (insert base {x | ∃ d ∈ front :: rest, d.priority = x})
      (if front.priority > base then front.priority else base) := by
  have hle : ∀ d ∈ front :: rest, d.priority ≤ front.priority := by
    intro d hd
    rcases List.mem_cons.mp hd with rfl | hd
    · exact le_refl _
    · exact (List.pairwise_cons.mp h).1 d hd
  by_cases hb : front.priority > base
  · rw [if_pos hb]
    refine ⟨.inr ⟨front, List.mem_cons_self, rfl⟩, ?_⟩
    rintro x (rfl | ⟨d, hd, rfl⟩)
    · exact hb.le
    · exact hle d hd
  · rw [if_neg hb]
    refine ⟨Set.mem_insert _ _, ?_⟩
    rintro x (rfl | ⟨d, hd, rfl⟩)
    · exact le_refl _
    · exact (hle d hd).trans (not_lt.mp hb)

namespace kernel

variable {s s' : kernel} {donor : Option ℕ}

/-! ### Scheduling -/

theorem InvBut.set_ready {busy : Option ℕ} (h : s.InvBut busy donor) {r : List ℕ}
    (hr : ∀ t ∈ r, t < s.next_tid) : ({ s with ready_list := r }).InvBut busy donor :=
  { h with ready_lt := hr }

/-- The running thread gives up the CPU. -/
theorem InvBut.no_current (h : s.InvBut none donor) {r : List ℕ} (hr : ∀ t ∈ r, t < s.next_tid) :
    ({ s with ready_list := r, current := none }).InvBut none donor :=
  { h with
    running := fun _ hc => by cases hc
    current_lt := fun _ hc => by cases hc
    ready_lt := hr }

theorem thread_unblock_ok {t : ℕ} (hrun : thread_unblock s t = .ok s') :
    s'.view = s.view ∧ s'.current = s.current ∧ s'.locks = s.locks ∧ s'.next_tid = s.next_tid
      ∧ ∀ busy donor, s.InvBut busy donor → t < s.next_tid → s'.InvBut busy donor := by
  rw [thread_unblock, Outcome.bind_eq_ok] at hrun
  obtain ⟨-, -, hrun⟩ := hrun
  obtain rfl := Outcome.ok.inj hrun
  refine ⟨view_set_thread rfl rfl rfl, rfl, rfl, rfl, fun busy donor h ht => ?_⟩
  refine InvBut.set_thread (h.set_ready fun t' ht' => ?_) rfl rfl rfl (h.ordered t)
  rcases mem_list_insert_ordered.mp ht' with rfl | ht'
  · exact ht
  · exact h.ready_lt t' ht'

theorem view_thread_yield (s : kernel) (cur : ℕ) : (thread_yield s cur).view = s.view := by
  unfold thread_yield
  exact view_set_thread rfl rfl rfl

theorem InvBut.thread_yield (h : s.Inv) {cur : ℕ} (hc : cur < s.next_tid) :
    (thread_yield s cur).Inv := by
  unfold Pintos.thread_yield
  refine InvBut.set_thread (h.no_current fun t' ht' => ?_) rfl rfl rfl (h.ordered cur)
  rcases mem_list_insert_ordered.mp ht' with rfl | ht'
  · exact hc
  · exact h.ready_lt t' ht'

theorem view_compare_cur_next_priority (s : kernel) (cur : ℕ) :
    (compare_cur_next_priority s cur).view = s.view := by
  unfold compare_cur_next_priority
  split
  · rfl
  · dsimp only
    split
    · exact view_thread_yield _ _
    · rfl

theorem InvBut.compare_cur_next_priority (h : s.Inv) {cur : ℕ} (hc : cur < s.next_tid) :
    (compare_cur_next_priority s cur).Inv := by
  unfold Pintos.compare_cur_next_priority
  split
  · exact h
  · rename_i next rest hsort
    have hready : ({ s with ready_list := next :: rest }).Inv := by
      refine h.set_ready fun t ht => h.ready_lt t ?_
      rw [← hsort] at ht
      exact mem_list_sort.mp ht
    dsimp only
    split
    · exact hready.thread_yield hc
    · exact hready

/-! ### `sema_down` -/

/-- Going to sleep in `sema_down`. -/
theorem view_sema_down_block {cur l : ℕ} (hv : (s.locks l).value = 0) :
    (sema_down s cur l).view = s.view.block cur l := by
  unfold sema_down
  rw [if_pos hv]
  dsimp only
  rw [show ∀ x : kernel, ({ x with current := none } : kernel).view = x.view from fun _ => rfl,
    view_set_thread_waiting rfl rfl, view_set_lock rfl]
  rfl

/-- Getting the lock. -/
theorem view_sema_down_take {cur l : ℕ} (hv : (s.locks l).value ≠ 0) :
    (sema_down s cur l).view = s.view.take cur l := by
  unfold sema_down
  rw [if_neg hv]
  dsimp only
  rw [view_set_lock_holder, view_set_thread_waiting rfl rfl, view_set_lock rfl]
  rfl

/-- The thread and the lock after `sema_down` has got the lock. -/
theorem sema_down_take_fields (cur : ℕ) {l : ℕ} (hv : (s.locks l).value ≠ 0) :
    (∀ t, t ≠ cur → (sema_down s cur l).threads t = s.threads t)
      ∧ (sema_down s cur l).threads cur
          = { s.threads cur with pending_lock := none, in_sema_down := none }
      ∧ (∀ k, k ≠ l → (sema_down s cur l).locks k = s.locks k)
      ∧ (sema_down s cur l).locks l
          = { s.locks l with value := (s.locks l).value - 1, holder := some cur }
      ∧ (sema_down s cur l).ready_list = s.ready_list
      ∧ (sema_down s cur l).current = s.current ∧ (sema_down s cur l).next_tid = s.next_tid := by
  simp only [sema_down, if_neg hv]
  refine ⟨fun t ht => ?_, ?_, fun k hk => ?_, ?_, rfl, rfl, rfl⟩
  · rw [set_lock_threads, set_thread_of_ne ht, set_lock_threads]
  · rw [set_lock_threads, set_thread_self, set_lock_threads]
  · rw [set_lock_of_ne hk, set_thread_locks, set_lock_of_ne hk]
  · rw [set_lock_self, set_thread_locks, set_lock_self]

/-- A thread that gets the lock it was suspended for, or a free lock. -/
theorem InvBut.sema_down_take {cur l : ℕ}
    (h : ({ s with current := none } : kernel).InvBut none donor)
    (hlt : cur < s.next_tid) (hfree : (s.locks l).holder = none)
    (hcur : s.current = some cur) : (sema_down s cur l).InvBut none donor := by
  have hone : (s.locks l).value = 1 := by
    have := h.value l
    rwa [if_pos hfree] at this
  obtain ⟨hth, hthc, hlk, hlkl, hready, hcurr, hnext⟩ :=
    sema_down_take_fields cur (l := l) (s := s) (by omega)
  -- a thread that still waits is another one
  have hwait : ∀ t k, ((sema_down s cur l).threads t).in_sema_down = some k →
      t ≠ cur ∧ (s.threads t).in_sema_down = some k := by
    intro t k hk
    have htc : t ≠ cur := by
      rintro rfl
      rw [hthc] at hk
      cases hk
    rw [hth t htc] at hk
    exact ⟨htc, hk⟩
  refine ⟨?_, ?_, ?_, ?_, ?_, ?_, ?_, ?_, ?_, ?_, ?_⟩
  · intro t ht
    by_cases htc : t = cur
    · subst htc
      rw [hthc]
    · rw [hth t htc]
      exact h.pending t ht
  · intro t ht
    by_cases htc : t = cur
    · subst htc
      rw [hthc]
      exact h.outside t ht
    · rw [hth t htc]
      exact h.outside t ht
  · intro c hc
    rw [hcurr, hcur] at hc
    obtain rfl := Option.some.inj hc
    rw [hthc]
  · intro k _
    by_cases hkl : k = l
    · subst hkl
      rw [hlkl]
      simp [hone]
    · rw [hlk k hkl]
      exact h.value k
  · intro t k hk
    obtain ⟨htc, hk⟩ := hwait t k hk
    by_cases hkl : k = l
    · subst hkl
      rw [hlkl]
      exact fun he => htc (Option.some.inj he).symm
    · rw [hlk k hkl]
      exact h.self t k hk
  · intro t
    by_cases htc : t = cur
    · subst htc
      rw [hthc]
      exact h.ordered t
    · rw [hth t htc]
      exact h.ordered t
  · intro k t hk
    rw [hnext]
    by_cases hkl : k = l
    · subst hkl
      rw [hlkl] at hk
      obtain rfl := Option.some.inj hk
      exact hlt
    · rw [hlk k hkl] at hk
      exact h.holder_lt k t hk
  · intro t k hk
    rw [hnext]
    exact h.waiting_lt t k (hwait t k hk).2
  · intro c hc
    rw [hcurr, hcur] at hc
    obtain rfl := Option.some.inj hc
    rw [hnext]
    exact hlt
  · rw [hready, hnext]
    exact h.ready_lt
  · intro k t ht
    rw [hnext]
    by_cases hkl : k = l
    · subst hkl
      rw [hlkl] at ht
      exact h.waiters_lt k t ht
    · rw [hlk k hkl] at ht
      exact h.waiters_lt k t ht

/-! ### The walk along the holders -/

/-- What the walk leaves alone: everything but priorities, recorded donations and
the order of waiters. -/
structure WalkFrame (s s' : kernel) : Prop where
  pending : ∀ t, (s'.threads t).pending_lock = (s.threads t).pending_lock
  waiting : ∀ t, (s'.threads t).in_sema_down = (s.threads t).in_sema_down
  calls : ∀ t, (s'.threads t).in_create_donation = (s.threads t).in_create_donation
  holder : ∀ l, (s'.locks l).holder = (s.locks l).holder
  value : ∀ l, (s'.locks l).value = (s.locks l).value
  waiters : ∀ l, ∀ t ∈ (s'.locks l).waiters, t ∈ (s.locks l).waiters
  ordered : (∀ t, Ordered (s.threads t).donations) → ∀ t, Ordered (s'.threads t).donations
  ready_list : s'.ready_list = s.ready_list
  current : s'.current = s.current
  next_tid : s'.next_tid = s.next_tid

theorem WalkFrame.refl (s : kernel) : WalkFrame s s :=
  ⟨fun _ => rfl, fun _ => rfl, fun _ => rfl, fun _ => rfl, fun _ => rfl, fun _ _ h => h, fun h => h,
    rfl, rfl, rfl⟩

theorem WalkFrame.trans {s₁ s₂ s₃ : kernel} (h : WalkFrame s₁ s₂) (h' : WalkFrame s₂ s₃) :
    WalkFrame s₁ s₃ where
  pending := fun t => (h'.pending t).trans (h.pending t)
  waiting := fun t => (h'.waiting t).trans (h.waiting t)
  calls := fun t => (h'.calls t).trans (h.calls t)
  holder := fun l => (h'.holder l).trans (h.holder l)
  value := fun l => (h'.value l).trans (h.value l)
  waiters := fun l t ht => h.waiters l t (h'.waiters l t ht)
  ordered := fun ho => h'.ordered (h.ordered ho)
  ready_list := h'.ready_list.trans h.ready_list
  current := h'.current.trans h.current
  next_tid := h'.next_tid.trans h.next_tid

theorem WalkFrame.set_thread {t : ℕ} {f : thread → thread}
    (hp : (f (s.threads t)).pending_lock = (s.threads t).pending_lock)
    (hi : (f (s.threads t)).in_sema_down = (s.threads t).in_sema_down)
    (hd : (f (s.threads t)).in_create_donation = (s.threads t).in_create_donation)
    (ho : Ordered (s.threads t).donations → Ordered (f (s.threads t)).donations) :
    WalkFrame s (s.set_thread t f) where
  pending := set_thread_field (s := s) thread.pending_lock hp
  waiting := set_thread_field (s := s) thread.in_sema_down hi
  calls := set_thread_field (s := s) thread.in_create_donation hd
  holder := fun _ => rfl
  value := fun _ => rfl
  waiters := fun _ _ h => h
  ordered := fun h => forall_set_thread (P := fun _ th => Ordered th.donations) h (ho (h t))
  ready_list := rfl
  current := rfl
  next_tid := rfl

theorem WalkFrame.set_waiters {l : ℕ} {g : lock → lock}
    (hh : (g (s.locks l)).holder = (s.locks l).holder)
    (hv : (g (s.locks l)).value = (s.locks l).value)
    (hw : ∀ t ∈ (g (s.locks l)).waiters, t ∈ (s.locks l).waiters) :
    WalkFrame s (s.set_lock l g) where
  pending := fun _ => rfl
  waiting := fun _ => rfl
  calls := fun _ => rfl
  holder := set_lock_field (s := s) lock.holder hh
  value := set_lock_field (s := s) lock.value hv
  waiters := forall_set_lock
    (P := fun l' k => ∀ t ∈ k.waiters, t ∈ (s.locks l').waiters) (fun _ _ h => h) hw
  ordered := fun h => h
  ready_list := rfl
  current := rfl
  next_tid := rfl

/-- The body of the walk raises the holder to the caller's priority at least, and keeps
the rest. -/
theorem donate_to_walk (s : kernel) (cur pending holder : ℕ) :
    WalkFrame s (donate_to s cur pending holder)
      ∧ (donate_to s cur pending holder).view
        = s.view.raise holder (max (s.threads holder).priority (s.threads cur).priority) := by
  -- the conditional assignment is an assignment
  have hraise : (if (s.threads holder).priority < (s.threads cur).priority then
        s.set_thread holder fun th => { th with priority := (s.threads cur).priority }
      else s) = s.set_thread holder fun th =>
        { th with priority := max (s.threads holder).priority (s.threads cur).priority } := by
    by_cases hlt : (s.threads holder).priority < (s.threads cur).priority
    · rw [if_pos hlt, max_eq_right hlt.le]
    · rw [if_neg hlt, max_eq_left (not_lt.mp hlt), set_thread, Function.update_eq_self]
  unfold donate_to
  rw [hraise]
  dsimp only
  split
  · constructor
    · refine (WalkFrame.set_thread rfl rfl rfl fun h => h).trans
        (WalkFrame.set_thread rfl rfl rfl ?_)
      exact fun h => h.insert _
    · rw [view_set_thread rfl rfl rfl, view_set_thread_priority rfl]
      unfold donation_view.recalc donation_view.raise
      congr 1
      exact Function.update_eq_self _ _
  · constructor
    · refine ((WalkFrame.set_thread rfl rfl rfl fun h => h).trans
        (WalkFrame.set_thread rfl rfl rfl ?_)).trans (WalkFrame.set_waiters rfl rfl ?_)
      · exact fun h => h.insert _
      · exact fun t ht => mem_list_sort.mp ht
    · rw [view_set_lock rfl, view_set_thread rfl rfl rfl, view_set_thread_priority rfl]
      unfold donation_view.recalc donation_view.raise
      congr 1
      exact Function.update_eq_self _ _

/-- During the walk that is the caller's priority. -/
theorem donate_to_spec {cur holder : ℕ} (pending : ℕ)
    (hle : (s.threads holder).priority ≤ (s.threads cur).priority) :
    (donate_to s cur pending holder).view = s.view.raise holder (s.threads cur).priority
      ∧ WalkFrame s (donate_to s cur pending holder) := by
  obtain ⟨hframe, hview⟩ := donate_to_walk s cur pending holder
  rw [max_eq_right hle] at hview
  exact ⟨hview, hframe⟩

theorem InvBut.walk (h : s.InvBut none donor) (hframe : WalkFrame s s') : s'.InvBut none donor where
  pending := fun t ht => by rw [hframe.pending, hframe.waiting]; exact h.pending t ht
  outside := fun t ht => by rw [hframe.calls]; exact h.outside t ht
  running := fun c hc => by rw [hframe.current] at hc; rw [hframe.waiting]; exact h.running c hc
  value_but := fun l hl => by rw [hframe.value, hframe.holder]; exact h.value_but l hl
  self := fun t l hl => by rw [hframe.waiting] at hl; rw [hframe.holder]; exact h.self t l hl
  ordered := hframe.ordered h.ordered
  holder_lt := fun l t hl => by rw [hframe.holder] at hl; rw [hframe.next_tid]; exact h.holder_lt l t hl
  waiting_lt := fun t l hl => by rw [hframe.waiting] at hl; rw [hframe.next_tid]; exact h.waiting_lt t l hl
  current_lt := fun c hc => by rw [hframe.current] at hc; rw [hframe.next_tid]; exact h.current_lt c hc
  ready_lt := fun t ht => by rw [hframe.ready_list] at ht; rw [hframe.next_tid]; exact h.ready_lt t ht
  waiters_lt := fun l t ht => by rw [hframe.next_tid]; exact h.waiters_lt l t (hframe.waiters l t ht)

/-- The thread and the lock after `sema_down` has gone to sleep. -/
theorem sema_down_block_fields (cur : ℕ) {l : ℕ} (hv : (s.locks l).value = 0) :
    (∀ t, t ≠ cur → (sema_down s cur l).threads t = s.threads t)
      ∧ (sema_down s cur l).threads cur
          = { s.threads cur with status := .THREAD_BLOCKED, in_sema_down := some l }
      ∧ (∀ k, ((sema_down s cur l).locks k).holder = (s.locks k).holder
          ∧ ((sema_down s cur l).locks k).value = (s.locks k).value
          ∧ ∀ t ∈ ((sema_down s cur l).locks k).waiters, t = cur ∨ t ∈ (s.locks k).waiters)
      ∧ (sema_down s cur l).ready_list = s.ready_list
      ∧ (sema_down s cur l).current = none ∧ (sema_down s cur l).next_tid = s.next_tid := by
  simp only [sema_down, if_pos hv]
  refine ⟨fun t ht => ?_, ?_, fun k => ⟨?_, ?_, ?_⟩, by trivial⟩
  · rw [set_thread_of_ne ht, set_lock_threads]
  · rw [set_thread_self, set_lock_threads]
  · rw [set_thread_locks]
    exact set_lock_field lock.holder rfl k
  · rw [set_thread_locks]
    exact set_lock_field lock.value rfl k
  · rw [set_thread_locks]
    refine forall_set_lock (P := fun k' x => ∀ t ∈ x.waiters, t = cur ∨ t ∈ (s.locks k').waiters)
      (fun _ _ h => .inr h) ?_ k
    exact fun t ht => mem_list_insert_ordered.mp ht

/-- Inside `lock_acquire` the running thread has `pending_lock` set and is not
suspended yet; going to sleep restores the invariant. -/
theorem InvBut.sleeps {cur l h' : ℕ} (h : s.InvBut none (some cur)) (hcur : s.current = some cur)
    (hpend : (s.threads cur).pending_lock = some l)
    (hcalls : (s.threads cur).in_create_donation = [])
    (hheld : (s.locks l).holder = some h') (hne : h' ≠ cur) :
    (sema_down s cur l).Inv ∧ (sema_down s cur l).view = s.view.block cur l := by
  have hv : (s.locks l).value = 0 := by
    have hval := h.value l
    rwa [hheld, if_neg (by simp)] at hval
  refine ⟨?_, view_sema_down_block hv⟩
  obtain ⟨hth, hthc, hlk, hready, hcurr, hnext⟩ := sema_down_block_fields cur hv
  have hother : ∀ t, t ≠ cur → some cur ≠ some t := fun t ht he => ht (Option.some.inj he).symm
  -- the only new waiter is `cur`, for `l`
  have hwait : ∀ t k, ((sema_down s cur l).threads t).in_sema_down = some k →
      (t = cur ∧ k = l) ∨ (t ≠ cur ∧ (s.threads t).in_sema_down = some k) := by
    intro t k hk
    by_cases htc : t = cur
    · subst htc
      rw [hthc] at hk
      exact .inl ⟨rfl, (Option.some.inj hk).symm⟩
    · rw [hth t htc] at hk
      exact .inr ⟨htc, hk⟩
  refine ⟨?_, ?_, ?_, ?_, ?_, ?_, ?_, ?_, ?_, ?_, ?_⟩
  · intro t _
    by_cases htc : t = cur
    · subst htc
      rw [hthc]
      exact hpend
    · rw [hth t htc]
      exact h.pending t (hother t htc)
  · intro t _
    by_cases htc : t = cur
    · subst htc
      rw [hthc]
      exact hcalls
    · rw [hth t htc]
      exact h.outside t (hother t htc)
  · intro c hc
    rw [hcurr] at hc
    cases hc
  · intro k _
    rw [(hlk k).1, (hlk k).2.1]
    exact h.value k
  · intro t k hk
    rw [(hlk k).1]
    rcases hwait t k hk with ⟨rfl, rfl⟩ | ⟨-, hk⟩
    · rw [hheld]
      exact fun he => hne (Option.some.inj he)
    · exact h.self t k hk
  · intro t
    by_cases htc : t = cur
    · subst htc
      rw [hthc]
      exact h.ordered t
    · rw [hth t htc]
      exact h.ordered t
  · intro k t hk
    rw [(hlk k).1] at hk
    rw [hnext]
    exact h.holder_lt k t hk
  · intro t k hk
    rw [hnext]
    rcases hwait t k hk with ⟨rfl, -⟩ | ⟨-, hk⟩
    · exact h.current_lt t hcur
    · exact h.waiting_lt t k hk
  · intro c hc
    rw [hcurr] at hc
    cases hc
  · rw [hready, hnext]
    exact h.ready_lt
  · intro k t ht
    rw [hnext]
    rcases (hlk k).2.2 t ht with rfl | ht
    · exact h.current_lt _ hcur
    · exact h.waiters_lt k t ht

/-! ### `lock_acquire` -/

/-- What holds while the running thread `cur` is in `create_donation`, in the `malloc`
of `call`. It counts as waiting for its lock, and only the holder that the walk has
come to lacks its donation. -/
structure Inside (s : kernel) (cur : ℕ) (call : donation_call) : Prop where
  inv : s.InvBut none (some cur)
  current : s.current = some cur
  calls : (s.threads cur).in_create_donation = [call]
  put_back : call.pending_lock = some call.lock
  held : ∃ h, (s.locks call.lock).holder = some h ∧ h ≠ cur
  holder : (s.locks call.pending).holder = some call.holder
  le : (s.threads call.holder).priority ≤ (s.threads cur).priority
  waited : ∃ w, (s.view.block cur call.lock).waiting w = some call.pending
  law : (s.view.block cur call.lock).LawUpTo call.pending (s.threads cur).priority

/-- **The walk keeps the law.** `cur` waits for `l` from the start; while the walk
is at lock `m`, only the holder of `m` lacks its donation. -/
theorem lock_acquire_loop_law {cur l h' : ℕ} (h : s.InvBut none (some cur))
    (hcur : s.current = some cur)
    (hpend : (s.threads cur).pending_lock = some l)
    (hcalls : (s.threads cur).in_create_donation = [])
    (hheld : (s.locks l).holder = some h') (hne : h' ≠ cur) {m : Option ℕ}
    (hsome : ∀ k, m = some k → (s.view.block cur l).LawUpTo k (s.threads cur).priority
      ∧ ∃ w, (s.view.block cur l).waiting w = some k)
    (hnone : m = none → (s.view.block cur l).Law) :
    ((lock_acquire_loop s cur l m).Inv ∧ (lock_acquire_loop s cur l m).view.Law)
      ∨ ∃ call, (lock_acquire_loop s cur l m).Inside cur call := by
  obtain ⟨hinv, hview⟩ := h.sleeps hcur hpend hcalls hheld hne
  have hsleep : (s.view.block cur l).Law → (sema_down s cur l).Inv ∧ (sema_down s cur l).view.Law :=
    fun hlaw => ⟨hinv, hview ▸ hlaw⟩
  cases m with
  | none => exact .inl (hsleep (hnone rfl))
  | some k =>
      obtain ⟨hup, hwaited⟩ := hsome k rfl
      rw [lock_acquire_loop]
      cases hk : (s.locks k).holder with
      | none => exact .inl (hsleep (hup.of_free hk))
      | some holder =>
          dsimp only
          by_cases hlt : (s.threads cur).priority < (s.threads holder).priority
          · rw [if_pos hlt]
            exact .inl (hsleep (hup.of_higher hk hlt))
          · rw [if_neg hlt]
            refine .inr ⟨⟨l, k, holder, some l⟩, ?_⟩
            have hprio := set_thread_field (s := s) (t := cur) (f := fun th => { th with
              in_create_donation := ⟨l, k, holder, th.pending_lock⟩ :: th.in_create_donation })
              thread.priority rfl
            have hsame : (s.set_thread cur fun th => { th with
                in_create_donation := ⟨l, k, holder,
                  th.pending_lock⟩ :: th.in_create_donation }).view
                = s.view := view_set_thread rfl rfl rfl
            exact {
              inv := h.set_donor rfl (h.ordered cur)
              current := hcur
              calls := by rw [set_thread_self, hpend, hcalls]
              put_back := rfl
              held := ⟨h', hheld, hne⟩
              holder := hk
              le := by rw [hprio, hprio]; exact not_lt.mp hlt
              waited := by rw [hsame]; exact hwaited
              law := by rw [hsame, hprio]; exact hup }

/-- Nobody waits for a lock of its own, the donor for the lock it wants included. -/
theorem Inside.self {cur : ℕ} {call : donation_call} (h : s.Inside cur call) {t k : ℕ}
    (hk : (s.view.block cur call.lock).waiting t = some k) : (s.locks k).holder ≠ some t := by
  by_cases htc : t = cur
  · subst htc
    rw [donation_view.block_waiting_self] at hk
    obtain rfl := Option.some.inj hk
    obtain ⟨h', hheld, hne⟩ := h.held
    rw [hheld]
    exact fun he => hne (Option.some.inj he)
  · rw [donation_view.block_waiting_of_ne _ htc] at hk
    exact h.inv.self t k hk

/-- **One turn of the walk**, from the return of `malloc` on. -/
theorem Inside.donate {cur : ℕ} {call : donation_call} (h : s.Inside cur call)
    (hrun : lock_acquire_donate s cur = .ok s') :
    (s'.Inv ∧ s'.view.Law) ∨ ∃ call, s'.Inside cur call := by
  unfold lock_acquire_donate at hrun
  rw [h.calls] at hrun
  dsimp only at hrun
  rw [h.put_back] at hrun
  obtain rfl := Outcome.ok.inj hrun
  generalize hs₁ : (s.set_thread cur fun th =>
    { th with pending_lock := some call.lock, in_create_donation := [] }) = s₁
  have hfield : ∀ {β : Type} (field : thread → β),
      field { s.threads cur with pending_lock := some call.lock, in_create_donation := [] }
        = field (s.threads cur) → ∀ t, field (s₁.threads t) = field (s.threads t) :=
    fun field hf => hs₁ ▸ set_thread_field (s := s) field hf
  have hprio := hfield thread.priority rfl
  have hself₁ : s₁.threads cur
      = { s.threads cur with pending_lock := some call.lock, in_create_donation := [] } := by
    rw [← hs₁, set_thread_self]
  have hview₁ : s₁.view = s.view := hs₁ ▸ view_set_thread rfl rfl rfl
  have hinv₁ : s₁.InvBut none (some cur) := hs₁ ▸ h.inv.set_donor rfl (h.inv.ordered cur)
  have hlocks₁ : s₁.locks = s.locks := hs₁ ▸ rfl
  have hcur₁ : s₁.current = some cur := hs₁ ▸ h.current
  have hle : (s₁.threads call.holder).priority ≤ (s₁.threads cur).priority := by
    rw [hprio, hprio]
    exact h.le
  obtain ⟨hview, hframe⟩ := donate_to_spec call.pending hle
  have hblock : (donate_to s₁ cur call.pending call.holder).view.block cur call.lock
      = (s.view.block cur call.lock).raise call.holder (s.threads cur).priority := by
    rw [hview, hview₁, hprio]
    rfl
  -- `cur` keeps its priority, also if the walk comes round to it
  have hprio₂ : ((donate_to s₁ cur call.pending call.holder).threads cur).priority
      = (s.threads cur).priority := by
    have hp := congrFun (congrArg donation_view.priority hview) cur
    rw [hview₁, hprio] at hp
    by_cases hch : cur = call.holder
    · rw [← hch] at hp ⊢
      exact hp.trans (donation_view.raise_priority_self _ _)
    · exact hp.trans (donation_view.raise_priority_of_ne _ hch)
  have hnext : ((donate_to s₁ cur call.pending call.holder).threads call.holder).pending_lock
      = (s.view.block cur call.lock).waiting call.holder := by
    rw [hframe.pending]
    by_cases hch : call.holder = cur
    · rw [hch, hself₁, donation_view.block_waiting_self]
    · rw [donation_view.block_waiting_of_ne _ hch, ← hs₁, set_thread_of_ne hch]
      exact h.inv.pending _ fun he => hch (Option.some.inj he).symm
  have hself : ∀ n, (s.view.block cur call.lock).waiting call.holder = some n →
      (s.view.block cur call.lock).holder n ≠ some call.holder := fun n hn => h.self hn
  obtain ⟨h', hheld, hne⟩ := h.held
  refine lock_acquire_loop_law (hinv₁.walk hframe) (hframe.current.trans hcur₁) ?_ ?_ ?_ hne ?_ ?_
  · rw [hframe.pending, hself₁]
  · rw [hframe.calls, hself₁]
  · rw [hframe.holder, hlocks₁]
    exact hheld
  · intro n hn
    rw [hnext] at hn
    rw [hblock, hprio₂]
    exact ⟨h.law.raise_next h.holder h.le hself hn, call.holder, hn⟩
  · intro hn
    rw [hnext] at hn
    rw [hblock]
    exact h.law.raise_last h.holder h.le hself hn

/-- **`lock_acquire`** keeps the law, except where it takes a free lock that
somebody with a higher priority still waits for. -/
theorem lock_acquire_law (h : s.Inv) (hlaw : s.view.Law) {cur l : ℕ} (hcur : s.current = some cur)
    (hrun : lock_acquire s cur l = .ok s') :
    (s'.Inv ∧ (s'.view.Law ↔ ((s.locks l).holder = none → s.view.NoHigherWaiter cur l)))
      ∨ (s.locks l).holder ≠ none ∧ ∃ call, s'.Inside cur call := by
  have hin := h.running cur hcur
  rw [lock_acquire, Outcome.bind_eq_ok] at hrun
  obtain ⟨⟨⟩, hassert, hrun⟩ := hrun
  have hne := Outcome.assert_eq_ok.mp hassert
  cases hl : (s.locks l).holder with
  | none =>
      rw [hl] at hrun
      obtain rfl := Outcome.ok.inj hrun
      have hv : (s.locks l).value ≠ 0 := by
        have := h.value l
        rw [if_pos hl] at this
        omega
      refine .inl ⟨(h.no_current h.ready_lt).sema_down_take (h.current_lt cur hcur) hl hcur, ?_⟩
      rw [lock_acquire_loop, view_sema_down_take hv, donation_view.take_law_iff hlaw hl (.inl hin)]
      exact ⟨fun hno _ => hno, fun hno => hno rfl⟩
  | some h' =>
      rw [hl] at hrun hne
      obtain rfl := Outcome.ok.inj hrun
      have hne' : h' ≠ cur := fun he => hne (he ▸ rfl)
      -- the view of the walk's start is the old one
      have hview : (s.set_thread cur fun th => { th with pending_lock := some l }).view = s.view :=
        view_set_thread rfl rfl rfl
      have hup := donation_view.block_lawUpTo hlaw (l := l)
        (show s.view.waiting cur = none from hin)
      have hwalk := lock_acquire_loop_law (l := l) (m := some l)
        ((h.donor cur).set_donor (f := fun th => { th with pending_lock := some l }) rfl
          (h.ordered cur))
        hcur (by rw [set_thread_self]) (by rw [set_thread_self]; exact h.outside cur (by simp)) hl hne'
        (fun k hk => by
          obtain rfl := Option.some.inj hk
          rw [hview, set_thread_self]
          exact ⟨hup, cur, donation_view.block_waiting_self cur l⟩)
        (fun hk => by cases hk)
      rcases hwalk with ⟨hinv, hlaw'⟩ | hinside
      · exact .inl ⟨hinv, fun _ hk => absurd hk (by simp), fun _ => hlaw'⟩
      · exact .inr ⟨by simp, hinside⟩

/-! ### Recomputed priorities -/

/-- The donations recorded for `c` and the threads that wait for its locks account
for each other, as far as they exceed `base`: every waiter is covered by a
record, and every record by a waiter. Only the locks in `keep` count. -/
def Accounts (s : kernel) (c : ℕ) (base : ℤ) (keep : ℕ → Prop) : Prop :=
  (∀ w l, keep l → (s.locks l).holder = some c → (s.threads w).in_sema_down = some l →
      (s.threads w).priority ≤ base
        ∨ ∃ d ∈ (s.threads c).donations, keep d.lock ∧ (s.threads w).priority ≤ d.priority)
    ∧ ∀ d ∈ (s.threads c).donations, keep d.lock → d.priority ≤ base
        ∨ ∃ w l, keep l ∧ (s.locks l).holder = some c ∧ (s.threads w).in_sema_down = some l
            ∧ d.priority ≤ (s.threads w).priority

/-- The greatest of `base` and the kept records is the greatest of `base` and the
waiters for kept locks exactly when they account for each other. -/
theorem isGreatest_waiters_iff {c : ℕ} {base x : ℤ} {keep : ℕ → Prop}
    (hx : IsGreatest (insert base
      {y | ∃ d ∈ (s.threads c).donations, keep d.lock ∧ d.priority = y}) x) :
    IsGreatest (insert base {y | ∃ w l, keep l ∧ (s.locks l).holder = some c
        ∧ (s.threads w).in_sema_down = some l ∧ (s.threads w).priority = y}) x
      ↔ s.Accounts c base keep := by
  rw [isGreatest_insert_iff hx]
  constructor
  · rintro ⟨hW, hD⟩
    constructor
    · intro w l hk hl hw
      rcases hW _ ⟨w, l, hk, hl, hw, rfl⟩ with hb | ⟨y, ⟨d, hd, hkd, rfl⟩, hy⟩
      · exact .inl hb
      · exact .inr ⟨d, hd, hkd, hy⟩
    · intro d hd hkd
      rcases hD _ ⟨d, hd, hkd, rfl⟩ with hb | ⟨y, ⟨w, l, hk, hl, hw, rfl⟩, hy⟩
      · exact .inl hb
      · exact .inr ⟨w, l, hk, hl, hw, hy⟩
  · rintro ⟨hW, hD⟩
    constructor
    · rintro y ⟨w, l, hk, hl, hw, rfl⟩
      rcases hW w l hk hl hw with hb | ⟨d, hd, hkd, hy⟩
      · exact .inl hb
      · exact .inr ⟨_, ⟨d, hd, hkd, rfl⟩, hy⟩
    · rintro y ⟨d, hd, hkd, rfl⟩
      rcases hD d hd hkd with hb | ⟨w, l, hk, hl, hw, hy⟩
      · exact .inl hb
      · exact .inr ⟨_, ⟨w, l, hk, hl, hw, rfl⟩, hy⟩

/-- The running thread after `thread_set_priority`. -/
def set_base (p : ℤ) (th : thread) : thread :=
  { th with
    original_priority := p
    priority :=
      match th.donations with
      | [] => p
      | front :: _ => if front.priority > p then front.priority else p }

theorem thread_set_priority_eq (s : kernel) (cur : ℕ) (p : ℤ) :
    thread_set_priority s cur p = compare_cur_next_priority
      (s.set_thread cur (set_base p)) cur := rfl

/-- **`thread_set_priority`** keeps the law exactly when the records account for
the waiters above the new base. -/
theorem thread_set_priority_law (h : s.Inv) (hlaw : s.view.Law) {cur : ℕ} {p : ℤ}
    (hcur : s.current = some cur) :
    (thread_set_priority s cur p).Inv
      ∧ ((thread_set_priority s cur p).view.Law ↔ s.Accounts cur p fun _ => True) := by
  rw [thread_set_priority_eq, view_compare_cur_next_priority, view_set_thread_priority rfl]
  refine ⟨InvBut.compare_cur_next_priority (h.set_thread rfl rfl rfl (h.ordered cur))
    (h.current_lt cur hcur), ?_⟩
  rw [donation_view.recalc_law_iff (fun t _ => hlaw t) (h.running cur hcur)]
  have hx : IsGreatest (insert p
      {y | ∃ d ∈ (s.threads cur).donations, True ∧ d.priority = y})
      (set_base p (s.threads cur)).priority := by
    have hord := h.ordered cur
    unfold set_base
    cases hd : (s.threads cur).donations with
    | nil => simp
    | cons front rest =>
        rw [hd] at hord
        simpa using isGreatest_front hord p
  rw [← isGreatest_waiters_iff hx]
  have hset : s.view.waiters cur = {y | ∃ w l, True ∧ (s.locks l).holder = some cur
      ∧ (s.threads w).in_sema_down = some l ∧ (s.threads w).priority = y} := by
    simp only [donation_view.waiters, view, true_and]
  exact Iff.of_eq (congrArg (fun W => IsGreatest (insert p W) _) hset)

/-- `recalc_priority` assigns to the priority and sorts the donations. -/
theorem recalc_thread_fields (th : thread) :
    (recalc_thread th).pending_lock = th.pending_lock
      ∧ (recalc_thread th).in_sema_down = th.in_sema_down
      ∧ (recalc_thread th).original_priority = th.original_priority
      ∧ (Ordered th.donations → Ordered (recalc_thread th).donations)
      ∧ IsGreatest (insert th.original_priority {y | ∃ d ∈ th.donations, d.priority = y})
          (recalc_thread th).priority := by
  have hord := ordered_list_sort th.donations
  have hmem : ∀ d, d ∈ list_sort compare_priority_for_donate th.donations ↔ d ∈ th.donations :=
    fun d => mem_list_sort
  unfold recalc_thread
  split
  case h_1 hsort =>
    rw [hsort] at hmem
    refine ⟨rfl, rfl, rfl, fun h => h, Set.mem_insert _ _, ?_⟩
    rintro y (rfl | ⟨d, hd, -⟩)
    · exact le_refl _
    · exact absurd ((hmem d).mpr hd) List.not_mem_nil
  case h_2 front rest hsort =>
    rw [hsort] at hord hmem
    refine ⟨rfl, rfl, rfl, fun _ => hord, ?_⟩
    simp only [← hmem]
    exact isGreatest_front hord _

theorem recalc_thread_calls (th : thread) :
    (recalc_thread th).in_create_donation = th.in_create_donation := by
  unfold recalc_thread
  split
  · rfl
  · rfl

/-! ### `lock_release` -/

/-- Waking a waiter. -/
theorem sema_up_wake_ok {l : ℕ} (hrun : sema_up_wake s l = .ok s') :
    s'.view = s.view ∧ s'.current = s.current
      ∧ (∀ k, (s'.locks k).value = (s.locks k).value) ∧ s'.next_tid = s.next_tid
      ∧ ∀ busy, s.InvBut busy donor → s'.InvBut busy donor := by
  unfold sema_up_wake at hrun
  split at hrun
  case h_1 =>
    obtain rfl := Outcome.ok.inj hrun
    exact ⟨rfl, rfl, fun _ => rfl, rfl, fun _ h => h⟩
  case h_2 t rest hsort =>
    have hmem : ∀ t' ∈ t :: rest, t' ∈ (s.locks l).waiters := by
      intro t' ht'
      rw [← hsort] at ht'
      exact mem_list_sort.mp ht'
    obtain ⟨hview, hcur, hlocks, hnext, hinv⟩ := thread_unblock_ok hrun
    refine ⟨hview.trans (view_set_lock rfl), hcur, ?_, hnext, ?_⟩
    · intro k
      rw [hlocks]
      exact set_lock_field lock.value rfl k
    · intro busy h
      refine hinv busy donor (h.set_lock rfl rfl fun t' ht' => ?_) ?_
      · exact h.waiters_lt l t' (hmem t' (List.mem_cons_of_mem _ ht'))
      · exact h.waiters_lt l t (hmem t List.mem_cons_self)

/-- The lock is given back: it has no holder, and its semaphore is still down. -/
theorem InvBut.set_holder_none (h : s.InvBut none donor) (l : ℕ) :
    (s.set_lock l fun k => { k with holder := none }).InvBut (some l) donor := by
  have hval := set_lock_field (s := s) (l := l) (g := fun k => { k with holder := none })
    lock.value rfl
  have hwtr := set_lock_field (s := s) (l := l) (g := fun k => { k with holder := none })
    lock.waiters rfl
  have hholder : ∀ k t, ((s.set_lock l fun k => { k with holder := none }).locks k).holder = some t
      → (s.locks k).holder = some t := by
    intro k t hk
    by_cases hkl : k = l
    · subst hkl
      rw [set_lock_self] at hk
      cases hk
    · rwa [set_lock_of_ne hkl] at hk
  exact {
    pending := h.pending
    outside := h.outside
    running := h.running
    value_but := fun k hk => by
      have hkl : k ≠ l := fun he => hk (he ▸ rfl)
      rw [set_lock_of_ne hkl]
      exact h.value k
    self := fun t k hk he => h.self t k hk (hholder k t he)
    ordered := h.ordered
    holder_lt := fun k t hk => h.holder_lt k t (hholder k t hk)
    waiting_lt := h.waiting_lt
    current_lt := h.current_lt
    ready_lt := h.ready_lt
    waiters_lt := fun k t ht => h.waiters_lt k t (by rwa [hwtr] at ht) }

/-- The semaphore goes up, and the invariant is whole again. -/
theorem InvBut.set_value_one {l : ℕ} (h : s.InvBut (some l) donor) (hh : (s.locks l).holder = none)
    (hv : (s.locks l).value = 0) :
    (s.set_lock l fun k => { k with value := k.value + 1 }).InvBut none donor := by
  have hhold := set_lock_field (s := s) (l := l) (g := fun k => { k with value := k.value + 1 })
    lock.holder rfl
  have hwtr := set_lock_field (s := s) (l := l) (g := fun k => { k with value := k.value + 1 })
    lock.waiters rfl
  exact {
    pending := h.pending
    outside := h.outside
    running := h.running
    value_but := fun k _ => by
      by_cases hkl : k = l
      · subst hkl
        rw [set_lock_self]
        simp [hh, hv]
      · rw [set_lock_of_ne hkl]
        exact h.value_but k fun he => hkl (Option.some.inj he).symm
    self := fun t k hk => by rw [hhold]; exact h.self t k hk
    ordered := h.ordered
    holder_lt := fun k t hk => h.holder_lt k t (by rwa [hhold] at hk)
    waiting_lt := h.waiting_lt
    current_lt := h.current_lt
    ready_lt := h.ready_lt
    waiters_lt := fun k t ht => h.waiters_lt k t (by rwa [hwtr] at ht) }

/-- What `lock_release` assigns to the releasing thread. -/
theorem recalc_removed (h : s.InvBut none donor) (cur l : ℕ) :
    ∃ x, (recalc_priority (remove_donation_for_lock s cur l) cur).view
        = s.view.recalc cur (s.threads cur).original_priority x
      ∧ IsGreatest (insert (s.threads cur).original_priority
          {y | ∃ d ∈ (s.threads cur).donations, d.lock ≠ l ∧ d.priority = y}) x
      ∧ (recalc_priority (remove_donation_for_lock s cur l) cur).InvBut none donor := by
  have hord := List.Pairwise.filter (fun d => decide (d.lock ≠ l)) (h.ordered cur)
  have hinv : (remove_donation_for_lock s cur l).InvBut none donor :=
    InvBut.set_thread h rfl rfl rfl hord
  have hview : (remove_donation_for_lock s cur l).view = s.view := view_set_thread rfl rfl rfl
  obtain ⟨hp, hi, ho, hd, hx⟩ :=
    recalc_thread_fields ((remove_donation_for_lock s cur l).threads cur)
  refine ⟨(recalc_thread ((remove_donation_for_lock s cur l).threads cur)).priority, ?_, ?_,
    InvBut.set_thread hinv hp hi (recalc_thread_calls _) (hd (hinv.ordered cur))⟩
  · rw [recalc_priority, view_set_thread_priority hi, hview, ho]
    simp only [remove_donation_for_lock, set_thread_self]
  · simpa only [remove_donation_for_lock, set_thread_self, List.mem_filter, ne_eq,
      decide_eq_true_eq, and_assoc] using hx

/-- **`lock_release`** keeps the law exactly when the records for the other locks
account for the threads that wait for them. -/
theorem lock_release_law (h : s.Inv) (hlaw : s.view.Law) {cur l : ℕ} (hcur : s.current = some cur)
    (hrun : lock_release s cur l = .ok s') :
    s'.Inv ∧ (s'.view.Law ↔ s.Accounts cur (s.threads cur).original_priority (· ≠ l)) := by
  rw [lock_release, Outcome.bind_eq_ok] at hrun
  obtain ⟨⟨⟩, hassert, hrun⟩ := hrun
  have hheld := Outcome.assert_eq_ok.mp hassert
  obtain ⟨x, hview, hx, hinv⟩ := recalc_removed h cur l
  rw [Outcome.bind_eq_ok] at hrun
  obtain ⟨s₃, hup, hrun⟩ := hrun
  rw [sema_up, Outcome.bind_eq_ok] at hup
  obtain ⟨s₂, hwake, hup⟩ := hup
  obtain rfl := Outcome.ok.inj hup
  obtain ⟨hview₂, -, hval₂, hnext₂, hinv₂⟩ := @sema_up_wake_ok _ _ none _ hwake
  -- the view: recomputed priority, no holder
  have hview' : s₂.view = (s.view.release l).recalc cur (s.threads cur).original_priority x := by
    rw [hview₂, view_set_lock_holder, hview]
    rfl
  have hzero : (s₂.locks l).value = 0 := by
    have hval := h.value l
    rw [hheld, if_neg (by simp)] at hval
    rw [hval₂, set_lock_self]
    exact hval
  have hnone : (s₂.locks l).holder = none :=
    (congrFun (congrArg donation_view.holder hview') l).trans (donation_view.release_holder_self l)
  have hinv' := (hinv₂ _ (hinv.set_holder_none l)).set_value_one hnone hzero
  have hlt : cur < s₂.next_tid := hnext₂ ▸ h.current_lt cur hcur
  have hinv₃ := hinv'.compare_cur_next_priority hlt
  have hview₃ : (compare_cur_next_priority (s₂.set_lock l fun k => { k with value := k.value + 1 })
      cur).view = s₂.view := by
    rw [view_compare_cur_next_priority, view_set_lock rfl]
  have hiff : s₂.view.Law ↔ s.Accounts cur (s.threads cur).original_priority (· ≠ l) := by
    rw [hview', donation_view.recalc_law_iff (donation_view.release_lawBut hlaw hheld)
      (h.running cur hcur), ← isGreatest_waiters_iff hx]
    have hset : (s.view.release l).waiters cur
        = {y | ∃ w k, k ≠ l ∧ (s.locks k).holder = some cur
            ∧ (s.threads w).in_sema_down = some k ∧ (s.threads w).priority = y} := by
      ext y
      constructor
      · rintro ⟨w, k, hk, hw, hy⟩
        have hkl : k ≠ l := by
          rintro rfl
          rw [donation_view.release_holder_self] at hk
          cases hk
        rw [donation_view.release_holder_of_ne hkl] at hk
        exact ⟨w, k, hkl, hk, hw, hy⟩
      · rintro ⟨w, k, hkl, hk, hw, hy⟩
        exact ⟨w, k, (donation_view.release_holder_of_ne hkl).trans hk, hw, hy⟩
    rw [hset]
  obtain rfl := Outcome.ok.inj hrun
  split
  · refine ⟨hinv₃.compare_cur_next_priority ?_, ?_⟩
    · rename_i hstill
      exact hinv₃.current_lt cur hstill
    · rw [view_compare_cur_next_priority, hview₃]
      exact hiff
  · exact ⟨hinv₃, by rw [hview₃]; exact hiff⟩

/-! ### The locks of `malloc` -/

/-- The greatest of the original priority of `c` and the donations recorded for its
locks other than `l` is its priority: `lock_release` of `l` assigns it anew. -/
def KeepsOwn (s : kernel) (c l : ℕ) : Prop :=
  IsGreatest (insert (s.threads c).original_priority
    {p | ∃ d ∈ (s.threads c).donations, d.lock ≠ l ∧ d.priority = p}) (s.threads c).priority

/-- **`lock_acquire`** inside `create_donation`, of a free lock. -/
theorem Inside.acquire {cur k : ℕ} {call : donation_call} (h : s.Inside cur call)
    (hfree : (s.locks k).holder = none) (hno : ∀ w, (s.threads w).in_sema_down ≠ some k)
    (hrun : lock_acquire s cur k = .ok s') : s'.Inside cur call := by
  rw [lock_acquire, Outcome.bind_eq_ok] at hrun
  obtain ⟨⟨⟩, -, hrun⟩ := hrun
  rw [hfree] at hrun
  obtain rfl := Outcome.ok.inj hrun
  rw [lock_acquire_loop]
  have hv : (s.locks k).value ≠ 0 := by
    have := h.inv.value k
    rw [if_pos hfree] at this
    omega
  obtain ⟨hth, hthc, hlk, -, -, hcurr, -⟩ := sema_down_take_fields cur hv
  obtain ⟨h', hheld, hne⟩ := h.held
  have hlock : call.lock ≠ k := by
    intro he
    rw [he, hfree] at hheld
    cases hheld
  have hpending : call.pending ≠ k := by
    intro he
    have hholder := h.holder
    rw [he, hfree] at hholder
    cases hholder
  have hview : (sema_down s cur k).view.block cur call.lock = { s.view.block cur call.lock with
      holder := Function.update (s.view.block cur call.lock).holder k (some cur) } := by
    rw [view_sema_down_take hv]
    unfold donation_view.take donation_view.block
    simp only [Function.update_idem]
  have hprio : ∀ t, ((sema_down s cur k).threads t).priority = (s.threads t).priority :=
    congrFun (congrArg donation_view.priority (@view_sema_down_take s cur k hv))
  exact {
    inv := (h.inv.no_current h.inv.ready_lt).sema_down_take (h.inv.current_lt cur h.current)
      hfree h.current
    current := hcurr.trans h.current
    calls := by rw [hthc]; exact h.calls
    put_back := h.put_back
    held := ⟨h', by rw [hlk _ hlock]; exact hheld, hne⟩
    holder := by rw [hlk _ hpending]; exact h.holder
    le := by rw [hprio, hprio]; exact h.le
    waited := by rw [hview]; exact h.waited
    law := by
      rw [hview, hprio]
      refine h.law.set_holder (fun w hw => ?_) hpending _
      by_cases hwc : w = cur
      · rw [hwc, donation_view.block_waiting_self] at hw
        exact hlock (Option.some.inj hw)
      · rw [donation_view.block_waiting_of_ne _ hwc] at hw
        exact hno w hw }

/-- Nobody in the ready list is above the running thread: it goes on. -/
theorem compare_cur_next_priority_stays {cur : ℕ}
    (hready : ∀ t ∈ s.ready_list, (s.threads t).priority ≤ (s.threads cur).priority) :
    ∃ r : List ℕ, (∀ t ∈ r, t ∈ s.ready_list)
      ∧ compare_cur_next_priority s cur = { s with ready_list := r } := by
  unfold compare_cur_next_priority
  split
  case h_1 => exact ⟨s.ready_list, fun _ ht => ht, rfl⟩
  case h_2 next rest hsort =>
    have hmem : ∀ t ∈ next :: rest, t ∈ s.ready_list := by
      intro t ht
      rw [← hsort] at ht
      exact mem_list_sort.mp ht
    refine ⟨next :: rest, hmem, ?_⟩
    exact if_neg (not_lt.mpr (hready next (hmem next List.mem_cons_self)))

/-- **`lock_release`** inside `create_donation`, of a lock that nobody waits for,
with nothing to recompute and nobody to yield to. -/
theorem Inside.release {cur k : ℕ} {call : donation_call} (h : s.Inside cur call)
    (hqueue : (s.locks k).waiters = []) (hno : ∀ w, (s.threads w).in_sema_down ≠ some k)
    (hkeep : s.KeepsOwn cur k)
    (hready : ∀ t ∈ s.ready_list, (s.threads t).priority ≤ (s.threads cur).priority)
    (hrun : lock_release s cur k = .ok s') : s'.Inside cur call := by
  rw [lock_release, Outcome.bind_eq_ok] at hrun
  obtain ⟨⟨⟩, hassert, hrun⟩ := hrun
  have hheldk := Outcome.assert_eq_ok.mp hassert
  obtain ⟨x, hview, hx, hinv⟩ := recalc_removed h.inv cur k
  obtain rfl : x = (s.threads cur).priority := hx.unique hkeep
  rw [Outcome.bind_eq_ok] at hrun
  obtain ⟨s₃, hup, hrun⟩ := hrun
  rw [sema_up, Outcome.bind_eq_ok] at hup
  obtain ⟨s₂, hwake, hup⟩ := hup
  obtain rfl := Outcome.ok.inj hup
  have hthreads : ∀ t, t ≠ cur → (recalc_priority (remove_donation_for_lock s cur k) cur).threads t
      = s.threads t := by
    intro t ht
    rw [recalc_priority, set_thread_of_ne ht, remove_donation_for_lock, set_thread_of_ne ht]
  have hcalls : ((recalc_priority (remove_donation_for_lock s cur k) cur).threads
      cur).in_create_donation = [call] := by
    rw [recalc_priority, set_thread_self, recalc_thread_calls, remove_donation_for_lock,
      set_thread_self]
    exact h.calls
  generalize hs₁ : recalc_priority (remove_donation_for_lock s cur k) cur = s₁ at *
  have hlocks₁ : s₁.locks = s.locks := hs₁ ▸ rfl
  have hready₁ : s₁.ready_list = s.ready_list := hs₁ ▸ rfl
  have hcur₁ : s₁.current = some cur := hs₁ ▸ h.current
  -- the priorities are the old ones
  have hview₁ : s₁.view = s.view := by
    rw [hview]
    unfold donation_view.recalc
    have hp : Function.update s.view.priority cur (s.threads cur).priority = s.view.priority :=
      Function.update_eq_self _ _
    have ho : Function.update s.view.original_priority cur (s.threads cur).original_priority
        = s.view.original_priority := Function.update_eq_self _ _
    rw [hp, ho]
  have hprio : ∀ t, (s₁.threads t).priority = (s.threads t).priority :=
    congrFun (congrArg donation_view.priority hview₁)
  have hwoken : s₂ = s₁.set_lock k fun l => { l with holder := none } := by
    unfold sema_up_wake at hwake
    rw [set_lock_self] at hwake
    dsimp only at hwake
    rw [hlocks₁, hqueue] at hwake
    exact (Outcome.ok.inj hwake).symm
  have hzero : (s₂.locks k).value = 0 := by
    have hval := h.inv.value k
    rw [hheldk, if_neg (by simp)] at hval
    rw [hwoken, set_lock_self, hlocks₁]
    exact hval
  have hnone : (s₂.locks k).holder = none := by rw [hwoken, set_lock_self]
  have hinv₂ : s₂.InvBut (some k) (some cur) := hwoken ▸ hinv.set_holder_none k
  have hinv₃ := hinv₂.set_value_one hnone hzero
  generalize hs₃ : (s₂.set_lock k fun l => { l with value := l.value + 1 }) = s₃ at *
  have hthreads₃ : s₃.threads = s₁.threads := by rw [← hs₃, hwoken]; rfl
  have hready₃ : s₃.ready_list = s.ready_list := by rw [← hs₃, hwoken]; exact hready₁
  have hcur₃ : s₃.current = some cur := by rw [← hs₃, hwoken]; exact hcur₁
  have hlocks₃ : ∀ l, l ≠ k → s₃.locks l = s.locks l := by
    intro l hl
    rw [← hs₃, hwoken, set_lock_of_ne hl, set_lock_of_ne hl, hlocks₁]
  have hview₃ : s₃.view = s.view.release k := by
    rw [← hs₃, view_set_lock rfl, hwoken, view_set_lock_holder, hview₁]
    rfl
  have hlow : ∀ t ∈ s₃.ready_list, (s₃.threads t).priority ≤ (s₃.threads cur).priority := by
    intro t ht
    rw [hthreads₃, hprio, hprio]
    exact hready t (hready₃ ▸ ht)
  -- both times the running thread goes on
  obtain ⟨r, hr, hstay⟩ := compare_cur_next_priority_stays hlow
  obtain ⟨r', hr', hstay'⟩ := compare_cur_next_priority_stays (s := { s₃ with ready_list := r })
    fun t ht => hlow t (hr t ht)
  rw [hstay, if_pos hcur₃, hstay'] at hrun
  obtain rfl := Outcome.ok.inj hrun
  obtain ⟨h', hheld, hne⟩ := h.held
  have hlock : call.lock ≠ k := by
    intro he
    rw [he, hheldk] at hheld
    exact hne (Option.some.inj hheld).symm
  have hblock : ∀ w, (s.view.block cur call.lock).waiting w ≠ some k := by
    intro w hw
    by_cases hwc : w = cur
    · rw [hwc, donation_view.block_waiting_self] at hw
      exact hlock (Option.some.inj hw)
    · rw [donation_view.block_waiting_of_ne _ hwc] at hw
      exact hno w hw
  obtain ⟨w, hwaited⟩ := h.waited
  have hpending : call.pending ≠ k := fun he => hblock w (he ▸ hwaited)
  have hprio₃ : ∀ t, (s₃.threads t).priority = (s.threads t).priority := by
    intro t
    rw [hthreads₃, hprio]
  have hview₄ : ({ s₃ with ready_list := r' } : kernel).view.block cur call.lock
      = { s.view.block cur call.lock with
        holder := Function.update (s.view.block cur call.lock).holder k none } := by
    change s₃.view.block cur call.lock = _
    rw [hview₃]
    rfl
  exact {
    inv := hinv₃.set_ready fun t ht => hinv₃.ready_lt t (hr t (hr' t ht))
    current := hcur₃
    calls := by
      change (s₃.threads cur).in_create_donation = _
      rw [hthreads₃]
      exact hcalls
    put_back := h.put_back
    held := ⟨h', (congrArg lock.holder (hlocks₃ _ hlock)).trans hheld, hne⟩
    holder := (congrArg lock.holder (hlocks₃ _ hpending)).trans h.holder
    le := by
      change (s₃.threads call.holder).priority ≤ (s₃.threads cur).priority
      rw [hprio₃, hprio₃]
      exact h.le
    waited := ⟨w, by rw [hview₄]; exact hwaited⟩
    law := by
      change donation_view.LawUpTo _ _ (s₃.threads cur).priority
      rw [hview₄, hprio₃]
      exact h.law.set_holder hblock hpending none }

/-! ### `thread_create` and `schedule` -/

/-- A new thread holds nothing and waits for nothing. -/
theorem thread_create_law (h : s.Inv) (hlaw : s.view.Law) {cur : ℕ} {p : ℤ}
    (hcur : s.current = some cur) (hrun : thread_create s cur p = .ok s') :
    s'.Inv ∧ s'.view.Law := by
  rw [thread_create, Outcome.bind_eq_ok] at hrun
  obtain ⟨⟨⟩, -, hrun⟩ := hrun
  rw [Outcome.bind_eq_ok] at hrun
  obtain ⟨s₂, hunblock, hrun⟩ := hrun
  obtain rfl := Outcome.ok.inj hrun
  obtain ⟨hview, hcurr, -, hnext, hinv⟩ := thread_unblock_ok hunblock
  have hfresh : (s.threads s.next_tid).in_sema_down = none := by
    cases hw : (s.threads s.next_tid).in_sema_down with
    | none => rfl
    | some l => exact absurd (h.waiting_lt _ l hw) (lt_irrefl _)
  have hne : ∀ t, t < s.next_tid → t ≠ s.next_tid := fun t ht => ht.ne
  have hlt : ∀ t, t < s.next_tid → t < s.next_tid + 1 := fun t ht => ht.trans (Nat.lt_succ_self _)
  -- the new thread's record, before it is put into the ready list
  have hinv₁ : ({ s.set_thread s.next_tid fun _ => init_thread p with
      next_tid := s.next_tid + 1 } : kernel).Inv := {
    pending := fun t ht => forall_set_thread (f := fun _ => init_thread p)
      (P := fun _ th => th.pending_lock = th.in_sema_down) (fun t => h.pending t (by simp)) rfl t
    outside := fun t ht => forall_set_thread (f := fun _ => init_thread p)
      (P := fun _ th => th.in_create_donation = []) (fun t => h.outside t (by simp)) rfl t
    running := fun c hc => by
      have hc' := set_thread_of_ne (s := s) (f := fun _ => init_thread p)
        (hne c (h.current_lt c hc))
      exact (congrArg thread.in_sema_down hc').trans (h.running c hc)
    value_but := h.value_but
    self := by
      intro t l
      exact forall_set_thread (f := fun _ => init_thread p)
        (P := fun t th => th.in_sema_down = some l → (s.locks l).holder ≠ some t)
        (fun t => h.self t l) (fun hk => by cases hk) t
    ordered := forall_set_thread (f := fun _ => init_thread p)
      (P := fun _ th => Ordered th.donations) h.ordered List.Pairwise.nil
    holder_lt := fun l t hl => hlt t (h.holder_lt l t hl)
    waiting_lt := by
      intro t l
      exact forall_set_thread (f := fun _ => init_thread p)
        (P := fun t th => th.in_sema_down = some l → t < s.next_tid + 1)
        (fun t ht => hlt t (h.waiting_lt t l ht)) (fun hk => by cases hk) t
    current_lt := fun c hc => hlt c (h.current_lt c hc)
    ready_lt := fun t ht => hlt t (h.ready_lt t ht)
    waiters_lt := fun l t ht => hlt t (h.waiters_lt l t ht) }
  have hview₁ : s₂.view = s.view.recalc s.next_tid p p := by
    rw [hview, show ∀ (x : kernel) n, ({ x with next_tid := n } : kernel).view = x.view from
      fun _ _ => rfl, view_set_thread_priority hfresh.symm]
    rfl
  have hinv₂ := hinv _ _ hinv₁ (Nat.lt_succ_self _)
  have hlaw₂ : s₂.view.Law := by
    rw [hview₁, donation_view.recalc_law_iff (fun t _ => hlaw t) hfresh]
    refine ⟨Set.mem_insert _ _, ?_⟩
    rintro y (rfl | ⟨w, l, hl, -, -⟩)
    · exact le_refl _
    · exact absurd (h.holder_lt l _ hl) (lt_irrefl _)
  split
  · refine ⟨hinv₂.thread_yield ?_, by rw [view_thread_yield]; exact hlaw₂⟩
    rw [hnext]
    exact hlt cur (h.current_lt cur hcur)
  · exact ⟨hinv₂, hlaw₂⟩

/-- A resumed thread that finds the semaphore down goes back to sleep. -/
theorem InvBut.sema_down_again {cur l : ℕ} (h : ({ s with current := none } : kernel).Inv)
    (hlt : cur < s.next_tid) (hw : (s.threads cur).in_sema_down = some l)
    (hv : (s.locks l).value = 0) : (sema_down s cur l).Inv := by
  unfold sema_down
  rw [if_pos hv]
  refine InvBut.set_thread (t := cur)
    (f := fun th => { th with status := .THREAD_BLOCKED, in_sema_down := some l })
    (InvBut.set_lock (l := l) (g := fun k =>
      { k with waiters := list_insert_ordered (compare_priority s) k.waiters cur }) h rfl rfl ?_)
    rfl hw.symm rfl (h.ordered cur)
  intro t ht
  rcases mem_list_insert_ordered.mp ht with rfl | ht
  · exact hlt
  · exact h.waiters_lt l t ht

/-- The thread that `schedule` resumes inside `sema_down`, and its lock. -/
def Resumes (s : kernel) (t l : ℕ) : Prop :=
  s.ready_list.head? = some t ∧ (s.threads t).in_sema_down = some l

/-- **`schedule`** keeps the law, except where the resumed thread takes a lock
that somebody with a higher priority still waits for. -/
theorem schedule_law (h : s.Inv) (hlaw : s.view.Law) :
    (schedule s).Inv ∧ ((schedule s).view.Law ↔
      ∀ t l, s.Resumes t l → (s.locks l).holder = none → s.view.NoHigherWaiter t l) := by
  unfold schedule Resumes
  cases hr : s.ready_list with
  | nil => exact ⟨h, fun _ t l hres => by simp at hres, fun _ => hlaw⟩
  | cons next rest =>
      have hready := h.ready_lt
      rw [hr] at hready
      have hlt : next < s.next_tid := hready next List.mem_cons_self
      have hrest : ∀ t ∈ rest, t < s.next_tid := fun t ht => hready t (List.mem_cons_of_mem _ ht)
      -- with nobody running, the invariant holds whatever `next` is suspended in
      have hoff : ({ switch_to s next rest with current := none } : kernel).Inv :=
        InvBut.set_thread (f := fun th => { th with status := .THREAD_RUNNING })
          (h.no_current hrest) rfl rfl rfl (h.ordered next)
      have hview : (switch_to s next rest).view = s.view := by
        unfold switch_to
        exact view_set_thread rfl rfl rfl
      have hwait : ((switch_to s next rest).threads next).in_sema_down
          = (s.threads next).in_sema_down := congrFun (congrArg donation_view.waiting hview) next
      have hiff : (∀ t l, ((next :: rest).head? = some t ∧ (s.threads t).in_sema_down = some l) →
            (s.locks l).holder = none → s.view.NoHigherWaiter t l)
          ↔ ∀ l, (s.threads next).in_sema_down = some l → (s.locks l).holder = none →
            s.view.NoHigherWaiter next l := by
        constructor
        · exact fun hall l hl => hall next l ⟨rfl, hl⟩
        · rintro hall t l ⟨ht, hl⟩
          obtain rfl := Option.some.inj ht
          exact hall l hl
      rw [hiff]
      dsimp only
      cases hw : (s.threads next).in_sema_down with
      | none =>
          refine ⟨{ hoff with running := ?_, current_lt := ?_ }, ?_⟩
          · intro c hc
            obtain rfl := Option.some.inj hc
            exact hwait.trans hw
          · intro c hc
            obtain rfl := Option.some.inj hc
            exact hlt
          · rw [hview]
            exact ⟨fun _ l hl => absurd hl (by simp), fun _ => hlaw⟩
      | some l =>
          rw [hw] at hwait
          cases hl : (s.locks l).holder with
          | none =>
              have hv : ((switch_to s next rest).locks l).value ≠ 0 := by
                have := h.value l
                rw [if_pos hl] at this
                exact fun h0 => absurd (this.symm.trans h0) (by decide)
              refine ⟨InvBut.sema_down_take hoff hlt hl rfl, ?_⟩
              rw [view_sema_down_take hv, hview, donation_view.take_law_iff hlaw hl (.inr hw)]
              constructor
              · intro hno l' hl' _
                obtain rfl := Option.some.inj hl'
                exact hno
              · exact fun hall => hall l rfl hl
          | some h' =>
              -- somebody has been faster: back to sleep, as before
              have hv : ((switch_to s next rest).locks l).value = 0 := by
                have := h.value l
                rwa [hl, if_neg (by simp)] at this
              constructor
              · exact InvBut.sema_down_again hoff hlt hwait hv
              · rw [view_sema_down_block hv, hview]
                have hsame : s.view.block next l = s.view := by
                  unfold donation_view.block
                  rw [show some l = s.view.waiting next from hw.symm, Function.update_eq_self]
                rw [hsame]
                refine ⟨fun _ l' hl' hnone => ?_, fun _ => hlaw⟩
                obtain rfl := Option.some.inj hl'
                rw [hl] at hnone
                cases hnone

end kernel

/-! ## Steps and runs -/

/-- The condition on the state before a call under which it keeps the law.
A priority is recomputed only when the records agree with the waiters, and a
lock is taken only when nobody with a higher priority waits for it. -/
def StepOk (s : kernel) : kernel_action → Prop
  | .lock_acquire l => (s.locks l).holder = none →
      ∀ c, s.current = some c → s.view.NoHigherWaiter c l
  | .lock_release l => ∀ c, s.current = some c →
      s.Accounts c (s.threads c).original_priority (· ≠ l)
  | .thread_set_priority p => ∀ c, s.current = some c → s.Accounts c p fun _ => True
  | .create_donation => True
  | .thread_create _ => True
  | .timer_yield => True
  | .schedule => ∀ t l, s.Resumes t l → (s.locks l).holder = none → s.view.NoHigherWaiter t l

/-- The condition on what the running thread `c` does inside `create_donation`. The
locks of `malloc` are free, and nobody comes to wait for them; giving one back neither
changes the priority of `c` nor makes it yield; and the timer does not take the CPU. -/
def Undisturbed (s : kernel) (c : ℕ) : kernel_action → Prop
  | .create_donation => True
  | .lock_acquire k => (s.locks k).holder = none ∧ ∀ w < s.next_tid,
        (s.threads w).in_sema_down ≠ some k
  | .lock_release k => (s.locks k).waiters = []
      ∧ (∀ w < s.next_tid, (s.threads w).in_sema_down ≠ some k)
      ∧ s.KeepsOwn c k ∧ ∀ t ∈ s.ready_list, (s.threads t).priority ≤ (s.threads c).priority
  | _ => False

/-- No thread is inside `lock_acquire`, but for those that wait in `sema_down`. -/
def Between (s : kernel) : Prop := ∀ t, (s.threads t).in_create_donation = []

/-- **One step between calls.** It keeps the law exactly when it meets the condition, or
leads into `create_donation`. -/
theorem kernel_step_law {s s' : kernel} {a : kernel_action} (h : s.Inv) (hlaw : s.view.Law)
    (hrun : kernel_step s a = .ok s') :
    (s'.Inv ∧ (s'.view.Law ↔ StepOk s a)) ∨ StepOk s a ∧ ∃ cur call, s'.Inside cur call := by
  unfold kernel_step at hrun
  unfold StepOk
  split at hrun
  case h_1 c l hcur =>
    simp only [hcur, Option.some.injEq, forall_eq']
    rcases kernel.lock_acquire_law h hlaw hcur hrun with hkeeps | ⟨hheld, hinside⟩
    · exact .inl hkeeps
    · exact .inr ⟨fun hfree => absurd hfree hheld, c, hinside⟩
  case h_2 c hcur =>
    -- nobody is inside `create_donation`
    unfold lock_acquire_donate at hrun
    rw [h.outside c (by simp)] at hrun
    cases hrun
  case h_3 c l hcur =>
    obtain ⟨hinv, hiff⟩ := kernel.lock_release_law h hlaw hcur hrun
    simp only [hcur, Option.some.injEq, forall_eq']
    exact .inl ⟨hinv, hiff⟩
  case h_4 c p hcur =>
    obtain rfl := Outcome.ok.inj hrun
    simp only [hcur, Option.some.injEq, forall_eq']
    exact .inl (kernel.thread_set_priority_law h hlaw hcur)
  case h_5 c p hcur =>
    obtain ⟨hinv, hlaw'⟩ := kernel.thread_create_law h hlaw hcur hrun
    exact .inl ⟨hinv, fun _ => trivial, fun _ => hlaw'⟩
  case h_6 c hcur =>
    obtain rfl := Outcome.ok.inj hrun
    refine .inl ⟨h.thread_yield (h.current_lt c hcur), ?_⟩
    rw [kernel.view_thread_yield]
    exact ⟨fun _ => trivial, fun _ => hlaw⟩
  case h_7 =>
    obtain rfl := Outcome.ok.inj hrun
    exact .inl (kernel.schedule_law h hlaw)
  case h_8 => cases hrun

/-- **One step inside `create_donation`.** -/
theorem kernel.Inside.step {s s' : kernel} {a : kernel_action} {cur : ℕ} {call : donation_call}
    (h : s.Inside cur call) (hok : Undisturbed s cur a) (hrun : kernel_step s a = .ok s') :
    (s'.Inv ∧ s'.view.Law) ∨ ∃ call, s'.Inside cur call := by
  unfold kernel_step at hrun
  rw [h.current] at hrun
  have hall : ∀ {k : ℕ}, (∀ w < s.next_tid, (s.threads w).in_sema_down ≠ some k) →
      ∀ w, (s.threads w).in_sema_down ≠ some k :=
    fun hno w hw => hno w (h.inv.waiting_lt w _ hw) hw
  cases a with
  | lock_acquire k => exact .inr ⟨call, h.acquire hok.1 (hall hok.2) hrun⟩
  | create_donation => exact h.donate hrun
  | lock_release k => exact .inr ⟨call, h.release hok.1 (hall hok.2.1) hok.2.2.1 hok.2.2.2 hrun⟩
  | thread_set_priority p => exact hok.elim
  | thread_create p => exact hok.elim
  | timer_yield => exact hok.elim
  | schedule => exact hok.elim

/-- Inside `create_donation` is not between calls. -/
theorem kernel.Inside.not_between {s : kernel} {cur : ℕ} {call : donation_call}
    (h : s.Inside cur call) : ¬ Between s := by
  intro hbetween
  have hcalls := h.calls
  rw [hbetween cur] at hcalls
  cases hcalls

/-- The law holds in every state between calls that the run `as` from `s` passes. -/
def LawAlong : kernel → List kernel_action → Prop
  | s, [] => Between s → s.view.Law
  | s, a :: as => (Between s → s.view.Law) ∧ ∀ s', kernel_step s a = .ok s' → LawAlong s' as

/-- Every completed step of the run between calls meets the condition. -/
def OkAlong : kernel → List kernel_action → Prop
  | _, [] => True
  | s, a :: as => ∀ s', kernel_step s a = .ok s' → (Between s → StepOk s a) ∧ OkAlong s' as

/-- Nothing comes in between while the running thread is inside `create_donation`. -/
def UndisturbedAlong : kernel → List kernel_action → Prop
  | _, [] => True
  | s, a :: as => ∀ s', kernel_step s a = .ok s' →
      (∀ c, s.current = some c → (s.threads c).in_create_donation ≠ [] → Undisturbed s c a)
        ∧ UndisturbedAlong s' as

theorem LawAlong.start {s : kernel} {as : List kernel_action} (h : LawAlong s as) (hs : Between s) :
    s.view.Law := by
  cases as with
  | nil => exact h hs
  | cons a as => exact h.1 hs

/-- The same from between calls and from inside `create_donation`, where the law is not asked
for. -/
theorem lawAlong_iff_okAlong (as : List kernel_action) : ∀ {s : kernel},
    (s.Inv ∧ s.view.Law ∨ ∃ cur call, s.Inside cur call) → UndisturbedAlong s as →
    (LawAlong s as ↔ OkAlong s as) := by
  induction as with
  | nil =>
      rintro s (⟨-, hlaw⟩ | ⟨cur, call, hin⟩) -
      · exact ⟨fun _ => trivial, fun _ _ => hlaw⟩
      · exact ⟨fun _ => trivial, fun _ hs => absurd hs hin.not_between⟩
  | cons a as ih =>
      rintro s (⟨h, hlaw⟩ | ⟨cur, call, hin⟩) hquiet
      · have hs : Between s := fun t => h.outside t (by simp)
        constructor
        · rintro ⟨-, hall⟩ s' hstep
          have halong := hall s' hstep
          rcases kernel_step_law h hlaw hstep with ⟨hinv', hiff⟩ | ⟨hok, hin'⟩
          · have hlaw' := halong.start fun t => hinv'.outside t (by simp)
            exact ⟨fun _ => hiff.mp hlaw', (ih (.inl ⟨hinv', hlaw'⟩) (hquiet s' hstep).2).mp halong⟩
          · exact ⟨fun _ => hok, (ih (.inr hin') (hquiet s' hstep).2).mp halong⟩
        · intro hok
          refine ⟨fun _ => hlaw, fun s' hstep => ?_⟩
          obtain ⟨hstepok, hrest⟩ := hok s' hstep
          rcases kernel_step_law h hlaw hstep with ⟨hinv', hiff⟩ | ⟨-, hin'⟩
          · exact (ih (.inl ⟨hinv', hiff.mpr (hstepok hs)⟩) (hquiet s' hstep).2).mpr hrest
          · exact (ih (.inr hin') (hquiet s' hstep).2).mpr hrest
      · have hs := hin.not_between
        have hnext : ∀ s', kernel_step s a = .ok s' →
            (LawAlong s' as ↔ OkAlong s' as) := by
          intro s' hstep
          obtain ⟨hund, hrest⟩ := hquiet s' hstep
          have hcalls : (s.threads cur).in_create_donation ≠ [] := by
            rw [hin.calls]
            simp
          refine ih ?_ hrest
          exact (hin.step (hund cur hin.current hcalls) hstep).imp id fun ⟨call, h'⟩ =>
            ⟨cur, call, h'⟩
        constructor
        · exact fun halong s' hstep => ⟨fun hb => absurd hb hs,
            (hnext s' hstep).mp (halong.2 s' hstep)⟩
        · exact fun hok => ⟨fun hb => absurd hb hs,
            fun s' hstep => (hnext s' hstep).mpr (hok s' hstep).2⟩

/-- **The law along runs.** From any state that satisfies it (and the kernel's
invariant), and as long as no thread is disturbed inside `create_donation`, the law holds
in every state of a run between calls if and only if every step of the run between calls
meets the condition. -/
theorem donation_law_along_iff (as : List kernel_action) {s : kernel} (h : s.Inv)
    (hlaw : s.view.Law) (hquiet : UndisturbedAlong s as) : LawAlong s as ↔ OkAlong s as :=
  lawAlong_iff_okAlong as (.inl ⟨h, hlaw⟩) hquiet

/-! ### Two runs from the start of the kernel -/

/-- `main` takes lock 0; a thread of priority 40 starts, wants the lock, and waits. Its
`malloc` takes lock 1. -/
def one_waiter_run : List kernel_action :=
  [.lock_acquire 0, .thread_create 40, .schedule, .lock_acquire 0, .lock_acquire 1, .lock_release 1,
    .create_donation]

/-- The law holds all along, and `main` is at 40. -/
theorem donation_law_along_one_waiter : LawAlong kernel_boot one_waiter_run := by
  have hout : ∀ {s : kernel} {c : ℕ} {a : kernel_action}, (s.threads c).in_create_donation = [] →
      s.current = some c → ∀ c, s.current = some c → (s.threads c).in_create_donation ≠ [] →
      Undisturbed s c a := by
    intro s c a hnil hc c' hc' hne
    obtain rfl : c = c' := Option.some.inj (hc.symm.trans hc')
    exact absurd hnil hne
  have hin : ∀ {s : kernel} {a : kernel_action}, (s.threads 1).in_create_donation ≠ [] →
      Between s → StepOk s a := fun hne hs => absurd (hs 1) hne
  refine (donation_law_along_iff _ kernel_boot_inv kernel_boot_law ?_).mpr ?_
  · intro s₁ h₁
    obtain rfl := Outcome.ok.inj h₁
    refine ⟨hout (c := 0) rfl rfl, fun s₂ h₂ => ?_⟩
    obtain rfl := Outcome.ok.inj h₂
    refine ⟨hout (c := 0) rfl rfl, fun s₃ h₃ => ?_⟩
    obtain rfl := Outcome.ok.inj h₃
    refine ⟨fun _ => nofun, fun s₄ h₄ => ?_⟩
    obtain rfl := Outcome.ok.inj h₄
    refine ⟨hout (c := 1) rfl rfl, fun s₅ h₅ => ?_⟩
    obtain rfl := Outcome.ok.inj h₅
    -- inside `create_donation`
    refine ⟨fun c hc _ => ?_, fun s₆ h₆ => ?_⟩
    · obtain rfl : 1 = c := Option.some.inj hc
      exact ⟨rfl, by decide⟩
    obtain rfl := Outcome.ok.inj h₆
    refine ⟨fun c hc _ => ?_, fun s₇ h₇ => ⟨fun _ _ _ => trivial, trivial⟩⟩
    obtain rfl : 1 = c := Option.some.inj hc
    refine ⟨rfl, by decide, ⟨Set.mem_insert _ _, ?_⟩, by decide⟩
    rintro p (rfl | ⟨d, hd, -⟩)
    · exact le_refl _
    · cases hd
  · intro s₁ h₁
    obtain rfl := Outcome.ok.inj h₁
    refine ⟨fun _ _ c _ w _ hw => absurd hw (by simp [kernel.view, kernel_boot, init_thread]), ?_⟩
    intro s₂ h₂
    obtain rfl := Outcome.ok.inj h₂
    refine ⟨fun _ => trivial, fun s₃ h₃ => ?_⟩
    obtain rfl := Outcome.ok.inj h₃
    refine ⟨fun _ => ?_, fun s₄ h₄ => ?_⟩
    · rintro t l ⟨ht, hl⟩
      obtain rfl : 1 = t := Option.some.inj ht
      have hnone : (none : Option ℕ) = some l := hl
      cases hnone
    obtain rfl := Outcome.ok.inj h₄
    refine ⟨fun _ hfree => absurd hfree (by decide), fun s₅ h₅ => ?_⟩
    obtain rfl := Outcome.ok.inj h₅
    refine ⟨hin (by decide), fun s₆ h₆ => ?_⟩
    obtain rfl := Outcome.ok.inj h₆
    refine ⟨hin (by decide), fun s₇ h₇ => ⟨fun _ => trivial, trivial⟩⟩

/-- `thread_create` with its locks: 2 is that of the page pool, 3 is `tid_lock`. -/
def create_run (priority : ℤ) : List kernel_action :=
  [.lock_acquire 2, .lock_release 2, .lock_acquire 3, .lock_release 3, .thread_create priority]

/-- `main` holds two locks. A thread of priority 20 waits for the first, then one
of priority 15 for the second; the second is not recorded, as `main` is at 20 by
then. The `malloc` of the first takes lock 4, that of the heap. -/
def lower_waiter_run : List kernel_action :=
  [.lock_acquire 0, .lock_acquire 1] ++ create_run 15 ++ create_run 20
    ++ [.thread_set_priority 10, .schedule, .lock_acquire 0, .lock_acquire 4, .lock_release 4,
      .create_donation, .schedule, .lock_acquire 1, .schedule, .lock_release 0]

/-- When `main` gives the first lock back it falls to 10, although a thread of
priority 15 waits for the second. -/
theorem lower_waiter_forgotten : ∃ s, kernel_run kernel_boot lower_waiter_run = .ok s ∧ Between s
    ∧ (s.locks 1).holder = some 0 ∧ (s.threads 1).in_sema_down = some 1
    ∧ (s.threads 1).priority = 15 ∧ (s.threads 0).original_priority = 10
    ∧ (s.threads 0).priority = 10 ∧ ¬ s.view.Law := by
  refine ⟨_, rfl, ?_, by decide, by decide, by decide, by decide, by decide, ?_⟩
  · intro t
    match t with
    | 0 => rfl
    | 1 => rfl
    | 2 => rfl
    | _ + 3 => rfl
  intro hlaw
  have hle := (hlaw 0).2 (Set.mem_insert_of_mem _ ⟨1, 1, by decide, by decide, rfl⟩)
  exact absurd hle (by decide)

end Pintos
