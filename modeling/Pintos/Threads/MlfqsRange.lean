/-
The range of the numbers of the multi-level feedback queue scheduler.

`load_avg` is a weighted mean of itself and the number of ready threads, rounded down at
both terms, so it stays below the greatest such number; that is the invariant, and the
32-bit products of `update_load_avg` fit because of it. From it the coefficient of
`update_recent_cpu_all` is below one, and a multiplication by it does not add to the
absolute value of `recent_cpu`.
-/
import Pintos.Threads.Mlfqs
import Mathlib.Algebra.Order.Group.Unbundled.Int
import Mathlib.Algebra.Order.Ring.Abs
import Mathlib.Data.List.Infix

set_option autoImplicit false

namespace Pintos

open fixed_t

/-! ## Arithmetic -/

/-- The results that `update_load_avg` computes on its way, none of them out of `int`'s range. -/
structure LoadFits (load_avg ready_threads : ℤ) : Prop where
  product : IsI32 (load_avg * 59)
  term1 : IsI32 ((load_avg * 59).tdiv 60)
  one : IsI32 (1 * F)
  share : IsI32 ((1 * F).tdiv 60)
  term2 : IsI32 ((1 * F).tdiv 60 * ready_threads)
  sum : IsI32 ((load_avg * 59).tdiv 60 + (1 * F).tdiv 60 * ready_threads)

/-- The results on the way to the coefficient of `update_recent_cpu_all`: `dividend` is computed
in 64 bits. -/
structure CoefficientFits (load_avg : ℤ) : Prop where
  twice : IsI32 (load_avg * 2)
  one : IsI32 (1 * F)
  divisor : IsI32 (load_avg * 2 + 1 * F)
  dividend : -(2 ^ 63) ≤ load_avg * 2 * F ∧ load_avg * 2 * F < 2 ^ 63
  quotient : IsI32 ((load_avg * 2 * F).tdiv (load_avg * 2 + 1 * F))

/-- The `coeff` of `update_recent_cpu_all`. -/
def coefficient (load_avg : ℤ) : Outcome ℤ :=
  div_fp (mul_fp_int load_avg 2) (add_fp_int (mul_fp_int load_avg 2) 1)

section Arithmetic

variable {load ready c r nice : ℤ} {N : ℕ}

theorem load_fits (hN : N ≤ 2000) (h0 : 0 ≤ load) (hload : load ≤ N * F) (hr0 : 0 ≤ ready)
    (hr : ready ≤ N) : LoadFits load ready := by
  unfold F at hload
  have hterm1 : (load * 59).tdiv 60 = load * 59 / 60 := Int.tdiv_eq_ediv_of_nonneg (by omega)
  have hshare : (1 * F).tdiv 60 = 273 := by decide
  constructor
  · unfold IsI32
    omega
  · rw [hterm1]
    unfold IsI32
    omega
  · decide
  · decide
  · rw [hshare]
    unfold IsI32
    omega
  · rw [hterm1, hshare]
    unfold IsI32
    omega

/-- **The invariant of the recurrence**: 59/60 of at most `N` and 1/60 of at most `N`. -/
theorem next_load_le (h0 : 0 ≤ load) (hload : load ≤ N * F) (hr0 : 0 ≤ ready) (hr : ready ≤ N) :
    0 ≤ (load * 59).tdiv 60 + (1 * F).tdiv 60 * ready
      ∧ (load * 59).tdiv 60 + (1 * F).tdiv 60 * ready ≤ N * F := by
  have hterm1 : (load * 59).tdiv 60 = load * 59 / 60 := Int.tdiv_eq_ediv_of_nonneg (by omega)
  have hshare : (1 * F).tdiv 60 = 273 := by decide
  rw [hterm1, hshare]
  unfold F at hload ⊢
  omega

/-- Twice the load over twice the load and one is below one. -/
theorem quotient_range (h0 : 0 ≤ load) :
    0 ≤ (load * 2 * F).tdiv (load * 2 + 1 * F) ∧ (load * 2 * F).tdiv (load * 2 + 1 * F) < F := by
  unfold F
  have hpos : 0 < load * 2 + 1 * 2 ^ 14 := by omega
  constructor
  · exact Int.tdiv_nonneg (by omega) (by omega)
  · rw [Int.tdiv_eq_ediv_of_nonneg (by omega)]
    apply Int.ediv_lt_of_lt_mul hpos
    omega

theorem coefficient_fits (hN : N ≤ 2000) (h0 : 0 ≤ load) (hload : load ≤ N * F) :
    CoefficientFits load := by
  have hq := quotient_range h0
  unfold F at hload hq
  constructor
  · unfold IsI32
    omega
  · decide
  · unfold IsI32
    unfold F
    omega
  · unfold F
    omega
  · unfold IsI32 F
    omega

/-- What is computed when everything fits. -/
theorem coefficient_eq (h : CoefficientFits load) (h0 : 0 ≤ load) :
    add_fp_int (mul_fp_int load 2) 1 = load * 2 + F
      ∧ coefficient load = .ok ((load * 2 * F).tdiv (load * 2 + 1 * F)) := by
  have htwice : mul_fp_int load 2 = load * 2 := i32_of_isI32 h.twice
  have hone : i32 (1 * F) = 1 * F := i32_of_isI32 h.one
  have hdivisor : add_fp_int (load * 2) 1 = load * 2 + 1 * F := by
    rw [add_fp_int, hone]
    exact i32_of_isI32 h.divisor
  have hne : load * 2 + 1 * F ≠ 0 := by
    unfold F
    omega
  rw [coefficient, htwice, hdivisor]
  refine ⟨by rw [Int.one_mul], ?_⟩
  rw [div_fp, if_neg hne, i32_of_isI32 h.quotient]

/-- A multiplication by less than one does not add to the absolute value. -/
theorem mul_fp_abs_le (hc0 : 0 ≤ c) (hcF : c < F) (hr : IsI32 r) : |mul_fp c r| ≤ |r| := by
  have hF : (0 : ℤ) < F := by decide
  have habs : |(c * r).tdiv F| ≤ |r| := by
    have hnat : ((c * r).tdiv F).natAbs ≤ r.natAbs := by
      rw [Int.natAbs_tdiv, Int.natAbs_mul]
      apply Nat.div_le_of_le_mul
      exact Nat.mul_le_mul_right _ (by omega)
    rw [Int.abs_eq_natAbs, Int.abs_eq_natAbs]
    exact_mod_cast hnat
  have hfit : IsI32 ((c * r).tdiv F) := by
    by_cases hr0 : 0 ≤ r
    · have hnn : 0 ≤ (c * r).tdiv F := Int.tdiv_nonneg (Int.mul_nonneg hc0 hr0) hF.le
      rw [abs_of_nonneg hr0, abs_of_nonneg hnn] at habs
      unfold IsI32 at hr ⊢
      omega
    · have hnp : (c * r).tdiv F ≤ 0 := by
        have hneg : c * r = -(c * -r) := by rw [Int.mul_neg, Int.neg_neg]
        rw [hneg, Int.neg_tdiv]
        have hpos : 0 ≤ (c * -r).tdiv F := Int.tdiv_nonneg (Int.mul_nonneg hc0 (by omega)) hF.le
        omega
      rw [abs_of_neg (not_le.mp hr0), abs_of_nonpos hnp] at habs
      unfold IsI32 at hr ⊢
      omega
  rw [mul_fp, i32_of_isI32 hfit]
  exact habs

/-- A sum that leaves the range comes back with a smaller absolute value. -/
theorem abs_i32_le (x : ℤ) : |i32 x| ≤ |x| := by
  by_cases hx : IsI32 x
  · rw [i32_of_isI32 hx]
  · have hwrapped := isI32_i32 x
    have hle : |i32 x| ≤ 2 ^ 31 := by
      rw [abs_le]
      unfold IsI32 at hwrapped
      omega
    refine hle.trans ?_
    rw [le_abs]
    unfold IsI32 at hx
    omega

/-- **One assignment of `update_recent_cpu_all`**, also when its 32-bit sum wraps. -/
theorem next_recent_cpu_abs_le (hc0 : 0 ≤ c) (hcF : c < F) (hr : IsI32 r) :
    |add_fp (mul_fp c r) (int_to_fp nice)| ≤ |r| + |nice| * F := by
  calc |add_fp (mul_fp c r) (int_to_fp nice)| ≤ |mul_fp c r + int_to_fp nice| := abs_i32_le _
    _ ≤ |mul_fp c r| + |int_to_fp nice| := abs_add_le _ _
    _ ≤ |r| + |nice * F| := add_le_add (mul_fp_abs_le hc0 hcF hr) (abs_i32_le _)
    _ = |r| + |nice| * F := by rw [abs_mul, abs_of_nonneg (by decide : (0 : ℤ) ≤ F)]

end Arithmetic

/-! ## The scheduler -/

namespace mlfqs

/-- The threads that are ready or running. -/
def runnable (x : mlfqs) : ℕ := x.s.ready_list.length + if x.s.current = none then 0 else 1

/-- At most `N` threads are ready or running in the states of a run. -/
def AtMost (N : ℕ) (es : List mlfqs_event) : Prop :=
  ∀ pre post x, es = pre ++ post → mlfqs_run pre mlfqs_boot = some x → x.runnable ≤ N

/-- The `nice` values that a run sets are from -20 to 20. -/
def NiceInRange (es : List mlfqs_event) : Prop := ∀ n, .thread_set_nice n ∈ es → -20 ≤ n ∧ n ≤ 20

/-- The state in which a tick calls `update_recent_cpu_all`, once a second. -/
def at_second (x : mlfqs) : mlfqs :=
  update_load_avg (update_recent_cpu { x with ticks := x.ticks + 1 })

/-- **The invariant.** -/
structure InRange (N : ℕ) (x : mlfqs) : Prop where
  cpu : ∀ t, IsI32 (x.recent_cpu t)
  nice : ∀ t, -20 ≤ x.nice t ∧ x.nice t ≤ 20
  load : 0 ≤ x.load_avg ∧ x.load_avg ≤ N * F

variable {N : ℕ} {x x' : mlfqs}

theorem mlfqs_boot_in_range (N : ℕ) : InRange N mlfqs_boot where
  cpu _ := (by decide : IsI32 0)
  nice _ := (by decide : -20 ≤ (0 : ℤ) ∧ (0 : ℤ) ≤ 20)
  load := by
    have hload : mlfqs_boot.load_avg = 0 := rfl
    rw [hload]
    unfold F
    omega

theorem update_load_avg_eq (x : mlfqs) : (update_load_avg x).load_avg
    = add_fp (div_fp_int (mul_fp_int x.load_avg 59) 60)
        (mul_fp_int (div_fp_int (int_to_fp 1) 60) x.runnable) := by
  unfold update_load_avg runnable
  dsimp only
  split <;> simp

/-- Nothing wraps in `update_load_avg`. -/
theorem update_load_avg_exact (h : LoadFits x.load_avg x.runnable) : (update_load_avg x).load_avg
    = (x.load_avg * 59).tdiv 60 + (1 * F).tdiv 60 * x.runnable := by
  have hproduct : mul_fp_int x.load_avg 59 = x.load_avg * 59 := i32_of_isI32 h.product
  have hone : int_to_fp 1 = 1 * F := i32_of_isI32 h.one
  have hterm2 : mul_fp_int ((1 * F).tdiv 60) x.runnable = (1 * F).tdiv 60 * x.runnable :=
    i32_of_isI32 h.term2
  rw [update_load_avg_eq, hproduct, hone, div_fp_int, div_fp_int, hterm2]
  exact i32_of_isI32 h.sum

/-- An assignment to one thread's value. -/
theorem update_in {P : ℤ → Prop} {f : ℕ → ℤ} (h : ∀ t, P (f t)) (u : ℕ) {v : ℤ} (hv : P v) :
    ∀ t, P (Function.update f u v t) := by
  intro t
  by_cases ht : t = u
  · rw [ht, Function.update_self]
    exact hv
  · rw [Function.update_of_ne ht]
    exact h t

/-- The invariant is about three fields. -/
theorem InRange.congr (h : x.InRange N) (hcpu : x'.recent_cpu = x.recent_cpu)
    (hnice : x'.nice = x.nice) (hload : x'.load_avg = x.load_avg) : x'.InRange N :=
  ⟨hcpu ▸ h.cpu, hnice ▸ h.nice, hload ▸ h.load⟩

theorem InRange.update_recent_cpu (h : x.InRange N) : (update_recent_cpu x).InRange N := by
  unfold Pintos.update_recent_cpu
  split
  · exact h
  · exact ⟨update_in h.cpu _ (isI32_i32 _), h.nice, h.load⟩

theorem update_recent_cpu_runnable (x : mlfqs) :
    (Pintos.update_recent_cpu x).runnable = x.runnable := by
  unfold Pintos.update_recent_cpu
  split <;> rfl

theorem InRange.update_load_avg (hN : N ≤ 2000) (h : x.InRange N) (hr : x.runnable ≤ N) :
    (update_load_avg x).InRange N := by
  have hfit : LoadFits x.load_avg x.runnable :=
    load_fits hN h.load.1 h.load.2 (by omega) (by omega)
  refine ⟨h.cpu, h.nice, ?_⟩
  rw [update_load_avg_exact hfit]
  exact next_load_le h.load.1 h.load.2 (by omega) (by omega)

theorem InRange.at_second (hN : N ≤ 2000) (h : x.InRange N) (hr : x.runnable ≤ N) :
    x.at_second.InRange N := by
  have htick : InRange N { x with ticks := x.ticks + 1 } := h.congr rfl rfl rfl
  apply htick.update_recent_cpu.update_load_avg hN
  rw [update_recent_cpu_runnable]
  exact hr

/-- **`update_recent_cpu_all`** multiplies the value of each thread by the coefficient once: the
load does not change on the way, and no thread comes twice. -/
theorem update_recent_cpu_loop_eq {c : ℤ} (ts : List ℕ) (hc : coefficient x.load_avg = .ok c)
    (hnd : ts.Nodup) : update_recent_cpu_loop ts x = .ok { x with
      recent_cpu := fun t => if t ∈ ts
        then add_fp (mul_fp c (x.recent_cpu t)) (int_to_fp (x.nice t)) else x.recent_cpu t } := by
  induction ts generalizing x with
  | nil => simp [update_recent_cpu_loop]
  | cons t ts ih =>
      obtain ⟨hts, hnd⟩ := List.nodup_cons.mp hnd
      let v := add_fp (mul_fp c (x.recent_cpu t)) (int_to_fp (x.nice t))
      have hrest := ih (x := { x with recent_cpu := Function.update x.recent_cpu t v }) hc hnd
      unfold coefficient at hc
      rw [update_recent_cpu_loop, hc]
      refine hrest.trans ?_
      congr 2
      funext u
      by_cases hut : u = t
      · rw [hut, if_neg hts, if_pos List.mem_cons_self]
        exact Function.update_self _ _ _
      · simp [hut]

theorem update_recent_cpu_all_eq {c : ℤ} (hc : coefficient x.load_avg = .ok c) :
    update_recent_cpu_all x = .ok { x with
      recent_cpu := fun t => if t < x.s.next_tid
        then add_fp (mul_fp c (x.recent_cpu t)) (int_to_fp (x.nice t)) else x.recent_cpu t } := by
  have hloop := update_recent_cpu_loop_eq (all_threads x) hc List.nodup_range
  simp only [all_threads, List.mem_range] at hloop
  exact hloop

/-- In range, the coefficient is below one. -/
theorem InRange.coefficient (hN : N ≤ 2000) (h : x.InRange N) :
    ∃ c, coefficient x.load_avg = .ok c ∧ 0 ≤ c ∧ c < F := by
  have hfit := coefficient_fits hN h.load.1 h.load.2
  exact ⟨_, (coefficient_eq hfit h.load.1).2, quotient_range h.load.1⟩

/-- **A step of `update_recent_cpu_all`** adds at most `nice` to the absolute value. -/
theorem InRange.update_recent_cpu_all (hN : N ≤ 2000) (h : x.InRange N) :
    ∃ x', update_recent_cpu_all x = .ok x' ∧ x'.InRange N ∧ x'.s = x.s ∧ x'.ticks = x.ticks
      ∧ ∀ t, |x'.recent_cpu t| ≤ |x.recent_cpu t| + |x.nice t| * F := by
  obtain ⟨c, hc, hc0, hcF⟩ := h.coefficient hN
  refine ⟨_, update_recent_cpu_all_eq hc, ⟨fun t => ?_, h.nice, h.load⟩, rfl, rfl, fun t => ?_⟩
  · dsimp only
    split
    · exact isI32_i32 _
    · exact h.cpu t
  · dsimp only
    split
    · exact next_recent_cpu_abs_le hc0 hcF (h.cpu t)
    · have hnice : 0 ≤ |x.nice t| * F := mul_nonneg (abs_nonneg _) (by decide)
      omega

/-! ### What does not touch the numbers -/

theorem update_all_priority_loop_fields (ts : List ℕ) : ∀ x : mlfqs,
    (update_all_priority_loop ts x).recent_cpu = x.recent_cpu
      ∧ (update_all_priority_loop ts x).nice = x.nice
      ∧ (update_all_priority_loop ts x).load_avg = x.load_avg
      ∧ (update_all_priority_loop ts x).ticks = x.ticks := by
  induction ts with
  | nil => exact fun x => ⟨rfl, rfl, rfl, rfl⟩
  | cons t ts ih => exact fun x => ih (update_priority x t)

theorem compare_on_return_fields (x : mlfqs) : (compare_on_return x).recent_cpu = x.recent_cpu
    ∧ (compare_on_return x).nice = x.nice ∧ (compare_on_return x).load_avg = x.load_avg
    ∧ (compare_on_return x).ticks = x.ticks := by
  unfold compare_on_return
  split <;> exact ⟨rfl, rfl, rfl, rfl⟩

theorem update_all_priority_fields (x : mlfqs) : (update_all_priority x).recent_cpu = x.recent_cpu
    ∧ (update_all_priority x).nice = x.nice ∧ (update_all_priority x).load_avg = x.load_avg
    ∧ (update_all_priority x).ticks = x.ticks := by
  obtain ⟨hcpu, hnice, hload, hticks⟩ := update_all_priority_loop_fields (all_threads x) x
  obtain ⟨hcpu', hnice', hload', hticks'⟩ :=
    compare_on_return_fields (update_all_priority_loop (all_threads x) x)
  exact ⟨hcpu'.trans hcpu, hnice'.trans hnice, hload'.trans hload, hticks'.trans hticks⟩

/-! ### Steps and runs -/

theorem update_recent_cpu_fields (x : mlfqs) : (update_recent_cpu x).s = x.s
    ∧ (update_recent_cpu x).nice = x.nice ∧ (update_recent_cpu x).load_avg = x.load_avg
    ∧ (update_recent_cpu x).ticks = x.ticks := by
  unfold update_recent_cpu
  split <;> exact ⟨rfl, rfl, rfl, rfl⟩

/-- A tick, with the second's work and the priorities apart. -/
theorem mlfqs_tick_eq_ok : mlfqs_tick x = .ok x' ↔ ∃ y,
    (if (x.ticks + 1) % TIMER_FREQ = 0 then update_recent_cpu_all x.at_second
      else .ok (update_recent_cpu { x with ticks := x.ticks + 1 })) = .ok y
    ∧ x' = if y.ticks % 4 = 0 then update_all_priority y else y := by
  have hticks := (update_recent_cpu_fields { x with ticks := x.ticks + 1 }).2.2.2
  unfold mlfqs_tick mlfqs_on_tick at_second
  dsimp only at hticks ⊢
  rw [hticks]
  split
  · rw [Outcome.bind_eq_ok]
    simp only [Outcome.pure_eq, Outcome.ok.injEq, eq_comm]
  · simp only [Outcome.pure_eq, Outcome.ok_bind, Outcome.ok.injEq]
    constructor
    · intro hx
      exact ⟨_, rfl, hx.symm⟩
    · rintro ⟨y, rfl, rfl⟩
      rfl

/-- **A timer tick.** -/
theorem InRange.mlfqs_tick (hN : N ≤ 2000) (h : x.InRange N) (hr : x.runnable ≤ N)
    (hrun : mlfqs_tick x = .ok x') : x'.InRange N := by
  have htick : InRange N { x with ticks := x.ticks + 1 } := h.congr rfl rfl rfl
  obtain ⟨y, hy, rfl⟩ := mlfqs_tick_eq_ok.mp hrun
  have hyr : y.InRange N := by
    split at hy
    · obtain ⟨y', hy', hrange, -⟩ := (h.at_second hN hr).update_recent_cpu_all hN
      have heq : y' = y := Outcome.ok.inj (hy'.symm.trans hy)
      exact heq ▸ hrange
    · obtain rfl := Outcome.ok.inj hy
      exact htick.update_recent_cpu
  split
  · obtain ⟨hcpu, hnice, hload, -⟩ := update_all_priority_fields y
    exact hyr.congr hcpu hnice hload
  · exact hyr

/-- **One event**, if `nice` is set in range. -/
theorem InRange.step (hN : N ≤ 2000) (h : x.InRange N) (hr : x.runnable ≤ N) {e : mlfqs_event}
    (hnice : ∀ n, e = .thread_set_nice n → -20 ≤ n ∧ n ≤ 20) (hrun : mlfqs_step x e = .ok x') :
    x'.InRange N := by
  cases ha : e.action with
  | some a =>
      obtain ⟨s, -, rfl⟩ := (step_of_action ha).mp hrun
      exact h.congr rfl rfl rfl
  | none =>
      cases e with
      | timer_interrupt => exact h.mlfqs_tick hN hr hrun
      | thread_create p =>
          change by_current x _ = _ at hrun
          unfold by_current at hrun
          split at hrun
          · obtain ⟨_, _, hret⟩ := Outcome.bind_eq_ok.mp hrun
            obtain rfl := Outcome.ok.inj hret
            exact ⟨update_in h.cpu _ (h.cpu _),
              update_in (P := fun n => -20 ≤ n ∧ n ≤ 20) h.nice _ (h.nice _), h.load⟩
          · cases hrun
      | thread_set_nice n =>
          change by_current x _ = _ at hrun
          unfold by_current at hrun
          split at hrun
          · obtain rfl := Outcome.ok.inj hrun
            exact ⟨h.cpu, update_in (P := fun n => -20 ≤ n ∧ n ≤ 20) h.nice _ (hnice n rfl), h.load⟩
          · cases hrun
      | lock_acquire l => cases ha
      | create_donation => cases ha
      | lock_release l => cases ha
      | timer_yield => cases ha
      | schedule => cases ha
      | thread_block => cases ha
      | thread_unblock t => cases ha

/-- **A run.** -/
theorem in_range_along (hN : N ≤ 2000) {es : List mlfqs_event} (hr : AtMost N es)
    (hnice : NiceInRange es) {pre post : List mlfqs_event} (hes : es = pre ++ post)
    (hrun : mlfqs_run pre mlfqs_boot = some x) : x.InRange N := by
  apply Runs.invariant_along (C := fun x e =>
    x.runnable ≤ N ∧ ∀ n, e = .thread_set_nice n → -20 ≤ n ∧ n ≤ 20)
    (fun x e x' hx hC hstep => hx.step hN hC.1 hC.2 (Outcome.toOption_eq_some.mp hstep))
    (mlfqs_boot_in_range N) _ hes hrun
  intro pre e post y y' hes hpre _
  refine ⟨hr pre (e :: post) y hes hpre, fun n hn => hnice n ?_⟩
  rw [hes, hn]
  exact List.mem_append_right _ List.mem_cons_self

end mlfqs

open mlfqs in
/-- **MLFQS arithmetic stays in range.** At most `N ≤ 2000` threads are ready or running and every
`nice` is from -20 to 20: then in every state of the run the load is from 0 to `N`, nothing wraps
when the next tick computes the load and the coefficient from it, the divisor is at least one, the
coefficient is at least zero and below one, and no value of `recent_cpu` moves away from zero by
more than `nice`. -/
theorem mlfqs_arithmetic_in_range {N : ℕ} (hN : N ≤ 2000) {es : List mlfqs_event}
    (hr : AtMost N es) (hnice : NiceInRange es) {pre post : List mlfqs_event} {x : mlfqs}
    (hes : es = pre ++ post) (hrun : mlfqs_run pre mlfqs_boot = some x) :
    (0 ≤ x.load_avg ∧ x.load_avg ≤ N * F)
      ∧ LoadFits x.load_avg x.runnable
      ∧ (0 ≤ x.at_second.load_avg ∧ x.at_second.load_avg ≤ N * F)
      ∧ CoefficientFits x.at_second.load_avg
      ∧ F ≤ add_fp_int (mul_fp_int x.at_second.load_avg 2) 1
      ∧ (∃ c, coefficient x.at_second.load_avg = .ok c ∧ 0 ≤ c ∧ c < F)
      ∧ ∃ y, update_recent_cpu_all x.at_second = .ok y ∧ ∀ t,
          |y.recent_cpu t| ≤ |x.at_second.recent_cpu t| + |x.at_second.nice t| * F := by
  have h := in_range_along hN hr hnice hes hrun
  have hrx : x.runnable ≤ N := hr pre post x hes hrun
  have hsec := h.at_second hN hrx
  have hfit := coefficient_fits hN hsec.load.1 hsec.load.2
  obtain ⟨y, hy, -, -, -, hle⟩ := hsec.update_recent_cpu_all hN
  refine ⟨h.load, load_fits hN h.load.1 h.load.2 (by omega) (by omega), hsec.load, hfit, ?_,
    hsec.coefficient hN, y, hy, hle⟩
  rw [(coefficient_eq hfit hsec.load.1).1]
  have := hsec.load.1
  omega

/-- `main` sets its `nice` value to 5 and creates two threads; then a second passes. -/
def three_threads : List mlfqs_event :=
  [.thread_set_nice 5, .thread_create 31, .thread_unblock 1, .thread_create 31, .thread_unblock 2]
    ++ ([4, 4, 8, 4, 8, 4, 8, 4, 8, 4, 8, 4, 8, 4, 8, 4].flatMap fun k =>
        List.replicate k .timer_interrupt ++ [.schedule])
    ++ List.replicate 8 .timer_interrupt

theorem three_threads_at_most : mlfqs.AtMost 3 three_threads := by
  -- every beginning of the run is evaluated
  have hall : ∀ pre ∈ three_threads.inits,
      (mlfqs_run pre mlfqs_boot).all (fun x => decide (x.runnable ≤ 3)) = true := by
    decide +kernel
  intro pre post x h hrun
  have hpre := hall pre ((List.mem_inits _ _).mpr ⟨post, h.symm⟩)
  rw [hrun] at hpre
  exact of_decide_eq_true hpre

theorem three_threads_nice : mlfqs.NiceInRange three_threads := by
  intro n hn
  have hn' : n = 5 := by simpa [three_threads] using hn
  omega

/-- At the end of the second the load is not 0, and nothing has wrapped. -/
theorem mlfqs_arithmetic_in_range_three_threads :
    ∃ x, mlfqs_run three_threads mlfqs_boot = some x ∧ x.ticks = 100 ∧ x.load_avg = 819
      ∧ LoadFits x.load_avg x.runnable ∧ CoefficientFits x.at_second.load_avg := by
  have hend : (mlfqs_run three_threads mlfqs_boot).any
      (fun x => decide (x.ticks = 100 ∧ x.load_avg = 819)) = true := by
    decide +kernel
  obtain ⟨x, hrun, hx⟩ := (Option.any_eq_true _ _).mp hend
  obtain ⟨hticks, hload⟩ := of_decide_eq_true hx
  have h := mlfqs_arithmetic_in_range (by decide) three_threads_at_most three_threads_nice
    (List.append_nil three_threads).symm hrun
  exact ⟨x, hrun, hticks, hload, h.2.1, h.2.2.2.1⟩

end Pintos
