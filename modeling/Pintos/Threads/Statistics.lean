/-
`thread_get_load_avg` and `thread_get_recent_cpu`: 100 times a fixed-point number, rounded.

The product is taken in 32 bits. For the load that is enough; `recent_cpu` of a thread that
has run for some seconds behind a high load is too large for it. `overload_run` is such a
run, made by the scheduler itself: 61 threads share the processor for a minute, all but one
go to sleep, and that one runs on for 12 seconds.
-/
import Pintos.Threads.MlfqsRange
import Mathlib.Algebra.BigOperators.Group.List.Basic

set_option autoImplicit false

namespace Pintos

open fixed_t

/-! ## The calls -/

/-- `thread_get_load_avg`. -/
def thread_get_load_avg (x : mlfqs) : ℤ := fp_to_int_round (mul_fp_int x.load_avg 100)

/-- `thread_get_recent_cpu` by `cur`. -/
def thread_get_recent_cpu (x : mlfqs) (cur : ℕ) : ℤ :=
  fp_to_int_round (mul_fp_int (x.recent_cpu cur) 100)

/-- The integer nearest to a fixed-point number, halves away from zero. -/
def nearest (x : ℤ) : ℤ := if 0 ≤ x then (2 * x + F) / (2 * F) else -((2 * -x + F) / (2 * F))

/-- `result` is 100 times `x`, rounded, and nothing wraps on the way. -/
structure Exact100 (x result : ℤ) : Prop where
  product : IsI32 (x * 100)
  rounding : IsI32 (if x * 100 ≥ 0 then x * 100 + F / 2 else x * 100 - F / 2)
  value : result = nearest (x * 100)

/-- **100 times `x` in 32 bits**: exact for `x` up to 1310.72 in absolute value. -/
theorem exact100_iff (x : ℤ) : Exact100 x (fp_to_int_round (mul_fp_int x 100))
    ↔ -21474754 ≤ x ∧ x ≤ 21474754 := by
  constructor
  · intro h
    have hround := h.rounding
    unfold IsI32 F at hround
    split at hround <;> omega
  · rintro ⟨hlow, hhigh⟩
    have hproduct : IsI32 (x * 100) := by
      unfold IsI32
      omega
    have hmul : mul_fp_int x 100 = x * 100 := i32_of_isI32 hproduct
    have hrounding : IsI32 (if x * 100 ≥ 0 then x * 100 + F / 2 else x * 100 - F / 2) := by
      unfold IsI32 F
      split <;> omega
    refine ⟨hproduct, hrounding, ?_⟩
    rw [hmul]
    unfold fp_to_int_round nearest
    by_cases h0 : 0 ≤ x * 100
    · rw [if_pos h0] at hrounding
      rw [if_pos h0, if_pos h0, i32_of_isI32 hrounding]
      unfold F
      rw [Int.tdiv_eq_ediv_of_nonneg (by omega)]
      omega
    · rw [if_neg h0] at hrounding
      rw [if_neg h0, if_neg h0, i32_of_isI32 hrounding]
      unfold F
      have hneg : x * 100 - 2 ^ 14 / 2 = -(-(x * 100) + 2 ^ 14 / 2) := by omega
      rw [hneg, Int.neg_tdiv, Int.tdiv_eq_ediv_of_nonneg (by omega)]
      omega

namespace mlfqs

/-- The two calls by the running thread `cur` return what their comments say. -/
structure StatisticsExact (x : mlfqs) (cur : ℕ) : Prop where
  load : Exact100 x.load_avg (thread_get_load_avg x)
  cpu : Exact100 (x.recent_cpu cur) (thread_get_recent_cpu x cur)

end mlfqs

open mlfqs in
/-- **The reported statistics.** In every state of a run with at most 64 threads ready or running
and `nice` from -20 to 20, the load is reported exactly, and both statistics are if and only if the
`recent_cpu` of the caller is at most 1310.72 in absolute value. -/
theorem statistics_exact_iff {es : List mlfqs_event} (hr : AtMost 64 es) (hnice : NiceInRange es)
    {pre post : List mlfqs_event} {x : mlfqs} (hes : es = pre ++ post)
    (hrun : mlfqs_run pre mlfqs_boot = some x) (cur : ℕ) :
    Exact100 x.load_avg (thread_get_load_avg x)
      ∧ (x.StatisticsExact cur ↔ -21474754 ≤ x.recent_cpu cur ∧ x.recent_cpu cur ≤ 21474754) := by
  have hload : Exact100 x.load_avg (thread_get_load_avg x) := by
    apply (exact100_iff _).mpr
    have h := (in_range_along (by decide) hr hnice hes hrun).load
    unfold F at h
    omega
  refine ⟨hload, fun h => (exact100_iff _).mp h.cpu, fun h => ⟨hload, (exact100_iff _).mpr h⟩⟩

/-! ## A run that overflows -/

/-- The state after `es`. -/
def mlfqs.after (x : mlfqs) (es : List mlfqs_event) : mlfqs := (mlfqs_run es x).getD x

/-- A tick, and the scheduler behind it: every four ticks the running thread gives up the
processor, because its priority has fallen or else because its time slice has ended. -/
def tick_events (x : mlfqs) : List mlfqs_event :=
  if (x.ticks + 1) % 4 = 0 then
    if (x.after [.timer_interrupt]).s.current = none then [.timer_interrupt, .schedule]
    else [.timer_interrupt, .timer_yield, .schedule]
  else [.timer_interrupt]

/-- The events of `n` ticks. -/
def ticks_events : ℕ → mlfqs → List mlfqs_event
  | 0, _ => []
  | n + 1, x => tick_events x ++ ticks_events n (x.after (tick_events x))

/-- `main` creates `n` threads. -/
def create_events : ℕ → List mlfqs_event
  | 0 => []
  | n + 1 => create_events n ++ [.thread_create PRI_DEFAULT, .thread_unblock (n + 1)]

/-- `n` threads, one after the other, block. -/
def block_events : ℕ → List mlfqs_event
  | 0 => []
  | n + 1 => [.thread_block, .schedule] ++ block_events n

/-- `main` sets its `nice` value to 20 and creates 60 threads, which inherit it. -/
def crowd_events : List mlfqs_event := .thread_set_nice 20 :: create_events 60

/-- A minute with 61 threads. -/
def minute_events : List mlfqs_event :=
  crowd_events ++ ticks_events 6000 (mlfqs_boot.after crowd_events)

/-- All but one block. -/
def alone_events : List mlfqs_event := minute_events ++ block_events 60

/-- 12 seconds more. -/
def overload_run : List mlfqs_event :=
  alone_events ++ ticks_events 1200 (mlfqs_boot.after alone_events)

/-! ### At most one thread more for each that is unblocked -/

namespace kernel

/-- The running thread and the ready ones. -/
def line (s : kernel) : List ℕ := s.current.toList ++ s.ready_list

/-- No thread is suspended in a lock. -/
def Awake (s : kernel) : Prop := ∀ t, (s.threads t).in_sema_down = none

variable {s s' : kernel} {cur : ℕ}

theorem Awake.set_thread (h : s.Awake) (t : ℕ) (f : thread → thread)
    (hf : (f (s.threads t)).in_sema_down = none) : (s.set_thread t f).Awake := by
  intro u
  by_cases hu : u = t
  · rw [hu, set_thread_self]
    exact hf
  · rw [set_thread_of_ne hu]
    exact h u

/-- Where the threads are does not matter. -/
theorem Awake.congr (h : s.Awake) (hthreads : s'.threads = s.threads) : s'.Awake := by
  unfold Awake
  rw [hthreads]
  exact h

theorem Awake.thread_yield (h : s.Awake) (cur : ℕ) : (thread_yield s cur).Awake :=
  (h.set_thread cur (fun th => { th with status := .THREAD_READY }) (h cur)).congr rfl

theorem Awake.switch_to (h : s.Awake) (next : ℕ) (rest : List ℕ) : (switch_to s next rest).Awake :=
  (h.set_thread next (fun th => { th with status := .THREAD_RUNNING }) (h next)).congr rfl

theorem Awake.thread_block (h : s.Awake) (cur : ℕ) : (thread_block s cur).Awake :=
  (h.set_thread cur (fun th => { th with status := .THREAD_BLOCKED }) (h cur)).congr rfl

theorem thread_yield_line (hc : s.current = some cur) : (thread_yield s cur).line.Perm s.line := by
  unfold line
  rw [hc]
  exact List.perm_orderedInsert _ _ _

/-- `compare_cur_next_priority` moves the running thread into the list or leaves it. -/
theorem compare_cur_next_priority_line (hc : s.current = some cur) :
    (compare_cur_next_priority s cur).line.Perm s.line
      ∧ (s.Awake → (compare_cur_next_priority s cur).Awake)
      ∧ (compare_cur_next_priority s cur).next_tid = s.next_tid := by
  unfold compare_cur_next_priority
  split
  · exact ⟨.refl _, id, rfl⟩
  · rename_i next rest hsort
    have hperm : (next :: rest).Perm s.ready_list := hsort ▸ List.perm_insertionSort _ _
    have hline : ({ s with ready_list := next :: rest } : kernel).line.Perm s.line :=
      hperm.append_left _
    dsimp only
    split
    · have hyield := thread_yield_line (s := { s with ready_list := next :: rest }) hc
      refine ⟨hyield.trans hline, fun h => Awake.thread_yield h cur, rfl⟩
    · exact ⟨hline, id, rfl⟩

/-- `schedule` takes the front of the list, if it is not suspended in a lock. -/
theorem schedule_line (hc : s.current = none) (hr : s.ready_list ≠ []) (h : s.Awake) :
    (schedule s).line = s.line ∧ (schedule s).Awake ∧ (schedule s).current ≠ none
      ∧ (schedule s).next_tid = s.next_tid := by
  obtain ⟨next, rest, hready⟩ := List.exists_cons_of_ne_nil hr
  have hswitch : schedule s = switch_to s next rest := by
    unfold schedule
    rw [hready]
    dsimp only
    rw [h next]
  rw [hswitch]
  refine ⟨?_, ?_, by simp [switch_to, set_thread], rfl⟩
  · unfold line
    rw [hc, hready]
    rfl
  · exact h.switch_to next rest

theorem sema_down_line_le (s : kernel) (cur l : ℕ) (hc : s.current = some cur) :
    (sema_down s cur l).line.length ≤ s.line.length := by
  unfold sema_down line
  split
  · simp [set_thread, set_lock]
  · simp [set_thread, set_lock, hc]

theorem schedule_line_le (hc : s.current = none) : (schedule s).line.length ≤ s.line.length := by
  unfold schedule
  split
  · rfl
  · rename_i next rest hready
    have hswitch : (switch_to s next rest).line = s.line := by
      unfold line
      rw [hc, hready]
      rfl
    split
    · rw [hswitch]
    · rw [← hswitch]
      exact sema_down_line_le _ next _ rfl

end kernel

/-- How many threads an event makes ready. -/
def mlfqs_event.wakes : mlfqs_event → ℕ
  | .thread_unblock _ => 1
  | _ => 0

namespace mlfqs

variable {x x' : mlfqs}

theorem runnable_eq (x : mlfqs) : x.runnable = x.s.line.length := by
  unfold runnable kernel.line
  cases x.s.current <;> simp

theorem update_recent_cpu_loop_s (ts : List ℕ) : ∀ {x x' : mlfqs},
    update_recent_cpu_loop ts x = .ok x' → x'.s = x.s := by
  induction ts with
  | nil =>
      intro x x' h
      obtain rfl := Outcome.ok.inj h
      rfl
  | cons t ts ih =>
      intro x x' h
      obtain ⟨c, -, hrest⟩ := Outcome.bind_eq_ok.mp h
      have hs := ih (x := { x with recent_cpu := Function.update x.recent_cpu t _ }) hrest
      exact hs

theorem update_priority_awake (h : x.s.Awake) (t : ℕ) : (update_priority x t).s.Awake :=
  h.set_thread t (fun th => { th with priority := new_priority (x.recent_cpu t) (x.nice t) }) (h t)

theorem update_priority_status (x : mlfqs) (t : ℕ) :
    ((update_priority x t).s.threads t).status = (x.s.threads t).status := by
  unfold update_priority
  dsimp only
  rw [kernel.set_thread_self]

theorem update_priority_loop_line (ts : List ℕ) : ∀ x : mlfqs,
    (update_all_priority_loop ts x).s.current = x.s.current
      ∧ (update_all_priority_loop ts x).s.ready_list = x.s.ready_list
      ∧ (update_all_priority_loop ts x).s.next_tid = x.s.next_tid
      ∧ (x.s.Awake → (update_all_priority_loop ts x).s.Awake) := by
  induction ts with
  | nil => exact fun x => ⟨rfl, rfl, rfl, id⟩
  | cons t ts ih =>
      intro x
      obtain ⟨hc, hr, htid, hawake⟩ := ih (update_priority x t)
      exact ⟨hc, hr, htid, fun h => hawake (update_priority_awake h t)⟩

/-- The priorities change, and the running thread may be moved into the list. -/
theorem update_all_priority_line {cur : ℕ} (hc : x.s.current = some cur) :
    (update_all_priority x).s.line.Perm x.s.line
      ∧ (x.s.Awake → (update_all_priority x).s.Awake)
      ∧ (update_all_priority x).s.next_tid = x.s.next_tid := by
  obtain ⟨hcur, hr, htid, hawake⟩ := update_priority_loop_line (all_threads x) x
  have hloop : (update_all_priority_loop (all_threads x) x).s.line = x.s.line := by
    unfold kernel.line
    rw [hcur, hr]
  obtain ⟨hline, hawake', htid'⟩ := kernel.compare_cur_next_priority_line (hcur.trans hc)
  unfold update_all_priority compare_on_return
  rw [hcur, hc]
  exact ⟨hline.trans (.of_eq hloop), fun h => hawake' (hawake h), htid'.trans htid⟩

theorem update_all_priority_runnable (x : mlfqs) :
    (update_all_priority x).runnable = x.runnable := by
  rw [runnable_eq, runnable_eq]
  cases hc : x.s.current with
  | some cur => exact (update_all_priority_line hc).1.length_eq
  | none =>
      obtain ⟨hcur, hr, -, -⟩ := update_priority_loop_line (all_threads x) x
      unfold update_all_priority compare_on_return kernel.line
      rw [hcur, hc, ← hr]
      simp [list_sort, hcur, hc]

theorem mlfqs_tick_runnable (hrun : mlfqs_tick x = .ok x') : x'.runnable = x.runnable := by
  obtain ⟨y, hy, rfl⟩ := mlfqs_tick_eq_ok.mp hrun
  have hs : y.s = x.s := by
    have hcpu := (update_recent_cpu_fields { x with ticks := x.ticks + 1 }).1
    split at hy
    · exact (update_recent_cpu_loop_s _ hy).trans hcpu
    · obtain rfl := Outcome.ok.inj hy
      exact hcpu
  have hyr : y.runnable = x.runnable := by rw [runnable_eq, runnable_eq, hs]
  split
  · rw [update_all_priority_runnable, hyr]
  · exact hyr

/-- **One event** outside the locks: only `thread_unblock` makes a thread ready. -/
theorem runnable_step {e : mlfqs_event} (he : ¬ e.OfLock) (hrun : mlfqs_step x e = .ok x') :
    x'.runnable ≤ x.runnable + e.wakes := by
  cases e with
  | create_donation => exact absurd (.inl rfl) he
  | lock_acquire l => exact absurd (.inr ⟨l, .inl rfl⟩) he
  | lock_release l => exact absurd (.inr ⟨l, .inr rfl⟩) he
  | timer_interrupt => exact (mlfqs_tick_runnable hrun).le
  | thread_create p =>
      change by_current x _ = _ at hrun
      unfold by_current at hrun
      split at hrun
      · obtain ⟨_, _, hret⟩ := Outcome.bind_eq_ok.mp hrun
        obtain rfl := Outcome.ok.inj hret
        exact le_rfl
      · cases hrun
  | thread_set_nice n =>
      change by_current x _ = _ at hrun
      unfold by_current at hrun
      split at hrun
      · rename_i cur hc
        obtain rfl := Outcome.ok.inj hrun
        rw [runnable_eq, runnable_eq]
        let y := update_priority { x with nice := Function.update x.nice cur n } cur
        have hy : y.s.current = some cur := hc
        have hline := (kernel.compare_cur_next_priority_line hy).1.length_eq
        exact hline.le
      · cases hrun
  | timer_yield =>
      obtain ⟨s, hs, rfl⟩ := (step_of_action rfl).mp hrun
      unfold sched_step kernel_step at hs
      rw [runnable_eq, runnable_eq]
      cases hc : x.s.current with
      | none => rw [hc] at hs; cases hs
      | some cur =>
          rw [hc] at hs
          obtain rfl := Outcome.ok.inj hs
          exact (kernel.thread_yield_line hc).length_eq.le
  | schedule =>
      obtain ⟨s, hs, rfl⟩ := (step_of_action rfl).mp hrun
      unfold sched_step kernel_step at hs
      rw [runnable_eq, runnable_eq]
      cases hc : x.s.current with
      | some cur => rw [hc] at hs; cases hs
      | none =>
          rw [hc] at hs
          obtain rfl := Outcome.ok.inj hs
          exact (kernel.schedule_line_le hc).trans (Nat.le_add_right _ _)
  | thread_block =>
      obtain ⟨s, hs, rfl⟩ := (step_of_action rfl).mp hrun
      unfold sched_step at hs
      dsimp only at hs
      split at hs
      · obtain rfl := Outcome.ok.inj hs
        rw [runnable_eq, runnable_eq]
        unfold kernel.line thread_block
        simp [kernel.set_thread]
        omega
      · cases hs
  | thread_unblock t =>
      obtain ⟨s, hs, rfl⟩ := (step_of_action rfl).mp hrun
      unfold sched_step at hs
      dsimp only at hs
      split at hs
      · obtain ⟨_, _, hret⟩ := Outcome.bind_eq_ok.mp hs
        obtain rfl := Outcome.ok.inj hret
        rw [runnable_eq, runnable_eq]
        have hlen := (List.perm_orderedInsert (compare_priority x.s) t x.s.ready_list).length_eq
        unfold kernel.line kernel.set_thread list_insert_ordered
        dsimp only
        rw [List.length_append, hlen]
        simp [mlfqs_event.wakes]
        omega
      · cases hs

/-- **A run** outside the locks. -/
theorem runnable_run {es : List mlfqs_event} (he : ∀ e ∈ es, ¬ e.OfLock)
    (hrun : mlfqs_run es x = some x') : x'.runnable
    ≤ x.runnable + (es.map mlfqs_event.wakes).sum := by
  induction es generalizing x with
  | nil =>
      obtain rfl := Option.some.inj hrun
      simp
  | cons e es ih =>
      obtain ⟨y, hstep, hrest⟩ := Runs.run_cons.mp hrun
      have hone := runnable_step (he e List.mem_cons_self) (Outcome.toOption_eq_some.mp hstep)
      have hall := ih (fun e hmem => he e (List.mem_cons_of_mem _ hmem)) hrest
      rw [List.map_cons, List.sum_cons]
      omega

/-! ### A crowd of threads with the same `nice` value -/

/-- The load after a second with `ready_threads`. -/
def next_load (load_avg ready_threads : ℤ) : ℤ :=
  (load_avg * 59).tdiv 60 + (1 * F).tdiv 60 * ready_threads

/-- `recent_cpu` after a second, for `nice` 20, from what it is just before. -/
def next_cpu (load_avg recent_cpu : ℤ) : ℤ :=
  ((load_avg * 2 * F).tdiv (load_avg * 2 + 1 * F) * recent_cpu).tdiv F + 20 * F

/-- The load and the `recent_cpu` of a thread alone, a second later, when `n` are ready. -/
def next_second (n : ℕ) (p : ℤ × ℤ) : ℤ × ℤ :=
  (next_load p.1 (n + 1 : ℕ), next_cpu (next_load p.1 (n + 1 : ℕ)) (p.2 + 100 * F))

/-- After `T` ticks `n` threads are ready behind the running one, all with `nice` 20; the load is
`p.1`, and a thread that is alone has had `p.2` at the last second. -/
structure Crowd (n T : ℕ) (p : ℤ × ℤ) (x : mlfqs) : Prop where
  running : x.s.current ≠ none
  size : x.s.ready_list.length = n
  created : ∀ t ∈ x.s.line, t < x.s.next_tid
  awake : x.s.Awake
  nice : ∀ t, t < x.s.next_tid → x.nice t = 20
  ticks : x.ticks = T
  cpu : ∀ t, 0 ≤ x.recent_cpu t ∧ x.recent_cpu t ≤ (T + 20 * (T / 100) : ℕ) * F
  load : x.load_avg = p.1
  load_range : 0 ≤ p.1 ∧ p.1 ≤ (64 : ℕ) * F
  cpu_nonneg : 0 ≤ p.2
  own : n = 0 → ∀ c, x.s.current = some c → p.2 + (T % 100 : ℕ) * F ≤ x.recent_cpu c

variable {n T : ℕ} {p : ℤ × ℤ}

theorem Crowd.runnable (h : Crowd n T p x) : x.runnable = n + 1 := by
  unfold mlfqs.runnable
  rw [h.size, if_neg h.running]

/-- Who runs and who is ready may change places. -/
theorem Crowd.turn (h : Crowd n T p x) (hcpu : x'.recent_cpu = x.recent_cpu)
    (hnice : x'.nice = x.nice) (hload : x'.load_avg = x.load_avg) (hticks : x'.ticks = x.ticks)
    (hline : x'.s.line.Perm x.s.line) (hrun : x'.s.current ≠ none) (hawake : x'.s.Awake)
    (htid : x'.s.next_tid = x.s.next_tid) : Crowd n T p x' := by
  have hlen := hline.length_eq
  rw [← runnable_eq, ← runnable_eq, h.runnable, mlfqs.runnable, if_neg hrun] at hlen
  refine
    { running := hrun, size := by omega, created := fun t ht => ?_, awake := hawake,
      nice := fun t ht => ?_, ticks := hticks.trans h.ticks, cpu := fun t => hcpu ▸ h.cpu t,
      load := hload.trans h.load, load_range := h.load_range, cpu_nonneg := h.cpu_nonneg,
      own := fun hn c hc => ?_ }
  · rw [htid]
    exact h.created t (hline.mem_iff.mp ht)
  · rw [hnice]
    exact h.nice t (htid ▸ ht)
  · -- the only thread is the one that ran before
    obtain ⟨d, hd⟩ := Option.ne_none_iff_exists'.mp h.running
    have hempty : x.s.ready_list = [] := List.length_eq_zero_iff.mp (h.size.trans hn)
    have hempty' : x'.s.ready_list = [] := List.length_eq_zero_iff.mp (by omega)
    have hone : [c].Perm [d] := by
      unfold kernel.line at hline
      rw [hc, hd, hempty, hempty'] at hline
      exact hline
    rw [List.singleton_perm_singleton.mp hone, hcpu]
    exact h.own hn d hd

/-- The tick of the running thread. -/
theorem Crowd.running_cpu (h : Crowd n T p x) (hT : T + 1 ≤ 8000) {c : ℕ}
    (hc : x.s.current = some c) :
    (Pintos.update_recent_cpu { x with ticks := x.ticks + 1 })
      = { x with
          ticks := x.ticks + 1
          recent_cpu := Function.update x.recent_cpu c (x.recent_cpu c + F) } := by
  have hrange := h.cpu c
  have hfit : IsI32 (x.recent_cpu c + 1 * F) := by
    unfold IsI32
    unfold F at hrange ⊢
    omega
  have hone : i32 (1 * F) = 1 * F := by decide
  have hadd : add_fp_int (x.recent_cpu c) 1 = x.recent_cpu c + F := by
    rw [add_fp_int, hone, i32_of_isI32 hfit, Int.one_mul]
  unfold Pintos.update_recent_cpu
  rw [hc]
  dsimp only
  rw [hadd]

/-- The numbers after a tick without the work of a second. -/
theorem Crowd.tick (h : Crowd n T p x) (hT : T + 1 ≤ 8000) :
    Crowd n (T + 1) p (Pintos.update_recent_cpu { x with ticks := x.ticks + 1 }) := by
  obtain ⟨c, hc⟩ := Option.ne_none_iff_exists'.mp h.running
  rw [h.running_cpu hT hc]
  refine
    { running := h.running, size := h.size, created := h.created, awake := h.awake, nice := h.nice,
      ticks := ?_, cpu := fun t => ?_, load := h.load, load_range := h.load_range,
      cpu_nonneg := h.cpu_nonneg, own := fun hn d hd => ?_ }
  · have hticks := h.ticks
    push_cast
    omega
  · have hcpu := h.cpu t
    have hcpuc := h.cpu c
    dsimp only
    unfold F at hcpu hcpuc ⊢
    by_cases ht : t = c
    · rw [ht, Function.update_self]
      omega
    · rw [Function.update_of_ne ht]
      omega
  · have hd' : x.s.current = some d := hd
    obtain rfl : c = d := Option.some.inj (hc.symm.trans hd')
    have hown := h.own hn c hc
    dsimp only
    rw [Function.update_self]
    unfold F at hown ⊢
    omega

/-- A multiplication by less than one and an addition of `nice`, for values that fit. -/
theorem next_cpu_exact {q r : ℤ} (hq0 : 0 ≤ q) (hqF : q < F) (hr0 : 0 ≤ r) (hr : r ≤ 2 ^ 30) :
    add_fp (mul_fp q r) (int_to_fp 20) = (q * r).tdiv F + 20 * F
      ∧ 0 ≤ (q * r).tdiv F ∧ (q * r).tdiv F ≤ r := by
  have hF : (0 : ℤ) < F := by decide
  have hmul : 0 ≤ q * r := Int.mul_nonneg hq0 hr0
  have h0 : 0 ≤ (q * r).tdiv F := Int.tdiv_nonneg hmul hF.le
  have hle : (q * r).tdiv F ≤ r := by
    rw [Int.tdiv_eq_ediv_of_nonneg hmul]
    apply Int.ediv_le_of_le_mul hF
    rw [Int.mul_comm r F]
    exact Int.mul_le_mul_of_nonneg_right hqF.le hr0
  have hfit : IsI32 ((q * r).tdiv F) := by
    unfold IsI32
    omega
  have hnice : int_to_fp 20 = 20 * F := by decide
  have hsum : IsI32 ((q * r).tdiv F + 20 * F) := by
    have hF' : F = 16384 := by decide
    unfold IsI32
    omega
  refine ⟨?_, h0, hle⟩
  rw [mul_fp, i32_of_isI32 hfit, hnice, add_fp, i32_of_isI32 hsum]

/-- The state in which the second's work on `recent_cpu` starts. -/
theorem Crowd.at_second (h : Crowd n T p x) (hn : n + 1 ≤ 64) (hT : T + 1 ≤ 8000) {c : ℕ}
    (hc : x.s.current = some c) : x.at_second = { x with
      ticks := x.ticks + 1
      load_avg := (next_second n p).1
      recent_cpu := Function.update x.recent_cpu c (x.recent_cpu c + F) } := by
  have hready : ((n + 1 : ℕ) : ℤ) ≤ (64 : ℕ) := by exact_mod_cast hn
  let z : mlfqs := { x with
    ticks := x.ticks + 1
    recent_cpu := Function.update x.recent_cpu c (x.recent_cpu c + F) }
  have hzrun : z.runnable = n + 1 := h.runnable
  have hzload : z.load_avg = p.1 := h.load
  have hfits : LoadFits z.load_avg z.runnable := by
    rw [hzrun, hzload]
    exact load_fits (by decide) h.load_range.1 h.load_range.2 (by omega) hready
  have hload : (Pintos.update_load_avg z).load_avg = (next_second n p).1 := by
    rw [update_load_avg_exact hfits, hzrun, hzload]
    rfl
  unfold mlfqs.at_second
  rw [h.running_cpu hT hc]
  show { z with load_avg := (Pintos.update_load_avg z).load_avg } = _
  rw [hload]

/-- The numbers after a tick at a second. -/
theorem Crowd.second (h : Crowd n T p x) (hn : n + 1 ≤ 64) (hT : T + 1 ≤ 8000)
    (hsec : (T + 1) % 100 = 0) : ∃ y, update_recent_cpu_all x.at_second = .ok y ∧ y.s = x.s
      ∧ Crowd n (T + 1) (next_second n p) y := by
  obtain ⟨c, hc⟩ := Option.ne_none_iff_exists'.mp h.running
  have hready : ((n + 1 : ℕ) : ℤ) ≤ (64 : ℕ) := by exact_mod_cast hn
  have hF : F = 16384 := by decide
  -- the load and the coefficient
  have hrange : 0 ≤ (next_second n p).1 ∧ (next_second n p).1 ≤ (64 : ℕ) * F :=
    next_load_le h.load_range.1 h.load_range.2 (by omega) hready
  obtain ⟨hq0, hqF⟩ := quotient_range hrange.1
  have hcoeff := (coefficient_eq (coefficient_fits (by decide) hrange.1 hrange.2) hrange.1).2
  have hcpu2 : (next_second n p).2 = (((next_second n p).1 * 2 * F).tdiv
      ((next_second n p).1 * 2 + 1 * F) * (p.2 + 100 * F)).tdiv F + 20 * F := rfl
  generalize hq : ((next_second n p).1 * 2 * F).tdiv ((next_second n p).1 * 2 + 1 * F) = q
    at hq0 hqF hcoeff hcpu2
  -- the value that each thread has before the multiplication
  have hat := h.at_second hn hT hc
  have hmax : ((T + 20 * (T / 100) : ℕ) : ℤ) * F + F ≤ 2 ^ 30 := by
    rw [hF]
    omega
  have hold : ∀ t, 0 ≤ Function.update x.recent_cpu c (x.recent_cpu c + F) t
      ∧ Function.update x.recent_cpu c (x.recent_cpu c + F) t
      ≤ (T + 20 * (T / 100) : ℕ) * F + F := by
    intro t
    have hcpu := h.cpu t
    have hcpuc := h.cpu c
    by_cases ht : t = c
    · rw [ht, Function.update_self]
      omega
    · rw [Function.update_of_ne ht]
      omega
  have hself : Function.update x.recent_cpu c (x.recent_cpu c + F) c = x.recent_cpu c + F :=
    Function.update_self _ _ _
  generalize Function.update x.recent_cpu c (x.recent_cpu c + F) = old at hat hold hself
  have hnew : ∀ t, t < x.s.next_tid →
      add_fp (mul_fp q (old t)) (int_to_fp (x.nice t)) = (q * old t).tdiv F + 20 * F
        ∧ 0 ≤ (q * old t).tdiv F ∧ (q * old t).tdiv F ≤ old t := by
    intro t ht
    rw [h.nice t ht]
    exact next_cpu_exact hq0 hqF (hold t).1 ((hold t).2.trans hmax)
  refine ⟨{ x with
    ticks := x.ticks + 1
    load_avg := (next_second n p).1
    recent_cpu := fun t => if t < x.s.next_tid
      then add_fp (mul_fp q (old t)) (int_to_fp (x.nice t)) else old t }, ?_, rfl, ?_⟩
  · rw [hat]
    exact update_recent_cpu_all_eq hcoeff
  refine
    { running := h.running, size := h.size, created := h.created, awake := h.awake, nice := h.nice,
      ticks := ?_, cpu := fun t => ?_, load := rfl, load_range := hrange, cpu_nonneg := ?_,
      own := fun hn0 d hd => ?_ }
  · have hticks := h.ticks
    push_cast
    omega
  · have hgrow : ((T + 1 + 20 * ((T + 1) / 100) : ℕ) : ℤ) * F
        = ((T + 20 * (T / 100) : ℕ) : ℤ) * F + 21 * F := by
      rw [hF]
      omega
    have hbound := hold t
    rw [hgrow]
    dsimp only
    by_cases ht : t < x.s.next_tid
    · obtain ⟨heq, h0, hle⟩ := hnew t ht
      rw [if_pos ht, heq]
      omega
    · rw [if_neg ht]
      omega
  · have hnn : 0 ≤ (q * (p.2 + 100 * F)).tdiv F := by
      have := h.cpu_nonneg
      exact Int.tdiv_nonneg (Int.mul_nonneg hq0 (by omega)) (by omega)
    rw [hcpu2]
    omega
  · have hd' : x.s.current = some d := hd
    obtain rfl : c = d := Option.some.inj (hc.symm.trans hd')
    have hlt : c < x.s.next_tid := h.created c (by simp [kernel.line, hc])
    obtain ⟨heq, -, -⟩ := hnew c hlt
    have hp := h.cpu_nonneg
    -- 99 of the second's ticks are in `recent_cpu` already
    have hown : p.2 + (T % 100 : ℕ) * F ≤ x.recent_cpu c := h.own hn0 c hc
    have hlate : T % 100 = 99 := by omega
    rw [hlate] at hown
    push_cast at hown
    have hmono : (q * (p.2 + 100 * F)).tdiv F ≤ (q * old c).tdiv F := by
      rw [Int.tdiv_eq_ediv_of_nonneg (Int.mul_nonneg hq0 (by omega)),
        Int.tdiv_eq_ediv_of_nonneg (Int.mul_nonneg hq0 (hold c).1)]
      exact Int.ediv_le_ediv (by omega) (Int.mul_le_mul_of_nonneg_left (by omega) hq0)
    dsimp only
    rw [if_pos hlt, heq, hcpu2, hsec]
    push_cast
    omega

/-- What the numbers are after the next tick. -/
def next_tick (n T : ℕ) (p : ℤ × ℤ) : ℤ × ℤ := if (T + 1) % 100 = 0 then next_second n p else p

/-- A tick up to the work on priorities. -/
theorem Crowd.numbers (h : Crowd n T p x) (hn : n + 1 ≤ 64) (hT : T + 1 ≤ 8000) : ∃ y,
    (if (x.ticks + 1) % TIMER_FREQ = 0 then update_recent_cpu_all x.at_second
      else .ok (Pintos.update_recent_cpu { x with ticks := x.ticks + 1 })) = .ok y
    ∧ Crowd n (T + 1) (next_tick n T p) y := by
  have hticks := h.ticks
  have hiff : (x.ticks + 1) % TIMER_FREQ = 0 ↔ (T + 1) % 100 = 0 := by
    unfold TIMER_FREQ
    omega
  unfold next_tick
  by_cases hsec : (T + 1) % 100 = 0
  · obtain ⟨y, hy, -, hcrowd⟩ := h.second hn hT hsec
    rw [if_pos (hiff.mpr hsec), if_pos hsec]
    exact ⟨y, hy, hcrowd⟩
  · rw [if_neg fun h => hsec (hiff.mp h), if_neg hsec]
    exact ⟨_, rfl, h.tick hT⟩

/-- The scheduler's turn, when the running thread has gone into the list. -/
theorem Crowd.schedule (h : Crowd n T p x) (hcpu : x'.recent_cpu = x.recent_cpu)
    (hnice : x'.nice = x.nice) (hload : x'.load_avg = x.load_avg) (hticks : x'.ticks = x.ticks)
    (hline : x'.s.line.Perm x.s.line) (hawake : x'.s.Awake) (htid : x'.s.next_tid = x.s.next_tid)
    (hnone : x'.s.current = none) :
    ∃ y, mlfqs_step x' .schedule = .ok y ∧ Crowd n T p y := by
  have hne : x'.s.ready_list ≠ [] := by
    intro hempty
    have hlen := hline.length_eq
    rw [← runnable_eq, ← runnable_eq, h.runnable] at hlen
    unfold mlfqs.runnable at hlen
    rw [hempty, if_pos hnone] at hlen
    exact absurd hlen (by simp)
  obtain ⟨hl, ha, hrun, ht⟩ := kernel.schedule_line hnone hne hawake
  refine ⟨{ x' with s := Pintos.schedule x'.s }, (step_of_action rfl).mpr ⟨_, ?_, rfl⟩, ?_⟩
  · unfold sched_step kernel_step
    dsimp only
    rw [hnone]
  · exact h.turn hcpu hnice hload hticks ((List.Perm.of_eq hl).trans hline) hrun ha (ht.trans htid)

/-- **A tick of the run.** -/
theorem Crowd.one_tick (h : Crowd n T p x) (hn : n + 1 ≤ 64) (hT : T + 1 ≤ 8000) :
    ∃ x', mlfqs_run (tick_events x) x = some x' ∧ Crowd n (T + 1) (next_tick n T p) x' := by
  obtain ⟨y, hy, hcrowd⟩ := h.numbers hn hT
  have hticks := h.ticks
  have hyticks := hcrowd.ticks
  have hstep : mlfqs_step x .timer_interrupt
      = .ok (if y.ticks % 4 = 0 then update_all_priority y else y) :=
      mlfqs_tick_eq_ok.mpr ⟨y, hy, rfl⟩
  unfold Pintos.tick_events
  by_cases hfour : (x.ticks + 1) % 4 = 0
  · rw [if_pos (by omega : y.ticks % 4 = 0)] at hstep
    rw [if_pos hfour]
    have hafter : x.after [.timer_interrupt] = update_all_priority y := by
      unfold mlfqs.after mlfqs_run Runs.run
      rw [hstep]
      rfl
    obtain ⟨hcpu, hnice, hload, htick⟩ := update_all_priority_fields y
    obtain ⟨c, hc⟩ := Option.ne_none_iff_exists'.mp hcrowd.running
    obtain ⟨hline, hawake, htid⟩ := update_all_priority_line hc
    have hawake := hawake hcrowd.awake
    rw [hafter]
    generalize update_all_priority y = z at *
    by_cases hnone : z.s.current = none
    · rw [if_pos hnone]
      obtain ⟨x', hx', hcrowd'⟩ := hcrowd.schedule hcpu hnice hload htick hline hawake htid hnone
      refine ⟨x', Runs.run_cons.mpr ⟨z, by rw [hstep]; rfl, ?_⟩, hcrowd'⟩
      exact Runs.run_cons.mpr ⟨x', by rw [hx']; rfl, rfl⟩
    · obtain ⟨d, hd⟩ := Option.ne_none_iff_exists'.mp hnone
      rw [if_neg hnone]
      -- the time slice ends
      let w : mlfqs := { z with s := thread_yield z.s d }
      have hyield : mlfqs_step z .timer_yield = .ok w := by
        refine (step_of_action rfl).mpr ⟨_, ?_, rfl⟩
        unfold sched_step kernel_step
        dsimp only
        rw [hd]
      have hnone' : w.s.current = none := rfl
      have hline' : w.s.line.Perm y.s.line := (kernel.thread_yield_line hd).trans hline
      have htick' : w.ticks = y.ticks := htick
      have hawake' : w.s.Awake := hawake.thread_yield d
      obtain ⟨x', hx', hcrowd'⟩ : ∃ x', mlfqs_step w .schedule = .ok x' ∧ Crowd n _ _ x' :=
        hcrowd.schedule hcpu hnice hload htick' hline' hawake' htid hnone'
      refine ⟨x', Runs.run_cons.mpr ⟨z, by rw [hstep]; rfl, ?_⟩, hcrowd'⟩
      refine Runs.run_cons.mpr ⟨w, by rw [hyield]; rfl, ?_⟩
      exact Runs.run_cons.mpr ⟨x', by rw [hx']; rfl, rfl⟩
  · rw [if_neg (by omega : ¬ y.ticks % 4 = 0)] at hstep
    rw [if_neg hfour]
    exact ⟨y, Runs.run_cons.mpr ⟨y, by rw [hstep]; rfl, rfl⟩, hcrowd⟩

/-- **Many ticks.** The numbers change once for each second that ends. -/
theorem Crowd.many_ticks (k : ℕ) (h : Crowd n T p x) (hn : n + 1 ≤ 64) (hT : T + k ≤ 8000) :
    ∃ x', mlfqs_run (ticks_events k x) x = some x'
      ∧ Crowd n (T + k) ((next_second n)^[(T + k) / 100 - T / 100] p) x' := by
  induction k generalizing T p x with
  | zero => exact ⟨x, rfl, by simpa using h⟩
  | succ k ih =>
      obtain ⟨y, hy, hcrowd⟩ := h.one_tick hn (by omega)
      obtain ⟨x', hx', hcrowd'⟩ := ih hcrowd (by omega)
      have hafter : x.after (tick_events x) = y := by
        unfold mlfqs.after
        rw [hy]
        rfl
      refine ⟨x', ?_, ?_⟩
      · unfold Pintos.ticks_events
        rw [hafter]
        exact Runs.run_append.mpr ⟨y, hy, hx'⟩
      · have hsum : T + 1 + k = T + (k + 1) := by omega
        rw [hsum] at hcrowd'
        unfold next_tick at hcrowd'
        split at hcrowd'
        · rw [← Function.iterate_succ_apply] at hcrowd'
          have hcount : ((T + (k + 1)) / 100 - (T + 1) / 100).succ
              = (T + (k + 1)) / 100 - T / 100 := by
            omega
          exact hcount ▸ hcrowd'
        · have hcount : (T + (k + 1)) / 100 - (T + 1) / 100 = (T + (k + 1)) / 100 - T / 100 := by
            omega
          exact hcount ▸ hcrowd'

/-- `main`, which is running alone, creates the next thread and lets it go. -/
theorem Crowd.create_one (h : Crowd n T p x) (htid : x.s.next_tid = n + 1) :
    ∃ x', mlfqs_run [.thread_create PRI_DEFAULT, .thread_unblock (n + 1)] x = some x'
      ∧ Crowd (n + 1) T p x' ∧ x'.s.next_tid = n + 1 + 1 := by
  obtain ⟨c, hc⟩ := Option.ne_none_iff_exists'.mp h.running
  have hcn : c < n + 1 := htid ▸ h.created c (by simp [kernel.line, hc])
  let x₀ : mlfqs := { x with
    s := { x.s.set_thread (n + 1) fun _ => init_thread PRI_DEFAULT with next_tid := n + 1 + 1 }
    nice := Function.update x.nice (n + 1) (x.nice c)
    recent_cpu := Function.update x.recent_cpu (n + 1) (x.recent_cpu c) }
  let y := update_priority x₀ (n + 1)
  have hcreate : mlfqs_step x (.thread_create PRI_DEFAULT) = .ok y := by
    change by_current x _ = _
    unfold by_current
    rw [hc]
    dsimp only
    unfold thread_create_mlfqs
    rw [Outcome.assert_pos (by decide), htid]
    rfl
  -- the new thread is blocked, and none is suspended in a lock
  have hnew : (x.s.set_thread (n + 1) fun _ => init_thread PRI_DEFAULT).threads (n + 1)
      = init_thread PRI_DEFAULT := kernel.set_thread_self
  have hstatus : (y.s.threads (n + 1)).status = .THREAD_BLOCKED := by
    rw [update_priority_status]
    exact congrArg thread.status hnew
  have hawake₀ : x₀.s.Awake :=
    (h.awake.set_thread (n + 1) (fun _ => init_thread PRI_DEFAULT) rfl).congr rfl
  have hawake : y.s.Awake := update_priority_awake hawake₀ (n + 1)
  let s₁ : kernel := { y.s with
    ready_list := list_insert_ordered (compare_priority y.s) y.s.ready_list (n + 1) }
  let s₂ : kernel := s₁.set_thread (n + 1) fun th => { th with status := .THREAD_READY }
  have hawake₁ : s₁.Awake := hawake.congr rfl
  have hawake₂ : s₂.Awake :=
    hawake₁.set_thread (n + 1) (fun th => { th with status := .THREAD_READY }) (hawake (n + 1))
  have hunblock : mlfqs_step y (.thread_unblock (n + 1)) = .ok { y with s := s₂ } := by
    refine (step_of_action rfl).mpr ⟨s₂, ?_, rfl⟩
    unfold sched_step
    dsimp only
    rw [if_pos ⟨Nat.lt_succ_self _, hawake _⟩, thread_unblock, Outcome.assert_pos hstatus]
    rfl
  have hready : s₂.ready_list.Perm ((n + 1) :: x.s.ready_list) := List.perm_orderedInsert _ _ _
  refine ⟨{ y with s := s₂ }, ?_, ?_, rfl⟩
  · exact Runs.run_cons.mpr ⟨y, by rw [hcreate]; rfl, Runs.run_cons.mpr ⟨_, by rw [hunblock]; rfl, rfl⟩⟩
  refine
    { running := h.running, size := ?_, created := fun t ht => ?_, awake := fun t => ?_,
      nice := fun t ht => ?_, ticks := h.ticks, cpu := fun t => ?_, load := h.load,
      load_range := h.load_range, cpu_nonneg := h.cpu_nonneg, own :=
        fun hn => absurd hn (by omega) }
  · rw [hready.length_eq, List.length_cons, h.size]
  · have ht' : t ∈ x.s.current.toList ∨ t ∈ s₂.ready_list := List.mem_append.mp ht
    rw [hready.mem_iff, List.mem_cons] at ht'
    show t < n + 1 + 1
    have hold : ∀ u ∈ x.s.line, u < n + 1 := fun u hu => htid ▸ h.created u hu
    rcases ht' with ht' | rfl | ht'
    · exact (hold t (List.mem_append_left _ ht')).trans (Nat.lt_succ_self _)
    · exact Nat.lt_succ_self _
    · exact (hold t (List.mem_append_right _ ht')).trans (Nat.lt_succ_self _)
  · exact hawake₂ t
  · show Function.update x.nice (n + 1) (x.nice c) t = 20
    have ht' : t < n + 1 + 1 := ht
    by_cases htn : t = n + 1
    · rw [htn, Function.update_self]
      exact h.nice c (htid ▸ hcn)
    · rw [Function.update_of_ne htn]
      exact h.nice t (by omega)
  · exact update_in (P := fun v => 0 ≤ v ∧ v ≤ (T + 20 * (T / 100) : ℕ) * F) h.cpu _ (h.cpu c) t

/-- `main` creates `n` threads. -/
theorem Crowd.create (h : Crowd 0 T p x) (htid : x.s.next_tid = 1) (n : ℕ) :
    ∃ x', mlfqs_run (create_events n) x = some x' ∧ Crowd n T p x' ∧ x'.s.next_tid = n + 1 := by
  induction n with
  | zero => exact ⟨x, rfl, h, htid⟩
  | succ n ih =>
      obtain ⟨y, hy, hcrowd, hytid⟩ := ih
      obtain ⟨x', hx', hcrowd', htid'⟩ := hcrowd.create_one hytid
      exact ⟨x', Runs.run_append.mpr ⟨y, hy, hx'⟩, hcrowd', htid'⟩

/-- The running thread blocks, at a second. -/
theorem Crowd.block_one (h : Crowd (n + 1) T p x) (hT : T % 100 = 0) :
    ∃ x', mlfqs_run [.thread_block, .schedule] x = some x' ∧ Crowd n T (p.1, 0) x' := by
  obtain ⟨c, hc⟩ := Option.ne_none_iff_exists'.mp h.running
  let y : mlfqs := { x with s := thread_block x.s c }
  have hblock : mlfqs_step x .thread_block = .ok y := by
    refine (step_of_action rfl).mpr ⟨_, ?_, rfl⟩
    unfold sched_step
    dsimp only
    rw [hc]
  have hawake : y.s.Awake := h.awake.thread_block c
  have hyline : y.s.line = x.s.ready_list := rfl
  have hne : y.s.ready_list ≠ [] := by
    intro hempty
    have hsize : y.s.ready_list.length = n + 1 := h.size
    rw [hempty] at hsize
    exact absurd hsize (by simp)
  obtain ⟨hline, hawake', hrun, htid⟩ := kernel.schedule_line rfl hne hawake
  let x' : mlfqs := { y with s := Pintos.schedule y.s }
  have hsched : mlfqs_step y .schedule = .ok x' := (step_of_action rfl).mpr ⟨_, rfl, rfl⟩
  have hsize : x'.runnable = n + 1 := by
    rw [runnable_eq, hline, hyline, h.size]
  refine ⟨x', ?_, ?_⟩
  · exact Runs.run_cons.mpr ⟨y, by rw [hblock]; rfl, Runs.run_cons.mpr ⟨x', by rw [hsched]; rfl, rfl⟩⟩
  refine
    { running := hrun, size := ?_, created := fun t ht => ?_, awake := hawake',
      nice := fun t ht => h.nice t (htid ▸ ht), ticks := h.ticks, cpu := h.cpu, load := h.load,
      load_range := h.load_range, cpu_nonneg := le_rfl, own := fun _ d _ => ?_ }
  · unfold mlfqs.runnable at hsize
    rw [if_neg hrun] at hsize
    omega
  · show t < (Pintos.schedule y.s).next_tid
    rw [htid]
    have ht' : t ∈ (Pintos.schedule y.s).line := ht
    rw [hline, hyline] at ht'
    exact h.created t (List.mem_append_right _ ht')
  · rw [hT]
    simpa using (h.cpu d).1

/-- One after the other blocks, until one is left. -/
theorem Crowd.block (n : ℕ) (h : Crowd (n + 1) T p x) (hT : T % 100 = 0) :
    ∃ x', mlfqs_run (block_events (n + 1)) x = some x' ∧ Crowd 0 T (p.1, 0) x' := by
  induction n generalizing x p with
  | zero =>
      obtain ⟨y, hy, hcrowd⟩ := h.block_one hT
      exact ⟨y, Runs.run_append.mpr ⟨y, hy, rfl⟩, hcrowd⟩
  | succ n ih =>
      obtain ⟨y, hy, hcrowd⟩ := h.block_one hT
      obtain ⟨x', hx', hcrowd'⟩ := ih hcrowd
      exact ⟨x', Runs.run_append.mpr ⟨y, hy, hx'⟩, hcrowd'⟩

/-! ### The run -/

/-- `main` with `nice` 20, before it creates a thread. -/
theorem crowd_boot : ∃ x, mlfqs_step mlfqs_boot (.thread_set_nice 20) = .ok x
    ∧ Crowd 0 0 (0, 0) x ∧ x.s.next_tid = 1 := by
  let x := thread_set_nice mlfqs_boot 0 20
  have hcur : x.s.current = some 0 := rfl
  have hboot : mlfqs_boot.s.Awake := fun _ => rfl
  let y : mlfqs := { mlfqs_boot with nice := Function.update mlfqs_boot.nice 0 20 }
  have hyboot : y.s.Awake := hboot
  have hawake : x.s.Awake := (update_priority_awake hyboot 0).congr rfl
  have hzero : ∀ t, x.recent_cpu t = 0 := fun _ => rfl
  refine ⟨x, rfl, ?_, rfl⟩
  refine
    { running := by rw [hcur]; simp, size := rfl, created := fun t ht => ?_, awake := hawake,
      nice := fun t ht => ?_, ticks := rfl, cpu := fun t => ?_, load := rfl,
      load_range := by decide, cpu_nonneg := le_rfl, own := fun _ c _ => ?_ }
  · have hline : x.s.line = [0] := rfl
    rw [hline, List.mem_singleton] at ht
    rw [ht]
    decide
  · have ht' : t < 1 := ht
    obtain rfl : t = 0 := by omega
    rfl
  · rw [hzero]
    decide
  · rw [hzero]
    decide

theorem crowd_start : ∃ x, mlfqs_run crowd_events mlfqs_boot = some x ∧ Crowd 60 0 (0, 0) x := by
  obtain ⟨y, hy, hcrowd, htid⟩ := crowd_boot
  obtain ⟨x, hx, hcrowd', -⟩ := hcrowd.create htid 60
  exact ⟨x, Runs.run_cons.mpr ⟨y, by rw [hy]; rfl, hx⟩, hcrowd'⟩

theorem after_eq {es : List mlfqs_event} (h : mlfqs_run es x = some x') : x.after es = x' := by
  unfold mlfqs.after
  rw [h]
  rfl

/-- After the minute the load is about 38.7. -/
theorem minute_ends : ∃ x, mlfqs_run minute_events mlfqs_boot = some x
    ∧ Crowd 60 6000 ((next_second 60)^[60] (0, 0)) x := by
  obtain ⟨y, hy, hcrowd⟩ := crowd_start
  obtain ⟨x, hx, hcrowd'⟩ := hcrowd.many_ticks 6000 (by decide) (by decide)
  refine ⟨x, ?_, hcrowd'⟩
  unfold minute_events
  rw [after_eq hy]
  exact Runs.run_append.mpr ⟨y, hy, hx⟩

theorem alone_starts : ∃ x, mlfqs_run alone_events mlfqs_boot = some x
    ∧ Crowd 0 6000 (((next_second 60)^[60] (0, 0)).1, 0) x := by
  obtain ⟨y, hy, hcrowd⟩ := minute_ends
  obtain ⟨x, hx, hcrowd'⟩ := hcrowd.block 59 (by decide)
  exact ⟨x, Runs.run_append.mpr ⟨y, hy, hx⟩, hcrowd'⟩

/-- The load behind a minute with 61 threads. -/
theorem minute_load : ((next_second 60)^[60] (0, 0)).1 = 634668 := by decide +kernel

/-- The `recent_cpu` of a thread that is alone for 12 seconds with that load. -/
theorem alone_cpu : ((next_second 0)^[12] (634668, 0)).2 = 21515183 := by decide

/-- **At the end of the run** the thread that is left has a `recent_cpu` of more than 1310.72. -/
theorem overload_ends : ∃ x c, mlfqs_run overload_run mlfqs_boot = some x
    ∧ x.s.current = some c ∧ 21515183 ≤ x.recent_cpu c := by
  obtain ⟨y, hy, hcrowd⟩ := alone_starts
  rw [minute_load] at hcrowd
  obtain ⟨x, hx, hcrowd'⟩ := hcrowd.many_ticks 1200 (by decide) (by decide)
  obtain ⟨c, hc⟩ := Option.ne_none_iff_exists'.mp hcrowd'.running
  refine ⟨x, c, ?_, hc, ?_⟩
  · unfold overload_run
    rw [after_eq hy]
    exact Runs.run_append.mpr ⟨y, hy, hx⟩
  · have hown := hcrowd'.own rfl c hc
    rw [show (6000 + 1200) / 100 - 6000 / 100 = 12 from rfl, alone_cpu] at hown
    simpa using hown

/-! ### Its events -/

/-- What the events of a tick can be. -/
theorem mem_tick_events {e : mlfqs_event} (h : e ∈ tick_events x) :
    e = .timer_interrupt ∨ e = .timer_yield ∨ e = .schedule := by
  unfold tick_events at h
  split at h
  · split at h <;> simp at h <;> tauto
  · simp at h
    tauto

theorem mem_ticks_events {e : mlfqs_event} (k : ℕ) : ∀ {x : mlfqs}, e ∈ ticks_events k x →
    e = .timer_interrupt ∨ e = .timer_yield ∨ e = .schedule := by
  induction k with
  | zero => exact fun h => absurd h List.not_mem_nil
  | succ k ih =>
      intro x h
      rcases List.mem_append.mp h with h | h
      · exact mem_tick_events h
      · exact ih h

theorem mem_block_events {e : mlfqs_event} (n : ℕ) (h : e ∈ block_events n) :
    e = .thread_block ∨ e = .schedule := by
  induction n with
  | zero => exact absurd h List.not_mem_nil
  | succ n ih =>
      rcases List.mem_append.mp h with h | h
      · simpa using h
      · exact ih h

/-- Where the events of the run come from. -/
theorem mem_overload_run {e : mlfqs_event} (h : e ∈ overload_run) :
    e ∈ crowd_events ∨ e.wakes = 0 ∧ ¬ e.OfLock ∧ ∀ n, e ≠ .thread_set_nice n := by
  have hplain : ∀ e : mlfqs_event, e = .timer_interrupt ∨ e = .timer_yield ∨ e = .schedule
      ∨ e = .thread_block → e.wakes = 0 ∧ ¬ e.OfLock ∧ ∀ n, e ≠ .thread_set_nice n := by
    rintro e (rfl | rfl | rfl | rfl) <;> refine ⟨rfl,
      ?_, by simp⟩ <;> rintro (h | ⟨l, h | h⟩) <;> cases h
  unfold overload_run alone_events minute_events at h
  simp only [List.mem_append] at h
  rcases h with ((h | h) | h) | h
  · exact .inl h
  · exact .inr (hplain e ((mem_ticks_events _ h).imp_right (.imp_right .inl)))
  · exact .inr (hplain e (.inr (.inr (mem_block_events _ h).symm)))
  · exact .inr (hplain e ((mem_ticks_events _ h).imp_right (.imp_right .inl)))

theorem mem_create_events {e : mlfqs_event} (n : ℕ) (h : e ∈ create_events n) :
    e = .thread_create PRI_DEFAULT ∨ ∃ t, e = .thread_unblock t := by
  induction n with
  | zero => exact absurd h List.not_mem_nil
  | succ n ih =>
      rcases List.mem_append.mp h with h | h
      · exact ih h
      · rcases List.mem_pair.mp h with h | h
        · exact .inl h
        · exact .inr ⟨_, h⟩

theorem mem_crowd_events {e : mlfqs_event} (h : e ∈ crowd_events) :
    e = .thread_set_nice 20 ∨ e = .thread_create PRI_DEFAULT ∨ ∃ t, e = .thread_unblock t := by
  unfold crowd_events at h
  rw [List.mem_cons] at h
  exact h.imp_right fun h => mem_create_events 60 h

theorem overload_not_lock : ∀ e ∈ overload_run, ¬ e.OfLock := by
  intro e he
  rcases mem_overload_run he with h | h
  · rcases mem_crowd_events h with rfl | rfl | ⟨t, rfl⟩ <;> rintro (h | ⟨l, h | h⟩) <;> cases h
  · exact h.2.1

theorem overload_nice : NiceInRange overload_run := by
  intro n hn
  rcases mem_overload_run hn with h | h
  · rcases mem_crowd_events h with h | h | ⟨t, h⟩
    · have := mlfqs_event.thread_set_nice.inj h
      omega
    · cases h
    · cases h
  · exact absurd rfl (h.2.2 n)

/-- 60 threads are made ready. -/
theorem overload_wakes : (overload_run.map mlfqs_event.wakes).sum = 60 := by
  have hcrowd : (crowd_events.map mlfqs_event.wakes).sum = 60 := by decide +kernel
  have hzero : ∀ es : List mlfqs_event, (∀ e ∈ es, e.wakes = 0) →
      (es.map mlfqs_event.wakes).sum = 0 := by
    intro es h
    apply List.sum_eq_zero
    simpa using h
  have hticks : ∀ k x, ((ticks_events k x).map mlfqs_event.wakes).sum = 0 := fun k x =>
    hzero _ fun e he => by rcases mem_ticks_events k he with rfl | rfl | rfl <;> rfl
  have hblock : ((block_events 60).map mlfqs_event.wakes).sum = 0 :=
    hzero _ fun e he => by rcases mem_block_events 60 he with rfl | rfl <;> rfl
  unfold overload_run alone_events minute_events
  simp only [List.map_append, List.sum_append, hcrowd, hticks, hblock]

theorem overload_at_most : AtMost 64 overload_run := by
  intro pre post x hes hrun
  have hall := overload_wakes
  rw [hes, List.map_append, List.sum_append] at hall
  have hle := runnable_run (fun e he => overload_not_lock e (hes ▸ List.mem_append_left _ he)) hrun
  have hboot : mlfqs_boot.runnable = 1 := rfl
  omega

end mlfqs

/-- **At the end of `overload_run`** the thread that is running alone is told a wrong value. -/
theorem recent_cpu_overflows : mlfqs.AtMost 64 overload_run ∧ mlfqs.NiceInRange overload_run
    ∧ ∃ x c, mlfqs_run overload_run mlfqs_boot = some x ∧ x.s.current = some c
      ∧ ¬ x.StatisticsExact c := by
  obtain ⟨x, c, hrun, hc, hcpu⟩ := mlfqs.overload_ends
  refine ⟨mlfqs.overload_at_most, mlfqs.overload_nice, x, c, hrun, hc, fun h => ?_⟩
  have hle := ((exact100_iff _).mp h.cpu).2
  omega

/-- A second with three threads: what the three are told is right. -/
theorem statistics_exact_three_threads :
    ∃ x : mlfqs, mlfqs_run three_threads mlfqs_boot = some x ∧ 0 < x.load_avg
      ∧ 0 < x.recent_cpu 0 ∧ x.StatisticsExact 0 ∧ x.StatisticsExact 1 ∧ x.StatisticsExact 2 := by
  have hend : (mlfqs_run three_threads mlfqs_boot).any (fun x => decide (0 < x.load_avg
      ∧ 0 < x.recent_cpu 0
      ∧ ∀ t ∈ List.range 3, -21474754 ≤ x.recent_cpu t ∧ x.recent_cpu t ≤ 21474754))
      = true := by
    decide +kernel
  obtain ⟨x, hrun, hx⟩ := (Option.any_eq_true _ _).mp hend
  obtain ⟨hload, hcpu, hsmall⟩ := of_decide_eq_true hx
  have hmost : mlfqs.AtMost 64 three_threads := fun pre post y hes hpre =>
    (three_threads_at_most pre post y hes hpre).trans (by decide)
  have hexact : ∀ t < 3, x.StatisticsExact t := fun t ht =>
    (statistics_exact_iff hmost three_threads_nice
      (List.append_nil three_threads).symm hrun t).2.mpr (hsmall t (List.mem_range.mpr ht))
  exact ⟨x, hrun, hload, hcpu, hexact 0 (by decide), hexact 1 (by decide), hexact 2 (by decide)⟩

end Pintos
