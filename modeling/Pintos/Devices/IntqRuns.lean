/-
`devices/intq.c`: what holds under every schedule.

The invariant `Sound` is kept by every step, so the bytes stay in order and nobody sleeps
for a condition that is true. Two assertions can fail. A handler must not wait, which its
callers see to. And `wait` asserts that its condition is still false: a thread that had
to sleep for the lock first asserts that of a queue that has changed meanwhile. With one
thread at a time in the calls nobody sleeps for the lock.
-/
import Pintos.Lib.Runs
import Pintos.Devices.Intq

set_option autoImplicit false

namespace Pintos.devices

open synch (sema_state)

variable {q q' : intq} {t u : ℕ} {c : call} {k : condition} {priority : ℕ → ℤ} {es : List event}

/-! ## Schedules -/

/-- The assertions that can fail: that a handler does not wait, and the one of `wait`, by a
thread that has slept for the lock while its condition has become true. -/
def Fails (q : intq) : event → Prop
  | .handler c => ¬ Holds q c.needs
  | .resume t => ∃ c, q.pc t = .acquiring c ∧ q.holder = none ∧ Holds q c.needs
  | _ => False

/-- **One step.** -/
theorem step_spec (h : Sound q) {e : event} (he : Enabled q e) :
    (Fails q e → step q e = .panic) ∧ (¬ Fails q e → ∃ q', step q e = .ok q' ∧ Sound q') := by
  cases e with
  | call t c =>
      have hp : q.pc t = .outside := he
      refine ⟨fun hf => hf.elim, fun _ => ?_⟩
      obtain ⟨q', hq', hsound, -⟩ := thread_call_spec h (t := t) (by rw [hp]; exact id)
        (by rw [hp]; exact id) c
      exact ⟨q', hq', hsound⟩
  | resume t =>
      show (Fails q (.resume t) → resume q t = .panic) ∧ (_ → ∃ q', resume q t = .ok q' ∧ _)
      have hready : Ready q t := he
      unfold Ready at hready
      unfold resume
      cases hp : q.pc t with
      | outside =>
          rw [hp] at hready
          exact hready.elim
      | waiting c =>
          rw [hp] at hready
          exact hready.elim
      | acquiring c =>
          rw [hp] at hready
          have hspec := sema_down_spec (c := c) h (h.threads.reenters hready hp)
          refine ⟨?_, fun hok => ?_⟩
          · rintro ⟨c', hc', hfree, hk⟩
            rw [hp] at hc'
            obtain rfl := point.acquiring.inj hc'
            exact hspec.1 (h.threads.holder_eq_none.mp hfree) hk
          · obtain ⟨q', hq', hsound, -⟩ := hspec.2 fun hpos hk =>
              hok ⟨c, hp, h.threads.holder_eq_none.mpr hpos, hk⟩
            exact ⟨q', hq', hsound⟩
      | woken c =>
          refine ⟨?_, fun _ => ?_⟩
          · rintro ⟨c', hc', -⟩
            rw [hp] at hc'
            cases hc'
          · obtain ⟨q', hq', hsound, -⟩ := lock_release_spec h hp
            exact ⟨q', hq', hsound⟩
      | looping c =>
          refine ⟨?_, fun _ => ?_⟩
          · rintro ⟨c', hc', -⟩
            rw [hp] at hc'
            cases hc'
          · obtain ⟨q', hq', hsound, -⟩ :=
              thread_call_spec h (t := t) (by rw [hp]; exact id) (by rw [hp]; exact id) c
            exact ⟨q', hq', hsound⟩
  | handler c =>
      show (¬ Holds q c.needs → handler_call q c = .panic)
        ∧ (¬ ¬ Holds q c.needs → ∃ q', handler_call q c = _ ∧ _)
      unfold handler_call
      refine ⟨fun hk => by rw [Outcome.assert_neg hk, Outcome.panic_bind], fun hk => ?_⟩
      rw [not_not] at hk
      rw [Outcome.assert_pos hk, Outcome.ok_bind]
      obtain ⟨q', hq', hsound, -⟩ := finish_spec h none hk
      exact ⟨q', hq', hsound⟩
  | set_priority t p =>
      refine ⟨fun hf => hf.elim, fun _ => ⟨_, rfl, ⟨⟨⟨?_, ?_, ?_⟩, ?_, ?_, ?_, ?_, ?_⟩, ?_, ?_⟩⟩⟩
      · exact h.threads.counted.bound
      · exact h.threads.counted.turns
      · exact h.threads.counted.wakes
      · exact h.threads.free
      · exact h.threads.holder
      · exact h.threads.waiter
      · exact h.threads.nodup
      · exact h.threads.queue
      · intro u c hc hk
        exact h.asleep u c hc (by cases hn : c.needs <;> rw [hn] at hk <;> exact hk)
      · exact h.fifo

/-- **Every schedule.** -/
theorem run_sound (hrun : run es (intq_init priority) = some q) :
    Sound q := by
  refine Runs.invariant (I := Sound) (fun q e q' h hstep => ?_) (init_sound priority) hrun
  obtain ⟨he, hok⟩ := Option.ite_none_right_eq_some.mp hstep
  rw [Outcome.toOption_eq_some] at hok
  by_cases hf : Fails q e
  · rw [(step_spec h he).1 hf] at hok
    cases hok
  · obtain ⟨q'', hq'', hsound⟩ := (step_spec h he).2 hf
    rw [hok] at hq''
    obtain rfl := Outcome.ok.inj hq''
    exact hsound

/-- **The queue under every schedule**: the bytes come out once each, in the order they went in,
whoever adds and removes them, and at most `INTQ_BUFSIZE - 1` of them are in the queue. -/
theorem intq_fifo_along (hrun : run es (intq_init priority) = some q) :
    q.removed.map Prod.snd ++ q.bytes = q.added.map Prod.snd
      ∧ q.bytes.length ≤ INTQ_BUFSIZE - 1 := by
  have hlt : q.bytes.length < INTQ_BUFSIZE := RingBuffer.length_contents_lt
  exact ⟨(run_sound hrun).fifo, Nat.le_pred_of_lt hlt⟩

/-- A thread sleeps for the first byte, gets it, and the second stays. -/
theorem intq_fifo_example : ∃ q, run [.call 1 .intq_getc, .handler (.intq_putc 97), .resume 1,
      .resume 1, .handler (.intq_putc 98)] (intq_init fun _ => PRI_DEFAULT) = some q
    ∧ q.removed = [(some 1, 97)]
    ∧ q.removed.map Prod.snd ++ q.bytes = q.added.map Prod.snd
    ∧ q.bytes.length ≤ INTQ_BUFSIZE - 1 := by
  refine ⟨_, rfl, rfl, ?_⟩
  exact @intq_fifo_along _ (fun _ => PRI_DEFAULT) [.call 1 .intq_getc, .handler (.intq_putc 97),
    .resume 1, .resume 1, .handler (.intq_putc 98)] rfl

/-- **Which assertions can fail**: those of a handler that would have to wait, and the one of `wait`
in a thread that had to wait for the lock. -/
theorem intq_stops_iff (hrun : run es (intq_init priority) = some q) {e : event}
    (he : Enabled q e) : (step q e = .panic ↔ (∃ c, e = .handler c ∧ ¬ Holds q c.needs)
      ∨ ∃ t c, e = .resume t ∧ q.pc t = .acquiring c ∧ q.holder = none ∧ Holds q c.needs)
    ∧ (step q e ≠ .panic → ∃ q', step q e = .ok q') := by
  have hspec := step_spec (run_sound hrun) he
  have hfails : Fails q e ↔ (∃ c, e = .handler c ∧ ¬ Holds q c.needs)
      ∨ ∃ t c, e = .resume t ∧ q.pc t = .acquiring c ∧ q.holder = none ∧ Holds q c.needs := by
    cases e with
    | handler c => simp [Fails]
    | resume t => simp [Fails]
    | call t c => simp [Fails]
    | set_priority t p => simp [Fails]
  rw [← hfails]
  by_cases hf : Fails q e
  · exact ⟨iff_of_true (hspec.1 hf) hf, fun hne => absurd (hspec.1 hf) hne⟩
  · obtain ⟨q', hq', -⟩ := hspec.2 hf
    refine ⟨iff_of_false (fun hp => ?_) hf, fun _ => ⟨q', hq'⟩⟩
    rw [hq'] at hp
    cases hp

/-- Two threads read the empty queue, two bytes come, and the first thread takes one before the
second has the lock. -/
theorem two_readers_stop : ∃ q, run [.call 1 .intq_getc, .call 2 .intq_getc,
      .handler (.intq_putc 97), .handler (.intq_putc 98), .resume 1, .resume 1]
      (intq_init fun _ => PRI_DEFAULT) = some q ∧ step q (.resume 2) = .panic := by
  refine ⟨_, rfl, (@intq_stops_iff _ (fun _ => PRI_DEFAULT) [.call 1 .intq_getc, .call 2 .intq_getc,
    .handler (.intq_putc 97), .handler (.intq_putc 98), .resume 1,
      .resume 1] rfl (.resume 2) ?_).1.mpr
    (.inr ⟨2, .intq_getc, rfl, rfl, rfl, ?_⟩)⟩
  · decide
  · decide

/-- When one condition is false the other is true. -/
theorem holds_of_not (h : ¬ Holds q k) {k' : condition} (hne : k' ≠ k) : Holds q k' := by
  cases k with
  | not_full =>
      cases k' with
      | not_full => exact absurd rfl hne
      | not_empty => exact fun he => h fun hf => not_empty_of_full hf he
  | not_empty =>
      cases k' with
      | not_full => exact fun hf => h fun he => not_empty_of_full hf he
      | not_empty => exact absurd rfl hne

/-- The opposite call of a handler does not have to wait, and wakes the thread. -/
theorem Sound.handler_wakes (h : Sound q) (hp : q.pc t = .waiting c) {c' : call}
    (hc' : c'.gives = c.needs) : ∃ q', step q (.handler c') = .ok q' ∧ Ready q' t := by
  have hk : Holds q c'.needs := by
    refine holds_of_not (h.asleep t c hp) ?_
    rw [← hc']
    cases c' with
    | intq_getc => simp [call.needs, call.gives]
    | intq_putc byte => simp [call.needs, call.gives]
  obtain ⟨q', hq', -, hs⟩ := finish_spec h none hk
  have hwaiter : (moved q none c').waiter c'.gives = some t := by
    rw [hc']
    cases c' with
    | intq_getc => exact (h.threads.waiter _ t).mpr ⟨c, hp, rfl⟩
    | intq_putc byte => exact (h.threads.waiter _ t).mpr ⟨c, hp, rfl⟩
  obtain ⟨c'', -, hw⟩ := hs.woken t hwaiter
  refine ⟨q', ?_, ?_⟩
  · show handler_call q c' = _
    rw [handler_call, Outcome.assert_pos hk, Outcome.ok_bind, hq']
  · simp [Ready, hw]

/-- **No wake-up is lost**: nobody sleeps in `wait` for a condition that is true, and when there are
threads in the calls, but none of them can run, then one sleeps in `wait`, its condition is
false, and the opposite call makes it run. -/
theorem intq_wakes_along (hrun : run es (intq_init priority) = some q) :
    (∀ t c, q.pc t = .waiting c → ¬ Holds q c.needs)
    ∧ ((∃ t, q.pc t ≠ .outside) → (∀ t, ¬ Ready q t) → ∃ t c, q.pc t = .waiting c
      ∧ ∀ c', call.gives c' = c.needs → ∃ q', step q (.handler c') = .ok q' ∧ Ready q' t) := by
  have h := run_sound hrun
  refine ⟨h.asleep, ?_⟩
  rintro ⟨t, hin⟩ hstuck
  -- the holder of the lock, if it cannot run, sleeps in `wait`
  have hholder : ∀ u, q.holder = some u → ∃ u c, q.pc u = .waiting c := by
    intro u hu
    have hown := (h.threads.holder u).mp hu
    cases hp : q.pc u with
    | waiting c => exact ⟨u, c, hp⟩
    | woken c => exact absurd (by simp [Ready, hp]) (hstuck u)
    | _ =>
        rw [hp] at hown
        exact hown.elim
  have hwaits : ∃ u c, q.pc u = .waiting c := by
    cases hp : q.pc t with
    | outside => exact absurd hp hin
    | waiting c => exact ⟨t, c, hp⟩
    | woken c => exact absurd (by simp [Ready, hp]) (hstuck t)
    | looping c => exact absurd (by simp [Ready, hp]) (hstuck t)
    | acquiring c =>
        -- asleep at the lock with nobody on the way, so the lock is taken
        have hwoken : q.semaphore.woken = [] := by
          rw [List.eq_nil_iff_forall_not_mem]
          intro u hu
          have hacq := (h.threads.queue u).mp (List.mem_append_right _ hu)
          refine hstuck u ?_
          cases hpu : q.pc u with
          | acquiring c' => simpa [Ready, hpu] using hu
          | _ =>
              rw [hpu] at hacq
              exact hacq.elim
        have hmem := (h.threads.queue t).mpr (by rw [hp]; trivial)
        rw [sema_state.queue, hwoken, List.append_nil] at hmem
        have hzero := h.threads.counted.wakes (List.ne_nil_of_mem hmem)
        rw [hwoken, List.length_nil, Nat.le_zero] at hzero
        have hsome : q.holder ≠ none := fun hnone => h.threads.holder_eq_none.mp hnone hzero
        obtain ⟨u, hu⟩ := Option.ne_none_iff_exists'.mp hsome
        exact hholder u hu
  obtain ⟨u, c, hp⟩ := hwaits
  exact ⟨u, c, hp, fun c' hc' => h.handler_wakes hp hc'⟩

/-- A thread sleeps in the empty queue, and a byte makes it run. -/
theorem intq_wakes_reader : ∃ q, run [.call 1 .intq_getc] (intq_init fun _ => PRI_DEFAULT) = some q
    ∧ ∃ t c, q.pc t = .waiting c
      ∧ ∀ c', call.gives c' = c.needs → ∃ q', step q (.handler c') = .ok q' ∧ Ready q' t := by
  refine ⟨_, rfl, ?_⟩
  refine (@intq_wakes_along _ (fun _ => PRI_DEFAULT) [.call 1 .intq_getc] rfl).2
    ⟨1, by decide⟩ fun t hready => ?_
  by_cases ht : t = 1
  · subst ht
    exact hready
  · unfold Ready at hready
    rw [pc_at_point_of_ne ht] at hready
    exact hready

/-! ## One caller at a time -/

/-- A thread calls only when no other thread is in one of the calls. -/
def Alone (q : intq) : event → Prop
  | .call _ _ => ∀ u, q.pc u = .outside
  | _ => True

/-- At most one thread is in the calls, and it never sleeps for the lock. -/
structure Single (q : intq) : Prop where
  sound : Sound q
  one : ∀ t u, q.pc t ≠ .outside → q.pc u ≠ .outside → t = u
  lock : ∀ t, ¬ (q.pc t).Acquires

namespace Single

/-- Who is behind a `signal` was there before. -/
theorem signalled {who : Option ℕ} (h : Single q) (hsound : Sound q')
    (hs : Signalled k (moved q who c) q') : Single q' := by
  have hsub : ∀ u, q'.pc u ≠ .outside → q.pc u ≠ .outside := by
    intro u hu
    by_cases hw : (moved q who c).waiter k = some u
    · have hwaiter : q.waiter k = some u := by
        cases c with
        | intq_getc => exact hw
        | intq_putc byte => exact hw
      obtain ⟨c', hc', -⟩ := (h.sound.threads.waiter k u).mp hwaiter
      rw [hc']
      simp
    · rwa [hs.others u hw, moved_pc] at hu
  refine ⟨hsound, fun t u ht hu => h.one t u (hsub t ht) (hsub u hu), fun u hu => ?_⟩
  by_cases hw : (moved q who c).waiter k = some u
  · obtain ⟨c', -, hc'⟩ := hs.woken u hw
    rw [hc'] at hu
    exact hu
  · rw [hs.others u hw, moved_pc] at hu
    exact h.lock u hu

/-- A thread that is alone calls, or comes back to the test of the loop. -/
theorem thread_call (h : Single q) (hothers : ∀ u, u ≠ t → q.pc u = .outside)
    (hown : ¬ (q.pc t).Owns) (hok : thread_call q t c = .ok q') : Single q' := by
  obtain ⟨q'', hq'', hsound, hyes, hno⟩ := thread_call_spec h.sound hown (h.lock t) c
  rw [hok] at hq''
  obtain rfl := Outcome.ok.inj hq''
  by_cases hk : Holds q c.needs
  · have hout : Single (q.at_point t .outside) := by
      have hall : ∀ u, (q.at_point t .outside).pc u = .outside := by
        intro u
        by_cases hut : u = t
        · rw [hut, pc_at_point_self]
        · rw [pc_at_point_of_ne hut, hothers u hut]
      refine ⟨h.sound.at_outside hown (h.lock t), fun u _ hu _ => absurd (hall u) hu, fun u => ?_⟩
      rw [hall u]
      exact id
    exact hout.signalled hsound (hyes hk)
  · -- nobody holds the lock, so the thread gets it at once
    have hb := hno hk
    have hfree : q.holder = none := by
      rw [Option.eq_none_iff_forall_ne_some]
      intro u hu
      have hu' := (h.sound.threads.holder u).mp hu
      by_cases hut : u = t
      · exact hown (hut ▸ hu')
      · rw [hothers u hut] at hu'
        exact hu'
    have hpoint := hb.point
    rw [if_neg (h.sound.threads.holder_eq_none.mp hfree)] at hpoint
    have houtside : ∀ u, u ≠ t → q'.pc u = .outside :=
      fun u hut => by rw [hb.others u hut, hothers u hut]
    refine ⟨hsound, fun u v hu hv => ?_, fun u => ?_⟩
    · rw [not_imp_comm.mp (houtside u) hu, not_imp_comm.mp (houtside v) hv]
    · by_cases hut : u = t
      · rw [hut, hpoint]
        exact id
      · rw [houtside u hut]
        exact id

/-- **One step.** -/
theorem step (h : Single q) {e : event} (hal : Alone q e) (he : Enabled q e)
    (hok : step q e = .ok q') : Single q' := by
  cases e with
  | call t c =>
      refine h.thread_call (fun u _ => hal u) ?_ hok
      rw [hal t]
      exact id
  | resume t =>
      have hothers : q.pc t ≠ .outside → ∀ u, u ≠ t → q.pc u = .outside := by
        intro ht u hut
        by_contra hu
        exact hut (h.one u t hu ht)
      have hready : Ready q t := he
      have hres : resume q t = .ok q' := hok
      unfold Ready at hready
      unfold resume at hres
      cases hp : q.pc t with
      | outside =>
          rw [hp] at hready
          exact hready.elim
      | waiting c =>
          rw [hp] at hready
          exact hready.elim
      | acquiring c => exact absurd (by rw [hp]; trivial) (h.lock t)
      | woken c =>
          rw [hp] at hres
          obtain ⟨q'', hq'', hsound, -, hloop, hsame⟩ := lock_release_spec h.sound hp
          rw [show lock_release q t c = .ok q' from hres] at hq''
          obtain rfl := Outcome.ok.inj hq''
          have hout : ∀ u, u ≠ t → q'.pc u = .outside := fun u hut => by
            rw [hsame u hut, hothers (by rw [hp]; simp) u hut]
          refine ⟨hsound, fun u v hu hv => ?_, fun u => ?_⟩
          · rw [not_imp_comm.mp (hout u) hu, not_imp_comm.mp (hout v) hv]
          · by_cases hut : u = t
            · rw [hut, hloop]
              exact id
            · rw [hout u hut]
              exact id
      | looping c =>
          rw [hp] at hres
          refine h.thread_call (hothers (by rw [hp]; simp)) ?_ hres
          rw [hp]
          exact id
  | handler c =>
      have hstep : handler_call q c = .ok q' := hok
      obtain ⟨_, hk, hfin⟩ := Outcome.bind_eq_ok.mp hstep
      obtain ⟨q'', hq'', hsound, hs⟩ := finish_spec h.sound none (Outcome.assert_eq_ok.mp hk)
      rw [hfin] at hq''
      obtain rfl := Outcome.ok.inj hq''
      exact h.signalled hsound hs
  | set_priority t p =>
      have hspec := (step_spec h.sound he).2 id
      obtain ⟨q'', hq'', hsound⟩ := hspec
      rw [hok] at hq''
      obtain rfl := Outcome.ok.inj hq''
      obtain rfl := Outcome.ok.inj hok
      exact ⟨hsound, h.one, h.lock⟩

end Single

/-- The steps of a run, each with the state in front of it, all meet `C`. -/
def Along (C : intq → event → Prop) (q₀ : intq) (es : List event) : Prop :=
  ∀ pre e post t t', es = pre ++ e :: post → run pre q₀ = some t →
    run [e] t = some t' → C t e

/-- **With one caller at a time** the only assertion that can fail is that of a handler that would
have to wait. -/
theorem intq_single_caller_iff (hrun : run es (intq_init priority) = some q)
    (halone : Along Alone (intq_init priority) es) {e : event} (he : Enabled q e) :
    step q e = .panic ↔ ∃ c, e = .handler c ∧ ¬ Holds q c.needs := by
  have hinit : Single (intq_init priority) := by
    refine ⟨init_sound priority, fun t u ht _ => absurd rfl ht, fun t hf => hf⟩
  have h : Single q := by
    refine Runs.invariant_along (I := Single) (C := Alone) (fun q e q' h hal hstep => ?_)
      hinit ?_ (List.append_nil es).symm hrun
    · obtain ⟨he, hok⟩ := Option.ite_none_right_eq_some.mp hstep
      rw [Outcome.toOption_eq_some] at hok
      exact h.step hal he hok
    · intro pre e post t t' hes hpre hstep
      exact halone pre e post t t' hes hpre (Runs.run_cons.mpr ⟨t', hstep, rfl⟩)
  rw [(intq_stops_iff hrun he).1]
  refine or_iff_left ?_
  rintro ⟨t, c, -, hp, -⟩
  exact h.lock t (by rw [hp]; trivial)

/-- One thread sleeps for a byte; a handler that reads then has nothing to read. -/
theorem intq_single_caller_reader : ∃ q, run [.call 1 .intq_getc]
    (intq_init fun _ => PRI_DEFAULT) = some q ∧ step q (.handler .intq_getc) = .panic := by
  refine ⟨_, rfl, ?_⟩
  refine (@intq_single_caller_iff _ (fun _ => PRI_DEFAULT)
    [.call 1 .intq_getc] rfl ?_ (.handler .intq_getc) trivial).mpr ⟨.intq_getc, rfl, by decide⟩
  intro pre e post t t' hes hpre _
  cases pre with
  | nil =>
      obtain ⟨rfl, -⟩ := List.cons_eq_cons.mp hes
      obtain rfl := Option.some.inj hpre
      exact fun u => rfl
  | cons e' pre =>
      have hlen := congrArg List.length hes
      simp at hlen

end Pintos.devices
