/-
Where threads are: running, in the ready list, among the waiters of a lock, or blocked
for another reason.

A thread is in one place at a time. A thread that has blocked outside the locks is in
no queue of the scheduler, and stays as it is until somebody unblocks it by name.
-/
import Pintos.Threads.Scheduler

set_option autoImplicit false

namespace Pintos

/-! ## Threads nobody can reach

A thread that has blocked and is in no queue of the scheduler stays as it is. -/

namespace kernel

/-- `t` is blocked, and not because of a lock. -/
structure Parked (s : kernel) (t : ℕ) : Prop where
  blocked : (s.threads t).status = .THREAD_BLOCKED
  created : t < s.next_tid
  not_ready : t ∉ s.ready_list
  not_current : s.current ≠ some t
  not_waiting : ∀ l, t ∉ (s.locks l).waiters

variable {s s' : kernel} {t cur l : ℕ}

namespace Parked

theorem ne_current (h : s.Parked t) (hc : s.current = some cur) : t ≠ cur := by
  rintro rfl
  exact h.not_current hc

/-- An assignment that leaves the status alone, or to another thread. -/
theorem set_thread (h : s.Parked t) {u : ℕ} {f : thread → thread}
    (hf : t = u → (f (s.threads t)).status = (s.threads t).status) :
    (s.set_thread u f).Parked t := by
  refine ⟨?_, h.created, h.not_ready, h.not_current, h.not_waiting⟩
  by_cases hu : t = u
  · have hstatus := hf hu
    subst hu
    rw [set_thread_self, hstatus]
    exact h.blocked
  · rw [set_thread_of_ne hu]
    exact h.blocked

/-- An assignment to a lock that does not add `t` to its waiters. -/
theorem set_lock (h : s.Parked t) {g : lock → lock}
    (hg : t ∈ (g (s.locks l)).waiters → t ∈ (s.locks l).waiters) : (s.set_lock l g).Parked t := by
  refine ⟨h.blocked, h.created, h.not_ready, h.not_current, ?_⟩
  apply forall_set_lock (P := fun _ k => t ∉ k.waiters) h.not_waiting
  exact fun hmem => h.not_waiting l (hg hmem)

theorem set_ready (h : s.Parked t) {r : List ℕ} (hr : t ∉ r) {c : Option ℕ} (hc : c ≠ some t) :
    ({ s with ready_list := r, current := c } : kernel).Parked t :=
  ⟨h.blocked, h.created, hr, hc, h.not_waiting⟩

theorem not_mem_insert (h : s.Parked t) {u : ℕ} (hu : t ≠ u) :
    t ∉ list_insert_ordered (compare_priority s) s.ready_list u := by
  intro hmem
  rcases mem_list_insert_ordered.mp hmem with htu | hold
  · exact hu htu
  · exact h.not_ready hold

theorem thread_unblock (h : s.Parked t) {u : ℕ} (hu : t ≠ u) (hrun : thread_unblock s u = .ok s') :
    s'.Parked t := by
  obtain ⟨_, _, hret⟩ := Outcome.bind_eq_ok.mp hrun
  obtain rfl := Outcome.ok.inj hret
  apply Parked.set_thread
  · exact ⟨h.blocked, h.created, h.not_mem_insert hu, h.not_current, h.not_waiting⟩
  · exact fun htu => absurd htu hu

theorem thread_yield (h : s.Parked t) (hu : t ≠ cur) : (thread_yield s cur).Parked t := by
  unfold Pintos.thread_yield
  apply Parked.set_thread
  · exact h.set_ready (h.not_mem_insert hu) nofun
  · exact fun htu => absurd htu hu

theorem compare_cur_next_priority (h : s.Parked t) (hu : t ≠ cur) :
    (compare_cur_next_priority s cur).Parked t := by
  unfold Pintos.compare_cur_next_priority
  split
  case h_1 => exact h
  case h_2 next rest hsort =>
    have hsorted : ({ s with ready_list := next :: rest } : kernel).Parked t := by
      refine ⟨h.blocked, h.created, fun hmem => ?_, h.not_current, h.not_waiting⟩
      rw [← hsort] at hmem
      exact h.not_ready (mem_list_sort.mp hmem)
    dsimp only
    split
    · exact hsorted.thread_yield hu
    · exact hsorted

theorem sema_down (h : s.Parked t) (hu : t ≠ cur) : (sema_down s cur l).Parked t := by
  unfold Pintos.sema_down
  split
  · -- `cur` joins the waiters
    have hwait : (s.set_lock l fun k =>
        { k with waiters := list_insert_ordered (compare_priority s) k.waiters cur }).Parked t := by
      refine h.set_lock fun hmem => ?_
      rcases mem_list_insert_ordered.mp hmem with htu | hold
      · exact absurd htu hu
      · exact hold
    have hblock := hwait.set_thread (u := cur)
      (f := fun th => { th with status := .THREAD_BLOCKED, in_sema_down := some l })
      fun htu => absurd htu hu
    exact hblock.set_ready hblock.not_ready fun h => by cases h
  · refine Parked.set_lock (Parked.set_thread (h.set_lock fun hmem => hmem) fun htu => ?_)
      fun hmem => hmem
    exact absurd htu hu

theorem donate_to (h : s.Parked t) (pending holder : ℕ) :
    (donate_to s cur pending holder).Parked t := by
  have hraise : (if (s.threads holder).priority < (s.threads cur).priority then
      s.set_thread holder fun th => { th with priority := (s.threads cur).priority }
    else s).Parked t := by
    split
    · exact h.set_thread fun _ => rfl
    · exact h
  generalize hdonate : create_donation s cur pending = donate
  have hrecord := hraise.set_thread (u := holder) (f := fun th =>
    { th with donations := list_insert_ordered compare_priority_for_donate th.donations donate })
    fun _ => rfl
  unfold Pintos.donate_to
  rw [hdonate]
  dsimp only
  split
  · exact hrecord
  · exact hrecord.set_lock fun hmem => mem_list_sort.mp hmem

theorem lock_acquire_loop (h : s.Parked t) (hu : t ≠ cur) (m : Option ℕ) :
    (lock_acquire_loop s cur l m).Parked t := by
  unfold Pintos.lock_acquire_loop
  split
  case h_1 => exact h.sema_down hu
  case h_2 k =>
    split
    case h_1 => exact h.sema_down hu
    case h_2 holder _ =>
      split
      · exact h.sema_down hu
      · exact h.set_thread fun _ => rfl

theorem lock_acquire (h : s.Parked t) (hu : t ≠ cur) (hrun : lock_acquire s cur l = .ok s') :
    s'.Parked t := by
  obtain ⟨_, _, hrun⟩ := Outcome.bind_eq_ok.mp hrun
  split at hrun
  · obtain rfl := Outcome.ok.inj hrun
    exact h.lock_acquire_loop hu none
  · obtain rfl := Outcome.ok.inj hrun
    exact (h.set_thread fun _ => rfl).lock_acquire_loop hu _

theorem lock_acquire_donate (h : s.Parked t) (hu : t ≠ cur)
    (hrun : lock_acquire_donate s cur = .ok s') : s'.Parked t := by
  unfold Pintos.lock_acquire_donate at hrun
  split at hrun
  case h_1 => cases hrun
  case h_2 call calls _ =>
    obtain rfl := Outcome.ok.inj hrun
    exact ((h.set_thread fun _ => rfl).donate_to call.pending call.holder).lock_acquire_loop hu _

theorem sema_up_wake (h : s.Parked t) (hrun : sema_up_wake s l = .ok s') : s'.Parked t := by
  unfold Pintos.sema_up_wake at hrun
  split at hrun
  case h_1 =>
    obtain rfl := Outcome.ok.inj hrun
    exact h
  case h_2 u rest hsort =>
    have hmem : ∀ v ∈ u :: rest, v ∈ (s.locks l).waiters := by
      intro v hv
      rw [← hsort] at hv
      exact mem_list_sort.mp hv
    have hpop : (s.set_lock l fun k => { k with waiters := rest }).Parked t :=
      h.set_lock fun hv => hmem t (List.mem_cons_of_mem _ hv)
    apply hpop.thread_unblock _ hrun
    rintro rfl
    exact h.not_waiting l (hmem t List.mem_cons_self)

theorem lock_release (h : s.Parked t) (hu : t ≠ cur) (hrun : lock_release s cur l = .ok s') :
    s'.Parked t := by
  obtain ⟨_, _, hrun⟩ := Outcome.bind_eq_ok.mp hrun
  obtain ⟨s₃, hup, hret⟩ := Outcome.bind_eq_ok.mp hrun
  obtain ⟨s₂, hwake, hup⟩ := Outcome.bind_eq_ok.mp hup
  have hremove : (remove_donation_for_lock s cur l).Parked t := h.set_thread fun _ => rfl
  have hrecalc : (recalc_priority (remove_donation_for_lock s cur l) cur).Parked t :=
    hremove.set_thread fun _ => recalc_thread_status _
  have hwoken := (hrecalc.set_lock (l := l) (g := fun k => { k with holder := none })
    fun hmem => hmem).sema_up_wake hwake
  obtain rfl := Outcome.ok.inj hup
  have hyield := (hwoken.set_lock (l := l) (g := fun k => { k with value := k.value + 1 })
    fun hmem => hmem).compare_cur_next_priority hu
  obtain rfl := Outcome.ok.inj hret
  split
  · exact hyield.compare_cur_next_priority hu
  · exact hyield

theorem thread_create (h : s.Parked t) (hu : t ≠ cur) {p : ℤ}
    (hrun : thread_create s cur p = .ok s') : s'.Parked t := by
  obtain ⟨_, _, hrun⟩ := Outcome.bind_eq_ok.mp hrun
  obtain ⟨s₁, hwake, hret⟩ := Outcome.bind_eq_ok.mp hrun
  have hne : t ≠ s.next_tid := h.created.ne
  have hinit := h.set_thread (u := s.next_tid) (f := fun _ => init_thread p) fun htu =>
    absurd htu hne
  have hnew : ({ s.set_thread s.next_tid (fun _ => init_thread p) with
      next_tid := s.next_tid + 1 } : kernel).Parked t :=
    ⟨hinit.blocked, h.created.trans (Nat.lt_succ_self _), h.not_ready, h.not_current, h.not_waiting⟩
  have hwoken := hnew.thread_unblock hne hwake
  obtain rfl := Outcome.ok.inj hret
  split
  · exact hwoken.thread_yield hu
  · exact hwoken

theorem schedule (h : s.Parked t) : (schedule s).Parked t := by
  unfold Pintos.schedule
  split
  case h_1 => exact h
  case h_2 next rest hready =>
    have hnot := h.not_ready
    rw [hready] at hnot
    obtain ⟨hnext, hrest⟩ : t ≠ next ∧ t ∉ rest := by simpa using hnot
    have hswitch : (switch_to s next rest).Parked t := by
      refine Parked.set_thread (h.set_ready hrest fun heq => ?_) fun htu => absurd htu hnext
      exact hnext (Option.some.inj heq).symm
    split
    · exact hswitch
    · exact hswitch.sema_down hnext

theorem thread_block (h : s.Parked t) (hu : t ≠ cur) : (thread_block s cur).Parked t := by
  have hset := h.set_thread (u := cur) (f := fun th => { th with status := .THREAD_BLOCKED })
    fun htu => absurd htu hu
  exact hset.set_ready hset.not_ready nofun

/-- **One step** of the scheduler, unless it is the one that wakes `t`. -/
theorem sched_step (h : s.Parked t) {a : sched_action} (ha : a ≠ .thread_unblock t)
    (hrun : sched_step s a = .ok s') : s'.Parked t := by
  cases a with
  | thread_block =>
      unfold Pintos.sched_step at hrun
      dsimp only at hrun
      split at hrun
      case h_1 cur hc =>
        obtain rfl := Outcome.ok.inj hrun
        exact h.thread_block (h.ne_current hc)
      case h_2 => cases hrun
  | thread_unblock u =>
      unfold Pintos.sched_step at hrun
      dsimp only at hrun
      split at hrun
      · apply h.thread_unblock _ hrun
        rintro rfl
        exact ha rfl
      · cases hrun
  | kernel a =>
      unfold Pintos.sched_step kernel_step at hrun
      dsimp only at hrun
      split at hrun
      case h_1 cur l hc => exact h.lock_acquire (h.ne_current hc) hrun
      case h_2 cur hc => exact h.lock_acquire_donate (h.ne_current hc) hrun
      case h_3 cur l hc => exact h.lock_release (h.ne_current hc) hrun
      case h_4 cur p hc =>
        obtain rfl := Outcome.ok.inj hrun
        exact (h.set_thread fun _ => rfl).compare_cur_next_priority (h.ne_current hc)
      case h_5 cur p hc => exact h.thread_create (h.ne_current hc) hrun
      case h_6 cur hc =>
        obtain rfl := Outcome.ok.inj hrun
        exact h.thread_yield (h.ne_current hc)
      case h_7 =>
        obtain rfl := Outcome.ok.inj hrun
        exact h.schedule
      case h_8 => cases hrun

end Parked

/-! ## One place at a time -/

/-- Statuses tell the places apart. -/
structure Placed (s : kernel) : Prop extends s.Queued where
  waiting : ∀ l, ∀ u ∈ (s.locks l).waiters,
    (s.threads u).status = .THREAD_BLOCKED ∧ (s.threads u).in_sema_down = some l
  waiters_nodup : ∀ l, (s.locks l).waiters.Nodup

theorem kernel_boot_placed : kernel_boot.Placed :=
  ⟨kernel_boot_queued, by simp [kernel_boot], by simp [kernel_boot]⟩

theorem recalc_thread_in_sema_down (th : thread) :
    (recalc_thread th).in_sema_down = th.in_sema_down := by
  unfold recalc_thread
  split
  · rfl
  · rfl

namespace Placed

/-- The running thread parks. -/
theorem parked_of_block (h : s.Placed) (hc : s.current = some cur) :
    (Pintos.thread_block s cur).Parked cur := by
  obtain ⟨hst, hlt⟩ := h.running cur hc
  refine ⟨?_, hlt, h.current_not_ready hc, nofun, fun l hmem => ?_⟩
  · rw [thread_block_threads, set_thread_self]
  · have hblocked := (h.waiting l cur hmem).1
    rw [hst] at hblocked
    cases hblocked

/-- An assignment that leaves the status and the lock waited for alone. -/
theorem set_thread (h : s.Placed) {u : ℕ} {f : thread → thread}
    (hstatus : (f (s.threads u)).status = (s.threads u).status)
    (hsema : (f (s.threads u)).in_sema_down = (s.threads u).in_sema_down) :
    (s.set_thread u f).Placed := by
  have hst := set_thread_field thread.status hstatus
  have hin := set_thread_field thread.in_sema_down hsema
  refine ⟨h.toQueued.congr rfl hst (fun _ hc => hc) le_rfl fun _ _ hu => hu, fun l v hv => ?_,
    h.waiters_nodup⟩
  rw [hst v, hin v]
  exact h.waiting l v hv

/-- An assignment to a lock that adds no waiter. -/
theorem set_lock (h : s.Placed) {g : lock → lock}
    (hsub : ∀ u ∈ (g (s.locks l)).waiters, u ∈ (s.locks l).waiters)
    (hnodup : (g (s.locks l)).waiters.Nodup) : (s.set_lock l g).Placed := by
  refine ⟨h.toQueued.congr rfl (fun _ => rfl) (fun _ hc => hc) le_rfl ?_, ?_, ?_⟩
  · exact forall_set_lock (P := fun l' k => ∀ u ∈ k.waiters, u ∈ (s.locks l').waiters)
      (fun _ _ hu => hu) hsub
  · exact forall_set_lock (P := fun l' k => ∀ u ∈ k.waiters, (s.threads u).status = .THREAD_BLOCKED
      ∧ (s.threads u).in_sema_down = some l') h.waiting fun u hu => h.waiting l u (hsub u hu)
  · exact forall_set_lock (P := fun _ k => k.waiters.Nodup) h.waiters_nodup hnodup

/-- A thread that is not among the waiters changes its status. -/
theorem of_queued (h : s.Placed) {u : ℕ} (hq : s'.Queued) (hlocks : s'.locks = s.locks)
    (hother : ∀ v, v ≠ u → s'.threads v = s.threads v) (hu : ∀ l, u ∉ (s.locks l).waiters) :
    s'.Placed := by
  refine ⟨hq, fun l v hv => ?_, fun l => ?_⟩
  · rw [hlocks] at hv
    have hne : v ≠ u := by
      rintro rfl
      exact hu l hv
    rw [hother v hne]
    exact h.waiting l v hv
  · rw [hlocks]
    exact h.waiters_nodup l

/-- The running thread waits for nothing. -/
theorem current_not_waiting (h : s.Placed) (hc : s.current = some cur) (l : ℕ) :
    cur ∉ (s.locks l).waiters := by
  intro hmem
  have hblocked := (h.waiting l cur hmem).1
  rw [(h.running cur hc).1] at hblocked
  cases hblocked

theorem thread_unblock (h : s.Placed) {u : ℕ} (hu : u < s.next_tid)
    (hwait : ∀ l, u ∉ (s.locks l).waiters) (hrun : Pintos.thread_unblock s u = .ok s') :
    s'.Placed ∧ s'.current = s.current := by
  obtain ⟨hins, hcur, -, hlocks, -⟩ := thread_unblock_inserts h.toQueued hu hrun
  refine ⟨h.of_queued (u := u) hins.queued hlocks (fun v hv => ?_) hwait, hcur⟩
  obtain ⟨_, _, hret⟩ := Outcome.bind_eq_ok.mp hrun
  obtain rfl := Outcome.ok.inj hret
  exact set_thread_of_ne hv

theorem thread_yield (h : s.Placed) (hc : s.current = some cur) :
    (Pintos.thread_yield s cur).Placed := by
  apply h.of_queued (u := cur) (thread_yield_inserts h.toQueued hc).queued rfl
  · intro v hv
    unfold Pintos.thread_yield
    exact set_thread_of_ne hv
  · exact h.current_not_waiting hc

theorem compare_cur_next_priority (h : s.Placed) (hc : s.current = some cur) :
    (Pintos.compare_cur_next_priority s cur).Placed := by
  unfold Pintos.compare_cur_next_priority
  split
  case h_1 => exact h
  case h_2 next rest hsort =>
    have hperm : (next :: rest).Perm s.ready_list := hsort ▸ List.perm_insertionSort _ _
    have hsorted : ({ s with ready_list := next :: rest } : kernel).Placed := by
      refine ⟨⟨hperm.nodup_iff.mpr h.nodup, fun t ht => ?_, h.running, h.waiters⟩, h.waiting,
        h.waiters_nodup⟩
      exact h.ready t (hperm.mem_iff.mp ht)
    dsimp only
    split
    · exact hsorted.thread_yield hc
    · exact hsorted

/-- The waiters when `cur` goes to sleep. -/
theorem sema_down_block_waiters (cur : ℕ) {l : ℕ} (hv : (s.locks l).value = 0) (k : ℕ) :
    ((Pintos.sema_down s cur l).locks k).waiters
      = if k = l then list_insert_ordered (compare_priority s) (s.locks l).waiters cur
        else (s.locks k).waiters := by
  simp only [Pintos.sema_down, if_pos hv]
  rw [set_thread_locks]
  split
  · rename_i hk
    rw [hk, set_lock_self]
  · rename_i hk
    rw [set_lock_of_ne hk]

theorem sema_down (h : s.Placed) (hc : s.current = some cur) :
    (Pintos.sema_down s cur l).Placed := by
  have hq := (sema_down_queued h.toQueued hc l).1
  have hnot := h.current_not_waiting hc
  by_cases hv : (s.locks l).value = 0
  · -- `cur` joins the waiters of `l`
    obtain ⟨hother, hself, -, -, -, -⟩ := sema_down_block_fields cur hv
    refine ⟨hq, fun k u hu => ?_, fun k => ?_⟩
    · rw [sema_down_block_waiters cur hv] at hu
      by_cases huc : u = cur
      · have hk : k = l := by
          by_contra hk
          rw [if_neg hk] at hu
          exact hnot k (huc ▸ hu)
        rw [huc, hself, hk]
        exact ⟨rfl, rfl⟩
      · rw [hother u huc]
        apply h.waiting k u
        split at hu
        · rename_i hk
          rw [hk]
          exact (mem_list_insert_ordered.mp hu).resolve_left huc
        · exact hu
    · rw [sema_down_block_waiters cur hv]
      split
      · apply (List.perm_orderedInsert _ _ _).nodup_iff.mpr
        exact List.nodup_cons.mpr ⟨hnot l, h.waiters_nodup l⟩
      · exact h.waiters_nodup k
  · obtain ⟨hother, hself, hlocks, hlock, -, -, -⟩ := sema_down_take_fields cur hv
    have hwaiters : ∀ k, ((Pintos.sema_down s cur l).locks k).waiters = (s.locks k).waiters := by
      intro k
      by_cases hk : k = l
      · rw [hk, hlock]
      · rw [hlocks k hk]
    refine ⟨hq, fun k u hu => ?_, fun k => ?_⟩
    · rw [hwaiters] at hu
      have huc : u ≠ cur := by
        rintro rfl
        exact hnot k hu
      rw [hother u huc]
      exact h.waiting k u hu
    · rw [hwaiters]
      exact h.waiters_nodup k

theorem donate_to (h : s.Placed) (pending holder : ℕ) :
    (Pintos.donate_to s cur pending holder).Placed := by
  have hraise : (if (s.threads holder).priority < (s.threads cur).priority then
      s.set_thread holder fun th => { th with priority := (s.threads cur).priority }
    else s).Placed := by
    split
    · exact h.set_thread rfl rfl
    · exact h
  generalize hdonate : create_donation s cur pending = donate
  have hrecord := hraise.set_thread (u := holder) (f := fun th =>
    { th with donations := list_insert_ordered compare_priority_for_donate th.donations donate })
    rfl rfl
  unfold Pintos.donate_to
  rw [hdonate]
  dsimp only
  split
  · exact hrecord
  · apply hrecord.set_lock
    · exact fun u hu => mem_list_sort.mp hu
    · exact (List.perm_insertionSort _ _).nodup_iff.mpr (hrecord.waiters_nodup _)

/-- `donate_to` does not switch. -/
theorem donate_to_current (s : kernel) (cur pending holder : ℕ) :
    (Pintos.donate_to s cur pending holder).current = s.current := by
  unfold Pintos.donate_to
  dsimp only
  split
  · change (kernel.current (if _ then _ else _)) = _
    split
    · rfl
    · rfl
  · change (kernel.current (if _ then _ else _)) = _
    split
    · rfl
    · rfl

theorem lock_acquire_loop (h : s.Placed) (hc : s.current = some cur) (m : Option ℕ) :
    (Pintos.lock_acquire_loop s cur l m).Placed := by
  unfold Pintos.lock_acquire_loop
  split
  case h_1 => exact h.sema_down hc
  case h_2 k =>
    split
    case h_1 => exact h.sema_down hc
    case h_2 holder _ =>
      split
      · exact h.sema_down hc
      · exact h.set_thread rfl rfl

theorem lock_acquire (h : s.Placed) (hc : s.current = some cur)
    (hrun : Pintos.lock_acquire s cur l = .ok s') : s'.Placed := by
  obtain ⟨_, _, hrun⟩ := Outcome.bind_eq_ok.mp hrun
  split at hrun
  · obtain rfl := Outcome.ok.inj hrun
    exact h.lock_acquire_loop hc none
  · obtain rfl := Outcome.ok.inj hrun
    exact (h.set_thread rfl rfl).lock_acquire_loop hc _

theorem lock_acquire_donate (h : s.Placed) (hc : s.current = some cur)
    (hrun : Pintos.lock_acquire_donate s cur = .ok s') : s'.Placed := by
  unfold Pintos.lock_acquire_donate at hrun
  split at hrun
  case h_1 => cases hrun
  case h_2 call calls _ =>
    obtain rfl := Outcome.ok.inj hrun
    refine Placed.lock_acquire_loop ((h.set_thread rfl rfl).donate_to call.pending call.holder) ?_ _
    exact (donate_to_current _ _ _ _).trans hc

theorem sema_up_wake (h : s.Placed) (hrun : Pintos.sema_up_wake s l = .ok s') :
    s'.Placed ∧ s'.current = s.current := by
  unfold Pintos.sema_up_wake at hrun
  split at hrun
  case h_1 =>
    obtain rfl := Outcome.ok.inj hrun
    exact ⟨h, rfl⟩
  case h_2 u rest hsort =>
    have hperm : (u :: rest).Perm (s.locks l).waiters := hsort ▸ List.perm_insertionSort _ _
    have hnodup := hperm.nodup_iff.mpr (h.waiters_nodup l)
    have hmem : ∀ v ∈ u :: rest, v ∈ (s.locks l).waiters := fun v hv => hperm.mem_iff.mp hv
    have hpop := h.set_lock (l := l) (g := fun k => { k with waiters := rest })
      (fun v hv => hmem v (List.mem_cons_of_mem _ hv)) (List.nodup_cons.mp hnodup).2
    have hu := hmem u List.mem_cons_self
    -- `u` waited for `l` only, and there once
    refine hpop.thread_unblock (h.waiters l u hu) (fun k hk => ?_) hrun
    by_cases hkl : k = l
    · subst hkl
      rw [set_lock_self] at hk
      exact (List.nodup_cons.mp hnodup).1 hk
    · rw [set_lock_of_ne hkl] at hk
      have hk' := (h.waiting k u hk).2
      rw [(h.waiting l u hu).2] at hk'
      exact hkl (Option.some.inj hk').symm

theorem lock_release (h : s.Placed) (hc : s.current = some cur)
    (hrun : Pintos.lock_release s cur l = .ok s') : s'.Placed := by
  obtain ⟨_, _, hrun⟩ := Outcome.bind_eq_ok.mp hrun
  obtain ⟨s₃, hup, hret⟩ := Outcome.bind_eq_ok.mp hrun
  obtain ⟨s₂, hwake, hup⟩ := Outcome.bind_eq_ok.mp hup
  have hremove : (remove_donation_for_lock s cur l).Placed := h.set_thread rfl rfl
  have hrecalc : (recalc_priority (remove_donation_for_lock s cur l) cur).Placed :=
    hremove.set_thread (recalc_thread_status _) (recalc_thread_in_sema_down _)
  have hfree := hrecalc.set_lock (l := l) (g := fun k => { k with holder := none })
    (fun _ hu => hu) (hrecalc.waiters_nodup l)
  obtain ⟨hwoken, hcur⟩ := hfree.sema_up_wake hwake
  have hvalue := hwoken.set_lock (l := l) (g := fun k => { k with value := k.value + 1 })
    (fun _ hu => hu) (hwoken.waiters_nodup l)
  obtain rfl := Outcome.ok.inj hup
  have hyield := hvalue.compare_cur_next_priority (hcur.trans hc)
  obtain rfl := Outcome.ok.inj hret
  split
  · rename_i hstill
    exact hyield.compare_cur_next_priority hstill
  · exact hyield

theorem thread_create (h : s.Placed) (hc : s.current = some cur) {p : ℤ}
    (hrun : Pintos.thread_create s cur p = .ok s') : s'.Placed := by
  obtain ⟨_, _, hrun⟩ := Outcome.bind_eq_ok.mp hrun
  obtain ⟨s₁, hwake, hret⟩ := Outcome.bind_eq_ok.mp hrun
  have hne : ∀ t, t < s.next_tid → (s.set_thread s.next_tid fun _ => init_thread p).threads t
      = s.threads t := fun t ht => set_thread_of_ne ht.ne
  have hnew : ({ s.set_thread s.next_tid (fun _ => init_thread p) with
      next_tid := s.next_tid + 1 } : kernel).Placed := by
    refine ⟨⟨h.nodup, fun t ht => ?_, fun c hc => ?_, fun k t ht => ?_⟩, fun k t ht => ?_,
      h.waiters_nodup⟩
    · rw [hne t (h.ready t ht).2]
      exact ⟨(h.ready t ht).1, (h.ready t ht).2.trans (Nat.lt_succ_self _)⟩
    · rw [hne c (h.running c hc).2]
      exact ⟨(h.running c hc).1, (h.running c hc).2.trans (Nat.lt_succ_self _)⟩
    · exact (h.waiters k t ht).trans (Nat.lt_succ_self _)
    · rw [hne t (h.waiters k t ht)]
      exact h.waiting k t ht
  obtain ⟨hwoken, hcur⟩ := hnew.thread_unblock (Nat.lt_succ_self _)
    (fun k hk => (h.waiters k _ hk).ne rfl) hwake
  obtain rfl := Outcome.ok.inj hret
  split
  · exact hwoken.thread_yield (hcur.trans hc)
  · exact hwoken

theorem schedule (h : s.Placed) : (Pintos.schedule s).Placed := by
  unfold Pintos.schedule
  split
  case h_1 => exact h
  case h_2 next rest hready =>
    have hnodup := h.nodup
    have hst := h.ready
    rw [hready] at hnodup hst
    obtain ⟨hnext, hrest⟩ := List.nodup_cons.mp hnodup
    obtain ⟨hstatus, hlt⟩ := hst next List.mem_cons_self
    have hwait : ∀ l, next ∉ (s.locks l).waiters := by
      intro l hmem
      have hblocked := (h.waiting l next hmem).1
      rw [hstatus] at hblocked
      cases hblocked
    have hswitch : (switch_to s next rest).Placed := by
      refine h.of_queued (u := next) ⟨hrest, fun t ht => ?_, fun c hc => ?_, h.waiters⟩ rfl
        (fun v hv => set_thread_of_ne hv) hwait
      · have hne : t ≠ next := fun heq => hnext (heq ▸ ht)
        rw [switch_to, set_thread_of_ne hne]
        exact hst t (List.mem_cons_of_mem _ ht)
      · obtain rfl := Option.some.inj hc
        rw [switch_to, set_thread_self]
        exact ⟨rfl, hlt⟩
    split
    · exact hswitch
    · exact hswitch.sema_down rfl

theorem thread_block (h : s.Placed) (hc : s.current = some cur) :
    (Pintos.thread_block s cur).Placed := by
  have hother : ∀ v, v ≠ cur → (Pintos.thread_block s cur).threads v = s.threads v := by
    intro v hv
    rw [thread_block_threads, set_thread_of_ne hv]
  refine h.of_queued (u := cur) ⟨h.nodup, fun t ht => ?_, nofun, h.waiters⟩ rfl hother
    (h.current_not_waiting hc)
  have hne : t ≠ cur := fun heq => h.current_not_ready hc (heq ▸ ht)
  rw [hother t hne]
  exact h.ready t ht

/-- **One step** of the scheduler. -/
theorem sched_step (h : s.Placed) {a : sched_action} (hrun : Pintos.sched_step s a = .ok s') :
    s'.Placed := by
  cases a with
  | thread_block =>
      unfold Pintos.sched_step at hrun
      dsimp only at hrun
      split at hrun
      case h_1 cur hc =>
        obtain rfl := Outcome.ok.inj hrun
        exact h.thread_block hc
      case h_2 => cases hrun
  | thread_unblock u =>
      unfold Pintos.sched_step at hrun
      dsimp only at hrun
      split at hrun
      case isTrue hu =>
        refine (h.thread_unblock hu.1 (fun k hk => ?_) hrun).1
        have hwait := (h.waiting k u hk).2
        rw [hu.2] at hwait
        cases hwait
      case isFalse => cases hrun
  | kernel a =>
      unfold Pintos.sched_step kernel_step at hrun
      dsimp only at hrun
      split at hrun
      case h_1 cur l hc => exact h.lock_acquire hc hrun
      case h_2 cur hc => exact h.lock_acquire_donate hc hrun
      case h_3 cur l hc => exact h.lock_release hc hrun
      case h_4 cur p hc =>
        obtain rfl := Outcome.ok.inj hrun
        exact (h.set_thread rfl rfl).compare_cur_next_priority hc
      case h_5 cur p hc => exact h.thread_create hc hrun
      case h_6 cur hc =>
        obtain rfl := Outcome.ok.inj hrun
        exact h.thread_yield hc
      case h_7 =>
        obtain rfl := Outcome.ok.inj hrun
        exact h.schedule
      case h_8 => cases hrun

end Placed

end kernel

end Pintos
