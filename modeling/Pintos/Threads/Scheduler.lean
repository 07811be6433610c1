/-
Who runs next: `next_thread_to_run` takes the front of the ready list.

The list is kept in order by ordered insertion alone. A donation raises the priority
of a thread where it stands; if that is in the ready list, behind threads with less,
the front is not the highest any more, and the thread that donated goes to sleep
right away, so nothing sorts the list before the next switch.

`traced` adds to the kernel what the statement speaks of: the order in which the ready
threads were inserted, and whether a priority has changed since.
-/
import Pintos.Lib.Queue
import Pintos.Threads.Donation

set_option autoImplicit false

namespace Pintos

/-! ## Steps -/

/-- What can happen next. -/
inductive sched_action
  | kernel (a : kernel_action)
  | thread_block
  | thread_unblock (t : ℕ)
  deriving DecidableEq, Repr

/-- `thread_block` by the running thread, up to the switch. -/
def thread_block (s : kernel) (cur : ℕ) : kernel :=
  { s.set_thread cur fun th => { th with status := .THREAD_BLOCKED } with current := none }

/-- One step. A thread that waits for a lock is linked into the lock's waiters; waking it
another way would link it twice. -/
def sched_step (s : kernel) : sched_action → Outcome kernel
  | .kernel a => kernel_step s a
  | .thread_block =>
      match s.current with
      | some cur => .ok (thread_block s cur)
      | none => .panic
  | .thread_unblock t =>
      if t < s.next_tid ∧ (s.threads t).in_sema_down = none then thread_unblock s t else .undefined

/-- The threads a step has inserted into the ready list, in order: the running thread
yields last. -/
def arrivals (s s' : kernel) : List ℕ :=
  (s'.ready_list.filter fun t => t ∉ s.ready_list ∧ s.current ≠ some t)
    ++ s'.ready_list.filter fun t => t ∉ s.ready_list ∧ s.current = some t

/-- The kernel, with the ready threads in the order of their insertion, and those whose
priority has changed since. -/
structure traced where
  s : kernel
  order : List ℕ
  changed : ℕ → Bool

/-- One step, traced. -/
def traced_step (x : traced) (a : sched_action) : Outcome traced := do
  let s ← sched_step x.s a
  return {
    s := s
    order := x.order.filter (fun t => t ∈ s.ready_list) ++ arrivals x.s s
    changed := fun t => decide (t ∉ arrivals x.s s)
      && (x.changed t || decide ((s.threads t).priority ≠ (x.s.threads t).priority)) }

/-- A run. -/
def traced_run : List sched_action → traced → Outcome traced
  | [], x => .ok x
  | a :: as, x => do
      let x ← traced_step x a
      traced_run as x

/-- The kernel when `main` starts. -/
def traced_boot : traced where
  s := kernel_boot
  order := []
  changed _ := false

/-- **The front of the ready list** has the highest priority, and of those with equal
priorities that have not changed it was inserted first. -/
def RunsHighest (x : traced) : Prop :=
  ∀ next rest, x.s.ready_list = next :: rest → ∀ u ∈ rest,
    (x.s.threads u).priority ≤ (x.s.threads next).priority
    ∧ ((x.s.threads u).priority = (x.s.threads next).priority → x.changed next = false →
      x.changed u = false → [next, u].Sublist x.order)

/-! ## Donation -/

/-- The thread that a donation raises, if it is ready, is behind no thread with less than
the donor. -/
def InOrder (s : kernel) (cur : ℕ) : Prop :=
  ∀ call, (s.threads cur).in_create_donation.head? = some call →
    s.ready_list.Pairwise fun a h => h = call.holder →
      (s.threads h).priority < (s.threads cur).priority
      → (s.threads cur).priority ≤ (s.threads a).priority

/-- The condition on a step: only the one that raises a thread has one. -/
def sched_action.Ok (s : Pintos.kernel) : sched_action → Prop
  | .kernel .create_donation => ∀ cur, s.current = some cur → InOrder s cur
  | _ => True

/-- The condition on a run. -/
def DonatesInOrder : List sched_action → traced → Prop
  | [], _ => True
  | a :: as, x => a.Ok x.s ∧ ∀ x', traced_step x a = .ok x' → DonatesInOrder as x'

instance (s : kernel) (cur : ℕ) : Decidable (InOrder s cur) :=
  Option.decidableForallMem (s.threads cur).in_create_donation.head?

instance (s : kernel) : (a : sched_action) → Decidable (a.Ok s)
  | .kernel (.lock_acquire _) => .isTrue trivial
  | .kernel .create_donation => Option.decidableForallMem s.current
  | .kernel (.lock_release _) => .isTrue trivial
  | .kernel (.thread_set_priority _) => .isTrue trivial
  | .kernel (.thread_create _) => .isTrue trivial
  | .kernel .timer_yield => .isTrue trivial
  | .kernel .schedule => .isTrue trivial
  | .thread_block => .isTrue trivial
  | .thread_unblock _ => .isTrue trivial

/-- The condition can be evaluated along the run. -/
instance DonatesInOrder.decide : (as : List sched_action) → (x : traced) →
    Decidable (DonatesInOrder as x)
  | [], _ => .isTrue trivial
  | a :: as, x =>
      have : Decidable (∀ x', traced_step x a = .ok x' → DonatesInOrder as x') :=
        match h : traced_step x a with
        | .ok x₁ =>
            match DonatesInOrder.decide as x₁ with
            | .isTrue hx => .isTrue fun x' hx' => by cases hx'; exact hx
            | .isFalse hx => .isFalse fun hall => hx (hall x₁ rfl)
        | .panic => .isTrue fun _ hx' => by cases hx'
        | .diverge => .isTrue fun _ hx' => by cases hx'
        | .undefined => .isTrue fun _ hx' => by cases hx'
      inferInstanceAs (Decidable (_ ∧ _))

/-! ## Statuses -/

/-- Where threads are, by their status. -/
structure kernel.Queued (s : kernel) : Prop where
  nodup : s.ready_list.Nodup
  ready : ∀ t ∈ s.ready_list, (s.threads t).status = .THREAD_READY ∧ t < s.next_tid
  running : ∀ c, s.current = some c → (s.threads c).status = .THREAD_RUNNING ∧ c < s.next_tid
  waiters : ∀ l, ∀ t ∈ (s.locks l).waiters, t < s.next_tid

namespace kernel

variable {s s' : kernel}

theorem kernel_boot_queued : kernel_boot.Queued := by
  refine ⟨List.nodup_nil, by simp [kernel_boot], fun c hc => ?_, by simp [kernel_boot]⟩
  obtain rfl : 0 = c := Option.some.inj hc
  exact ⟨rfl, by decide⟩

/-- What is queued does not change. -/
theorem Queued.congr (h : s.Queued) (hready : s'.ready_list = s.ready_list)
    (hstatus : ∀ t, (s'.threads t).status = (s.threads t).status)
    (hcur : ∀ c, s'.current = some c → s.current = some c) (hnext : s.next_tid ≤ s'.next_tid)
    (hwait : ∀ l, ∀ t ∈ (s'.locks l).waiters, t ∈ (s.locks l).waiters) : s'.Queued := by
  refine ⟨by rw [hready]; exact h.nodup, fun t ht => ?_, fun c hc => ?_, fun l t ht => ?_⟩
  · rw [hready] at ht
    obtain ⟨hst, hlt⟩ := h.ready t ht
    exact ⟨(hstatus t).trans hst, hlt.trans_le hnext⟩
  · obtain ⟨hst, hlt⟩ := h.running c (hcur c hc)
    exact ⟨(hstatus c).trans hst, hlt.trans_le hnext⟩
  · exact (h.waiters l t (hwait l t ht)).trans_le hnext

theorem Queued.current_not_ready (h : s.Queued) {cur : ℕ} (hc : s.current = some cur) :
    cur ∉ s.ready_list := by
  intro hmem
  have hready := (h.ready cur hmem).1
  rw [(h.running cur hc).1] at hready
  cases hready

/-- The ready list in order. -/
def Sorted (s : kernel) : Prop :=
  s.ready_list.Pairwise fun a b => (s.threads b).priority ≤ (s.threads a).priority

theorem Sorted.list_sort (h : s.Sorted) :
    list_sort (compare_priority s) s.ready_list = s.ready_list := by
  apply List.Pairwise.insertionSort_eq
  exact h.imp fun hab => not_lt.mpr hab

/-! ## Insertions -/

/-- The ready list after insertions, with the priorities of `s`. -/
def inserted (s : kernel) (l : List ℕ) : List ℕ :=
  l.foldl (fun r t => list_insert_ordered (compare_priority s) r t) s.ready_list

/-- The threads of `l` have been inserted. -/
structure Inserts (s : kernel) (l : List ℕ) (s' : kernel) : Prop where
  queued : s'.Queued
  priority : ∀ t, (s'.threads t).priority = (s.threads t).priority
  list : s'.ready_list = s.inserted l
  fresh : ∀ t ∈ l, t ∉ s.ready_list

theorem Inserts.refl (h : s.Queued) : Inserts s [] s := ⟨h, fun _ => rfl, rfl, by simp⟩

theorem compare_priority_congr (h : ∀ t, (s'.threads t).priority = (s.threads t).priority) :
    compare_priority s' = compare_priority s := by
  funext a b
  unfold compare_priority
  rw [h a, h b]

theorem nodup_insert (h : s.ready_list.Nodup) {t : ℕ} (ht : t ∉ s.ready_list) :
    (list_insert_ordered (compare_priority s) s.ready_list t).Nodup :=
  (List.perm_orderedInsert _ _ _).nodup_iff.mpr (List.nodup_cons.mpr ⟨ht, h⟩)

/-- **`thread_unblock`**. -/
theorem thread_unblock_inserts (h : s.Queued) {t : ℕ} (ht : t < s.next_tid)
    (hrun : thread_unblock s t = .ok s') :
    Inserts s [t] s' ∧ s'.current = s.current ∧ s'.next_tid = s.next_tid ∧ s'.locks = s.locks
      ∧ s.current ≠ some t := by
  obtain ⟨_, hst, hret⟩ := Outcome.bind_eq_ok.mp hrun
  rw [Outcome.assert_eq_ok] at hst
  obtain rfl := Outcome.ok.inj hret
  have hfresh : t ∉ s.ready_list := by
    intro hmem
    have hready := (h.ready t hmem).1
    rw [hst] at hready
    cases hready
  have hcur : s.current ≠ some t := by
    intro hc
    have hrunning := (h.running t hc).1
    rw [hst] at hrunning
    cases hrunning
  refine ⟨⟨⟨nodup_insert h.nodup hfresh, fun u hu => ?_, fun c hc => ?_, h.waiters⟩,
    fun u => ?_, rfl, by simpa using hfresh⟩, rfl, rfl, rfl, hcur⟩
  · rcases mem_list_insert_ordered.mp hu with rfl | hu
    · rw [set_thread_self]
      exact ⟨rfl, ht⟩
    · have hne : u ≠ t := fun heq => hfresh (heq ▸ hu)
      rw [set_thread_of_ne hne]
      exact h.ready u hu
  · have hne : c ≠ t := by
      rintro rfl
      exact hcur hc
    rw [set_thread_of_ne hne]
    exact h.running c hc
  · exact set_thread_field thread.priority rfl u

/-- **`thread_yield`**. -/
theorem thread_yield_inserts (h : s.Queued) {cur : ℕ} (hc : s.current = some cur) :
    Inserts s [cur] (thread_yield s cur) := by
  have hfresh := h.current_not_ready hc
  unfold thread_yield
  refine ⟨⟨nodup_insert h.nodup hfresh, fun u hu => ?_, fun c hcur => ?_, h.waiters⟩,
    fun u => ?_, rfl, by simpa using hfresh⟩
  · rcases mem_list_insert_ordered.mp hu with rfl | hu
    · rw [set_thread_self]
      exact ⟨rfl, (h.running u hc).2⟩
    · have hne : u ≠ cur := fun heq => hfresh (heq ▸ hu)
      rw [set_thread_of_ne hne]
      exact h.ready u hu
  · cases hcur
  · exact set_thread_field thread.priority rfl u

/-- **`compare_cur_next_priority`** yields or does nothing, when the list is in order. -/
theorem compare_cur_next_priority_cases (hs : s.Sorted) (cur : ℕ) :
    compare_cur_next_priority s cur = s ∨ compare_cur_next_priority s cur = thread_yield s cur := by
  unfold compare_cur_next_priority
  rw [hs.list_sort]
  cases hr : s.ready_list with
  | nil => exact .inl rfl
  | cons next rest =>
      have hsame : { s with ready_list := next :: rest } = s := by rw [← hr]
      simp only [hsame]
      split_ifs
      · exact .inr rfl
      · exact .inl rfl

theorem Inserts.trans {s₁ s₂ : kernel} {l l' : List ℕ} (h : Inserts s l s₁)
    (h' : Inserts s₁ l' s₂) : Inserts s (l ++ l') s₂ := by
  have hcmp := compare_priority_congr h.priority
  refine ⟨h'.queued, fun t => (h'.priority t).trans (h.priority t), ?_, fun t ht => ?_⟩
  · rw [h'.list]
    unfold inserted
    rw [List.foldl_append, h.list]
    simp only [hcmp]
    rfl
  · rcases List.mem_append.mp ht with ht | ht
    · exact h.fresh t ht
    · intro hmem
      apply h'.fresh t ht
      rw [h.list]
      exact (Queue.foldl_insert_perm l).mem_iff.mpr (List.mem_append_right _ hmem)

/-- What happens to the locks does not matter. -/
theorem Inserts.congr {s₁ s₂ : kernel} {l : List ℕ} (h : Inserts s l s₁) (hq : s₂.Queued)
    (hthreads : s₂.threads = s₁.threads) (hready : s₂.ready_list = s₁.ready_list) :
    Inserts s l s₂ := by
  refine ⟨hq, fun t => ?_, hready.trans h.list, h.fresh⟩
  rw [hthreads]
  exact h.priority t

theorem Inserts.sorted {l : List ℕ} (h : Inserts s l s') (hs : s.Sorted) : s'.Sorted := by
  have hins : (s.inserted l).Pairwise fun a b =>
      (s.threads b).priority ≤ (s.threads a).priority := by
    unfold inserted
    have hfair : Queue.Fair (fun t => (s.threads t).priority) (fun _ => False) s.ready_list
        s.ready_list :=
      ⟨hs, List.pairwise_iff_forall_sublist.mpr fun _ _ hf => hf.elim, fun _ ha => ha⟩
    exact (hfair.foldl_insert l).sorted
  unfold Sorted
  rw [h.list]
  refine hins.imp fun hab => ?_
  rw [h.priority, h.priority]
  exact hab

/-- **`compare_cur_next_priority`** with the list in order. A second call does nothing. -/
theorem compare_cur_next_priority_inserts (h : s.Queued) (hs : s.Sorted) {cur : ℕ}
    (hc : s.current = some cur) :
    ∃ c : Option ℕ, Inserts s c.toList (compare_cur_next_priority s cur)
      ∧ (∀ t, c = some t → s.current = some t)
      ∧ ((compare_cur_next_priority s cur).current = some cur →
        compare_cur_next_priority (compare_cur_next_priority s cur) cur
          = compare_cur_next_priority s cur) := by
  rcases compare_cur_next_priority_cases hs cur with heq | heq
  · rw [heq]
    refine ⟨none, Inserts.refl h, fun t ht => ?_, fun _ => heq⟩
    cases ht
  · rw [heq]
    refine ⟨some cur, thread_yield_inserts h hc, fun t ht => ?_, fun hcur => by cases hcur⟩
    rw [← ht]
    exact hc

/-! ## What a step does to the ready list -/

/-- Some threads leave, the `kept` ones are in order by their new priorities, and
the arrivals are inserted. -/
structure Moves (s s' : kernel) (kept : List ℕ) : Prop where
  queued : s'.Queued
  sublist : kept.Sublist s.ready_list
  sorted : kept.Pairwise fun a b => (s'.threads b).priority ≤ (s'.threads a).priority
  list : s'.ready_list
    = (arrivals s s').foldl (Queue.insert fun t => (s'.threads t).priority) kept

/-- Of the two threads that may arrive the running one is the second. -/
theorem arrivals_eq {n c : Option ℕ}
    (hperm : s'.ready_list.Perm (n.toList ++ c.toList ++ s.ready_list))
    (hfresh : ∀ t ∈ n.toList ++ c.toList, t ∉ s.ready_list)
    (hn : ∀ t, n = some t → s.current ≠ some t) (hc : ∀ t, c = some t → s.current = some t) :
    arrivals s s' = n.toList ++ c.toList := by
  have hone : ∀ {p : ℕ → Bool} {o : Option ℕ}, (s'.ready_list.filter p).Perm o.toList →
      s'.ready_list.filter p = o.toList := by
    intro p o hp
    cases o with
    | none => exact List.perm_nil.mp hp
    | some t => exact List.perm_singleton.mp hp
  have hold : ∀ {q : ℕ → Prop} [DecidablePred q],
      s.ready_list.filter (fun t => decide (t ∉ s.ready_list ∧ q t)) = [] := by
    intro q _
    refine List.filter_eq_nil_iff.mpr fun t ht => ?_
    simp [ht]
  unfold arrivals
  congr 1
  · apply hone
    refine (hperm.filter _).trans (.of_eq ?_)
    rw [List.filter_append, List.filter_append, hold, List.append_nil]
    have hleft : n.toList.filter (fun t => decide (t ∉ s.ready_list ∧ s.current ≠ some t))
        = n.toList := by
      refine List.filter_eq_self.mpr fun t ht => ?_
      have hnew := hfresh t (List.mem_append_left _ ht)
      have hcur := hn t (by simpa using ht)
      simp [hnew, hcur]
    have hright : c.toList.filter (fun t => decide (t ∉ s.ready_list ∧ s.current ≠ some t))
        = [] := by
      refine List.filter_eq_nil_iff.mpr fun t ht => ?_
      have hcur := hc t (by simpa using ht)
      simp [hcur]
    rw [hleft, hright, List.append_nil]
  · apply hone
    refine (hperm.filter _).trans (.of_eq ?_)
    rw [List.filter_append, List.filter_append, hold, List.append_nil]
    have hleft : n.toList.filter (fun t => decide (t ∉ s.ready_list ∧ s.current = some t))
        = [] := by
      refine List.filter_eq_nil_iff.mpr fun t ht => ?_
      have hcur := hn t (by simpa using ht)
      simp [hcur]
    have hright : c.toList.filter (fun t => decide (t ∉ s.ready_list ∧ s.current = some t))
        = c.toList := by
      refine List.filter_eq_self.mpr fun t ht => ?_
      have hnew := hfresh t (List.mem_append_right _ ht)
      have hcur := hc t (by simpa using ht)
      simp [hnew, hcur]
    rw [hleft, hright, List.nil_append]

/-- A step that lets ready threads be, up to the insertions at its end. -/
theorem Inserts.moves (hs : s.Sorted) {s₁ : kernel} {n c : Option ℕ}
    (h : Inserts s₁ (n.toList ++ c.toList) s') (hready : s₁.ready_list = s.ready_list)
    (hpri : ∀ t ∈ s.ready_list, (s₁.threads t).priority = (s.threads t).priority)
    (hn : ∀ t, n = some t → s.current ≠ some t) (hc : ∀ t, c = some t → s.current = some t) :
    Moves s s' s.ready_list := by
  have hlist : s'.ready_list = (n.toList ++ c.toList).foldl
      (Queue.insert fun t => (s₁.threads t).priority) s.ready_list := by
    rw [h.list, inserted, hready]
    rfl
  have harr : arrivals s s' = n.toList ++ c.toList := by
    apply arrivals_eq _ _ hn hc
    · rw [hlist]
      exact Queue.foldl_insert_perm _
    · rw [← hready]
      exact h.fresh
  have hkey : (fun t => (s'.threads t).priority) = fun t => (s₁.threads t).priority := by
    funext t
    exact h.priority t
  refine ⟨h.queued, List.Sublist.refl _, ?_, ?_⟩
  · refine hs.imp_of_mem fun {a b} ha hb hab => ?_
    rw [h.priority, h.priority, hpri a ha, hpri b hb]
    exact hab
  · rw [harr, hkey]
    exact hlist

theorem Sorted.congr (hs : s.Sorted) (hready : s'.ready_list = s.ready_list)
    (hpri : ∀ t ∈ s.ready_list, (s'.threads t).priority = (s.threads t).priority) : s'.Sorted := by
  unfold Sorted
  rw [hready]
  refine hs.imp_of_mem fun {a b} ha hb hab => ?_
  rw [hpri a ha, hpri b hb]
  exact hab

/-- The running thread is not in the list, so its priority does not matter there. -/
theorem set_current_priority (h : s.Queued) {cur : ℕ} (hc : s.current = some cur)
    (f : thread → thread) :
    ∀ t ∈ s.ready_list, ((s.set_thread cur f).threads t).priority = (s.threads t).priority := by
  intro t ht
  have hne : t ≠ cur := fun heq => h.current_not_ready hc (heq ▸ ht)
  rw [set_thread_of_ne hne]

/-- **`thread_set_priority`**. -/
theorem thread_set_priority_moves (h : s.Queued) (hs : s.Sorted) {cur : ℕ}
    (hc : s.current = some cur) (p : ℤ) :
    Moves s (thread_set_priority s cur p) s.ready_list := by
  rw [thread_set_priority_eq]
  have hstatus : ∀ t, ((s.set_thread cur (set_base p)).threads t).status = (s.threads t).status :=
    set_thread_field thread.status rfl
  have hpri := set_current_priority h hc (set_base p)
  have hq : (s.set_thread cur (set_base p)).Queued :=
    h.congr rfl hstatus (fun _ hc' => hc') le_rfl fun _ _ ht => ht
  obtain ⟨c, hins, hcur, -⟩ :=
    compare_cur_next_priority_inserts hq (hs.congr (Eq.refl s.ready_list) hpri) hc
  exact Inserts.moves (n := none) hs hins rfl hpri (fun t ht => by cases ht) hcur

/-- **`thread_create`**. -/
theorem thread_create_moves (h : s.Queued) (hs : s.Sorted) {cur : ℕ} (hc : s.current = some cur)
    {p : ℤ} (hrun : thread_create s cur p = .ok s') : Moves s s' s.ready_list := by
  obtain ⟨_, _, hrun⟩ := Outcome.bind_eq_ok.mp hrun
  obtain ⟨s₂, hunblock, hret⟩ := Outcome.bind_eq_ok.mp hrun
  have hold : ∀ t, t < s.next_tid →
      (s.set_thread s.next_tid fun _ => init_thread p).threads t = s.threads t :=
    fun t ht => set_thread_of_ne ht.ne
  have hcur : cur ≠ s.next_tid := (h.running cur hc).2.ne
  -- the new thread, before it is put into the ready list
  generalize hs₁ : ({ s.set_thread s.next_tid fun _ => init_thread p with
      next_tid := s.next_tid + 1 } : kernel) = s₁ at hunblock
  have hthreads : s₁.threads = (s.set_thread s.next_tid fun _ => init_thread p).threads := by
    rw [← hs₁]
  have hready : s₁.ready_list = s.ready_list := by rw [← hs₁]; rfl
  have hcurrent : s₁.current = s.current := by rw [← hs₁]; rfl
  have hq : s₁.Queued := by
    rw [← hs₁]
    refine ⟨h.nodup, fun t ht => ?_, fun c hc' => ?_, fun l t ht => ?_⟩
    · obtain ⟨hst, hlt⟩ := h.ready t ht
      exact ⟨(congrArg thread.status (hold t hlt)).trans hst, Nat.lt_succ_of_lt hlt⟩
    · obtain ⟨hst, hlt⟩ := h.running c hc'
      exact ⟨(congrArg thread.status (hold c hlt)).trans hst, Nat.lt_succ_of_lt hlt⟩
    · exact Nat.lt_succ_of_lt (h.waiters l t ht)
  have hpri : ∀ t ∈ s.ready_list, (s₁.threads t).priority = (s.threads t).priority := by
    intro t ht
    rw [hthreads, hold t (h.ready t ht).2]
  have hlt : s.next_tid < s₁.next_tid := by rw [← hs₁]; exact Nat.lt_succ_self _
  obtain ⟨hins, hcur₂, -, -, -⟩ := thread_unblock_inserts hq hlt hunblock
  have hn : ∀ t, some s.next_tid = some t → s.current ≠ some t := by
    intro t ht hct
    obtain rfl := Option.some.inj ht
    rw [hc] at hct
    exact hcur (Option.some.inj hct)
  have hins : Inserts s₁ (some s.next_tid).toList s₂ := hins
  obtain rfl := Outcome.ok.inj hret
  split
  · have hyield := thread_yield_inserts hins.queued ((hcur₂.trans hcurrent).trans hc)
    refine Inserts.moves (c := some cur) hs (hins.trans hyield) hready hpri hn fun t ht => ?_
    rw [← ht]
    exact hc
  · refine Inserts.moves (c := none) hs (hins.trans (Inserts.refl hins.queued)) hready hpri hn
      fun t ht => ?_
    cases ht

/-- **The timer**. -/
theorem thread_yield_moves (h : s.Queued) (hs : s.Sorted) {cur : ℕ} (hc : s.current = some cur) :
    Moves s (thread_yield s cur) s.ready_list := by
  refine Inserts.moves (n := none) (c := some cur) hs (thread_yield_inserts h hc) rfl
    (fun _ _ => rfl) (fun t ht => by cases ht) fun t ht => ?_
  rw [← ht]
  exact hc

/-- **`thread_unblock`**, by an interrupt or a semaphore. -/
theorem thread_unblock_moves (h : s.Queued) (hs : s.Sorted) {t : ℕ} (ht : t < s.next_tid)
    (hrun : thread_unblock s t = .ok s') : Moves s s' s.ready_list := by
  obtain ⟨hins, -, -, -, hcur⟩ := thread_unblock_inserts h ht hrun
  refine Inserts.moves (n := some t) (c := none) hs hins rfl (fun _ _ => rfl) (fun u hu => ?_)
    fun u hu => by cases hu
  obtain rfl := Option.some.inj hu
  exact hcur

/-- A step after which the ready threads are the same. -/
theorem Moves.of_ready_list (hq : s'.Queued) {kept : List ℕ} (hkept : kept.Sublist s.ready_list)
    (hsorted : kept.Pairwise fun a b => (s'.threads b).priority ≤ (s'.threads a).priority)
    (hready : s'.ready_list = kept) : Moves s s' kept := by
  have harr : arrivals s s' = [] := by
    unfold arrivals
    rw [hready, List.append_eq_nil_iff]
    constructor
    · refine List.filter_eq_nil_iff.mpr fun t ht => ?_
      simp [hkept.subset ht]
    · refine List.filter_eq_nil_iff.mpr fun t ht => ?_
      simp [hkept.subset ht]
  refine ⟨hq, hkept, hsorted, ?_⟩
  rw [harr]
  exact hready

theorem thread_block_threads (s : kernel) (cur : ℕ) : (thread_block s cur).threads
    = (s.set_thread cur fun th => { th with status := .THREAD_BLOCKED }).threads := rfl

/-- **`thread_block`**. -/
theorem thread_block_moves (h : s.Queued) (hs : s.Sorted) {cur : ℕ} (hc : s.current = some cur) :
    Moves s (thread_block s cur) s.ready_list := by
  have hpri : ∀ t, ((thread_block s cur).threads t).priority = (s.threads t).priority := by
    intro t
    rw [thread_block_threads]
    exact set_thread_field thread.priority rfl t
  have hq : (thread_block s cur).Queued := by
    refine ⟨h.nodup, fun t ht => ?_, fun c hc' => ?_, h.waiters⟩
    · have hne : t ≠ cur := fun heq => h.current_not_ready hc (heq ▸ ht)
      rw [thread_block_threads, set_thread_of_ne hne]
      exact h.ready t ht
    · cases hc'
  refine Moves.of_ready_list hq (List.Sublist.refl _) ?_ rfl
  refine hs.imp fun {a b} hab => ?_
  rw [hpri a, hpri b]
  exact hab

/-- Waking a waiter. -/
theorem sema_up_wake_inserts (h : s.Queued) {l : ℕ} (hrun : sema_up_wake s l = .ok s') :
    s'.current = s.current
      ∧ ∃ n : Option ℕ, Inserts s n.toList s' ∧ ∀ t, n = some t → s.current ≠ some t := by
  unfold sema_up_wake at hrun
  split at hrun
  case h_1 =>
    obtain rfl := Outcome.ok.inj hrun
    exact ⟨rfl, none, Inserts.refl h, fun t ht => by cases ht⟩
  case h_2 t rest hsort =>
    have hmem : ∀ u ∈ t :: rest, u ∈ (s.locks l).waiters := by
      intro u hu
      rw [← hsort] at hu
      exact mem_list_sort.mp hu
    have hq : (s.set_lock l fun k => { k with waiters := rest }).Queued := by
      refine h.congr rfl (fun _ => rfl) (fun _ hc => hc) le_rfl ?_
      exact forall_set_lock (P := fun l' k => ∀ u ∈ k.waiters, u ∈ (s.locks l').waiters)
        (fun _ _ hu => hu) fun u hu => hmem u (List.mem_cons_of_mem _ hu)
    have hlt := h.waiters l t (hmem t List.mem_cons_self)
    obtain ⟨hins, hcur, -, -, hne⟩ := thread_unblock_inserts hq hlt hrun
    refine ⟨hcur, some t, ⟨hins.queued, hins.priority, hins.list, hins.fresh⟩, fun u hu => ?_⟩
    obtain rfl := Option.some.inj hu
    exact hne

theorem recalc_thread_status (th : thread) : (recalc_thread th).status = th.status := by
  unfold recalc_thread
  split
  · rfl
  · rfl

/-- **`lock_release`**. -/
theorem lock_release_moves (h : s.Queued) (hs : s.Sorted) {cur l : ℕ} (hc : s.current = some cur)
    (hrun : lock_release s cur l = .ok s') : Moves s s' s.ready_list := by
  obtain ⟨_, _, hrun⟩ := Outcome.bind_eq_ok.mp hrun
  obtain ⟨s₄, hup, hret⟩ := Outcome.bind_eq_ok.mp hrun
  obtain ⟨s₂, hwake, hup⟩ := Outcome.bind_eq_ok.mp hup
  generalize hs₁ : (recalc_priority (remove_donation_for_lock s cur l) cur).set_lock l
    (fun k => { k with holder := none }) = s₁ at hwake
  have hready : s₁.ready_list = s.ready_list := by rw [← hs₁]; rfl
  have hcurrent : s₁.current = s.current := by rw [← hs₁]; rfl
  have hother : ∀ t, t ≠ cur → s₁.threads t = s.threads t := by
    intro t ht
    rw [← hs₁, set_lock_threads, recalc_priority, set_thread_of_ne ht, remove_donation_for_lock,
      set_thread_of_ne ht]
  have hpri : ∀ t ∈ s.ready_list, (s₁.threads t).priority = (s.threads t).priority := by
    intro t ht
    have hne : t ≠ cur := fun heq => h.current_not_ready hc (heq ▸ ht)
    rw [hother t hne]
  have hstatus : ∀ t, (s₁.threads t).status = (s.threads t).status := by
    intro t
    by_cases ht : t = cur
    · rw [ht, ← hs₁, set_lock_threads, recalc_priority, set_thread_self, recalc_thread_status,
        remove_donation_for_lock, set_thread_self]
    · rw [hother t ht]
  have hq : s₁.Queued := by
    refine h.congr hready hstatus (fun c hc' => hcurrent ▸ hc') ?_ fun k t ht => ?_
    · rw [← hs₁]
      exact le_rfl
    · rw [← hs₁] at ht
      exact forall_set_lock (s := recalc_priority (remove_donation_for_lock s cur l) cur) (l := l)
        (g := fun x => { x with holder := none })
        (P := fun k' x => ∀ u ∈ x.waiters, u ∈ (s.locks k').waiters)
        (fun _ _ hu => hu) (fun _ hu => hu) k t ht
  obtain ⟨hcur₂, n, hins, hn⟩ := sema_up_wake_inserts hq hwake
  -- the value of the semaphore
  generalize hs₃ : s₂.set_lock l (fun k => { k with value := k.value + 1 }) = s₃ at hup
  have hins₃ : Inserts s₁ n.toList s₃ := by
    rw [← hs₃]
    refine hins.congr ?_ rfl rfl
    refine hins.queued.congr rfl (fun _ => rfl) (fun _ hc' => hc') le_rfl ?_
    exact forall_set_lock (P := fun k' x => ∀ u ∈ x.waiters, u ∈ (s₂.locks k').waiters)
      (fun _ _ hu => hu) fun _ hu => hu
  have hcur₃ : s₃.current = s.current := by
    rw [← hs₃]
    exact hcur₂.trans hcurrent
  obtain rfl := Outcome.ok.inj hup
  obtain ⟨c, hlast, hyield, hagain⟩ := compare_cur_next_priority_inserts hins₃.queued
    (hins₃.sorted (hs.congr hready hpri)) (hcur₃.trans hc)
  have hs' : s' = compare_cur_next_priority s₃ cur := by
    obtain rfl := Outcome.ok.inj hret
    split
    · rename_i hstill
      exact hagain hstill
    · rfl
  rw [hs']
  refine Inserts.moves hs (hins₃.trans hlast) hready hpri (fun t ht => ?_) fun t ht => ?_
  · rw [← hcurrent]
    exact hn t ht
  · rw [← hcur₃]
    exact hyield t ht

/-- The end of `lock_acquire`. -/
theorem sema_down_queued (h : s.Queued) {cur : ℕ} (hc : s.current = some cur) (l : ℕ) :
    (sema_down s cur l).Queued ∧ (sema_down s cur l).ready_list = s.ready_list
      ∧ ∀ t, ((sema_down s cur l).threads t).priority = (s.threads t).priority := by
  obtain ⟨hst, hlt⟩ := h.running cur hc
  have hne : ∀ t ∈ s.ready_list, t ≠ cur := fun t ht heq => h.current_not_ready hc (heq ▸ ht)
  by_cases hv : (s.locks l).value = 0
  · obtain ⟨hother, hself, hlocks, hready, hcur, hnext⟩ := sema_down_block_fields cur hv
    refine ⟨⟨by rw [hready]; exact h.nodup, fun t ht => ?_, fun c hc' => ?_, fun k t ht => ?_⟩,
      hready, fun t => ?_⟩
    · rw [hready] at ht
      rw [hother t (hne t ht), hnext]
      exact h.ready t ht
    · rw [hcur] at hc'
      cases hc'
    · rw [hnext]
      rcases (hlocks k).2.2 t ht with rfl | ht
      · exact hlt
      · exact h.waiters k t ht
    · by_cases ht : t = cur
      · rw [ht, hself]
      · rw [hother t ht]
  · obtain ⟨hother, hself, hlocks, hlock, hready, hcur, hnext⟩ := sema_down_take_fields cur hv
    have hfield : ∀ t, ((sema_down s cur l).threads t).priority = (s.threads t).priority
        ∧ ((sema_down s cur l).threads t).status = (s.threads t).status := by
      intro t
      by_cases ht : t = cur
      · rw [ht, hself]
        exact ⟨rfl, rfl⟩
      · rw [hother t ht]
        exact ⟨rfl, rfl⟩
    refine ⟨h.congr hready (fun t => (hfield t).2) (fun c hc' => hcur ▸ hc') hnext.ge
      fun k t ht => ?_, hready, fun t => (hfield t).1⟩
    by_cases hk : k = l
    · rw [hk, hlock] at ht
      rw [hk]
      exact ht
    · rw [hlocks k hk] at ht
      exact ht

/-- **`schedule`** takes the front. -/
theorem schedule_moves (h : s.Queued) (hs : s.Sorted) :
    Moves s (schedule s) s.ready_list.tail := by
  unfold schedule
  cases hr : s.ready_list with
  | nil => exact Moves.of_ready_list h (by rw [hr]; exact List.nil_sublist _) .nil hr
  | cons next rest =>
      dsimp only
      have hnodup := h.nodup
      have hready := h.ready
      rw [hr] at hnodup hready
      obtain ⟨hnext, hrest⟩ := List.nodup_cons.mp hnodup
      have hsub : rest.Sublist s.ready_list := by
        rw [hr]
        exact List.sublist_cons_self _ _
      have hpri : ∀ t, ((switch_to s next rest).threads t).priority = (s.threads t).priority := by
        intro t
        unfold switch_to
        exact set_thread_field thread.priority rfl t
      have hsorted := hs.sublist hsub
      have hq : (switch_to s next rest).Queued := by
        refine ⟨hrest, fun t ht => ?_, fun c hc => ?_, h.waiters⟩
        · have hne : t ≠ next := fun heq => hnext (heq ▸ ht)
          rw [switch_to, set_thread_of_ne hne]
          exact hready t (List.mem_cons_of_mem _ ht)
        · obtain rfl := Option.some.inj hc
          rw [switch_to, set_thread_self]
          exact ⟨rfl, (hready _ List.mem_cons_self).2⟩
      split
      · refine Moves.of_ready_list hq hsub ?_ rfl
        refine hsorted.imp fun {a b} hab => ?_
        rw [hpri a, hpri b]
        exact hab
      · rename_i l _
        obtain ⟨hq', hready', hpri'⟩ := sema_down_queued hq rfl l
        refine Moves.of_ready_list hq' hsub ?_ hready'
        refine hsorted.imp fun {a b} hab => ?_
        rw [hpri' a, hpri' b, hpri a, hpri b]
        exact hab

/-! ## `lock_acquire` -/

theorem donate_to_status (s : kernel) (cur pending holder t : ℕ) :
    ((donate_to s cur pending holder).threads t).status = (s.threads t).status := by
  have hfirst : ((if (s.threads holder).priority < (s.threads cur).priority then
        s.set_thread holder fun th => { th with priority := (s.threads cur).priority }
      else s).threads t).status = (s.threads t).status := by
    split
    · exact set_thread_field thread.status rfl t
    · rfl
  unfold donate_to
  dsimp only
  split
  · rw [← hfirst]
    exact set_thread_field thread.status rfl t
  · rw [← hfirst, set_lock_threads]
    exact set_thread_field thread.status rfl t

theorem donate_to_priority (s : kernel) (cur pending holder t : ℕ) :
    ((donate_to s cur pending holder).threads t).priority = if t = holder
      then max (s.threads t).priority (s.threads cur).priority else (s.threads t).priority := by
  have hview := congrFun (congrArg donation_view.priority (donate_to_walk s cur pending holder).2) t
  refine hview.trans ?_
  split
  · rename_i ht
    rw [ht]
    exact donation_view.raise_priority_self _ _
  · rename_i ht
    exact donation_view.raise_priority_of_ne _ ht

/-- The test of the loop, with what comes behind it. -/
theorem lock_acquire_loop_queued (h : s.Queued) {cur : ℕ} (hc : s.current = some cur) (l : ℕ)
    (m : Option ℕ) : (lock_acquire_loop s cur l m).Queued
      ∧ (lock_acquire_loop s cur l m).ready_list = s.ready_list
      ∧ ∀ t, ((lock_acquire_loop s cur l m).threads t).priority = (s.threads t).priority := by
  unfold lock_acquire_loop
  split
  case h_1 => exact sema_down_queued h hc l
  case h_2 k =>
    split
    case h_1 => exact sema_down_queued h hc l
    case h_2 holder _ =>
      split
      case isTrue => exact sema_down_queued h hc l
      case isFalse =>
        refine ⟨h.congr rfl ?_ (fun _ hc' => hc') le_rfl fun _ _ ht => ht, rfl, ?_⟩
        · exact set_thread_field thread.status rfl
        · exact set_thread_field thread.priority rfl

/-- **`lock_acquire`**, up to the first donation. -/
theorem lock_acquire_moves (h : s.Queued) (hs : s.Sorted) {cur l : ℕ} (hc : s.current = some cur)
    (hrun : lock_acquire s cur l = .ok s') : Moves s s' s.ready_list := by
  obtain ⟨_, _, hrun⟩ := Outcome.bind_eq_ok.mp hrun
  have hloop : ∀ {s₁ : kernel} (m : Option ℕ), s₁.Queued → s₁.current = some cur →
      s₁.ready_list = s.ready_list → (∀ t, (s₁.threads t).priority = (s.threads t).priority) →
      Moves s (lock_acquire_loop s₁ cur l m) s.ready_list := by
    intro s₁ m hq hcur hready hpri
    obtain ⟨hq', hready', hpri'⟩ := lock_acquire_loop_queued hq hcur l m
    refine Moves.of_ready_list hq' (List.Sublist.refl _) ?_ (hready'.trans hready)
    refine hs.imp fun {a b} hab => ?_
    rw [hpri' a, hpri' b, hpri a, hpri b]
    exact hab
  split at hrun
  · obtain rfl := Outcome.ok.inj hrun
    exact hloop none h hc rfl fun _ => rfl
  · obtain rfl := Outcome.ok.inj hrun
    refine hloop (some l) (h.congr rfl ?_ (fun _ hc' => hc') le_rfl fun _ _ ht => ht) hc rfl ?_
    · exact set_thread_field thread.status rfl
    · exact set_thread_field thread.priority rfl

/-- **A donation**: the thread that is raised is in order behind it. -/
theorem lock_acquire_donate_moves (h : s.Queued) (hs : s.Sorted) {cur : ℕ}
    (hc : s.current = some cur)
    (hok : InOrder s cur) (hrun : lock_acquire_donate s cur = .ok s') :
    Moves s s' s.ready_list := by
  unfold lock_acquire_donate at hrun
  split at hrun
  case h_1 => cases hrun
  case h_2 call calls hcalls =>
    have horder := hok call (by rw [hcalls]; rfl)
    obtain rfl := Outcome.ok.inj hrun
    generalize hs₁ : (s.set_thread cur fun th =>
      { th with pending_lock := call.pending_lock, in_create_donation := calls }) = s₁
    have hpri₁ : ∀ t, (s₁.threads t).priority = (s.threads t).priority :=
      hs₁ ▸ set_thread_field thread.priority rfl
    have hst₁ : ∀ t, (s₁.threads t).status = (s.threads t).status :=
      hs₁ ▸ set_thread_field thread.status rfl
    have hq₁ : s₁.Queued := by
      refine h.congr ?_ hst₁ (fun c hc' => ?_) ?_ fun l t ht => ?_
      · rw [← hs₁]; rfl
      · rw [← hs₁] at hc'; exact hc'
      · rw [← hs₁]; exact le_rfl
      · rw [← hs₁] at ht; exact ht
    obtain ⟨hframe, -⟩ := donate_to_walk s₁ cur call.pending call.holder
    have hpri₂ : ∀ t, ((donate_to s₁ cur call.pending call.holder).threads t).priority
      = if t = call.holder
        then max (s.threads t).priority (s.threads cur).priority else (s.threads t).priority := by
      intro t
      rw [donate_to_priority, hpri₁, hpri₁]
    have hcur₁ : s₁.current = some cur := hs₁ ▸ hc
    have hready₁ : s₁.ready_list = s.ready_list := hs₁ ▸ rfl
    have hq₂ : (donate_to s₁ cur call.pending call.holder).Queued := by
      refine hq₁.congr hframe.ready_list (donate_to_status _ _ _ _) (fun c hc' => ?_)
        hframe.next_tid.ge hframe.waiters
      rw [← hframe.current]
      exact hc'
    obtain ⟨hq', hready', hpri'⟩ := lock_acquire_loop_queued hq₂
      (hframe.current.trans hcur₁) call.lock
      ((donate_to s₁ cur call.pending call.holder).threads call.holder).pending_lock
    refine Moves.of_ready_list hq' (List.Sublist.refl _) ?_
      (hready'.trans (hframe.ready_list.trans hready₁))
    have hmono : ∀ t, (s.threads t).priority ≤ if t = call.holder
        then max (s.threads t).priority (s.threads cur).priority else (s.threads t).priority := by
      intro t
      split
      · exact le_max_left _ _
      · exact le_rfl
    refine (hs.and horder).imp fun {a b} hab => ?_
    obtain ⟨hle, hraised⟩ := hab
    rw [hpri' a, hpri' b, hpri₂ a, hpri₂ b]
    by_cases hb : b = call.holder ∧ (s.threads b).priority < (s.threads cur).priority
    · -- `b` is raised: whoever stands in front of it has as much
      rw [if_pos hb.1, max_eq_right hb.2.le]
      exact (hraised hb.1 hb.2).trans (hmono a)
    · have hsame : (if b = call.holder then max (s.threads b).priority (s.threads cur).priority
          else (s.threads b).priority) = (s.threads b).priority := by
        split
        · rename_i heq
          exact max_eq_left (not_lt.mp fun hlt => hb ⟨heq, hlt⟩)
        · rfl
      rw [hsame]
      exact hle.trans (hmono a)

/-- **One step**, of any kind. -/
theorem sched_step_moves (h : s.Queued) (hs : s.Sorted) {a : sched_action} (hok : a.Ok s)
    (hrun : sched_step s a = .ok s') : ∃ kept, Moves s s' kept := by
  cases a with
  | thread_block =>
      unfold sched_step at hrun
      cases hc : s.current with
      | none =>
          rw [hc] at hrun
          cases hrun
      | some cur =>
          rw [hc] at hrun
          obtain rfl := Outcome.ok.inj hrun
          exact ⟨_, thread_block_moves h hs hc⟩
  | thread_unblock t =>
      unfold sched_step at hrun
      dsimp only at hrun
      split at hrun
      case isTrue ht => exact ⟨_, thread_unblock_moves h hs ht.1 hrun⟩
      case isFalse => cases hrun
  | kernel a =>
      unfold sched_step kernel_step at hrun
      dsimp only at hrun
      split at hrun
      case h_1 cur l hc => exact ⟨_, lock_acquire_moves h hs hc hrun⟩
      case h_2 cur hc => exact ⟨_, lock_acquire_donate_moves h hs hc (hok cur hc) hrun⟩
      case h_3 cur l hc => exact ⟨_, lock_release_moves h hs hc hrun⟩
      case h_4 cur p hc =>
        obtain rfl := Outcome.ok.inj hrun
        exact ⟨_, thread_set_priority_moves h hs hc p⟩
      case h_5 cur p hc => exact ⟨_, thread_create_moves h hs hc hrun⟩
      case h_6 cur hc =>
        obtain rfl := Outcome.ok.inj hrun
        exact ⟨_, thread_yield_moves h hs hc⟩
      case h_7 =>
        obtain rfl := Outcome.ok.inj hrun
        exact ⟨_, schedule_moves h hs⟩
      case h_8 => cases hrun

end kernel

/-! ## Runs -/

namespace traced

/-- The invariant: the ready list is a fair queue. -/
structure Inv (x : traced) : Prop where
  queued : x.s.Queued
  fair : Queue.Fair (fun t => (x.s.threads t).priority) (fun t => x.changed t = false) x.order
    x.s.ready_list

theorem boot_inv : traced_boot.Inv := ⟨kernel.kernel_boot_queued, Queue.fair_nil⟩

variable {x x' : traced}

/-- **One step** keeps the queue fair. -/
theorem Inv.step (h : x.Inv) {a : sched_action} (hok : a.Ok x.s) (hrun : traced_step x a = .ok x') :
    x'.Inv := by
  obtain ⟨s', hstep, hret⟩ := Outcome.bind_eq_ok.mp hrun
  obtain ⟨kept, hmove⟩ := kernel.sched_step_moves h.queued h.fair.sorted hok hstep
  obtain rfl := Outcome.ok.inj hret
  refine ⟨hmove.queued, ?_⟩
  have hstay : ∀ t ∈ kept, t ∈ s'.ready_list := by
    intro t ht
    rw [hmove.list]
    exact (Queue.foldl_insert_perm _).mem_iff.mpr (List.mem_append_right _ ht)
  -- an arrival was not in the list before
  have hold : ∀ t ∈ kept, t ∉ arrivals x.s s' := by
    intro t ht harr
    have hin := hmove.sublist.subset ht
    unfold arrivals at harr
    simp [hin] at harr
  -- first some leave, then priorities change, then the arrivals come
  have hleft := h.fair.sublist hmove.sublist (p := fun t => decide (t ∈ s'.ready_list))
    fun t ht => decide_eq_true (hstay t ht)
  have hrekeyed : Queue.Fair (fun t => (s'.threads t).priority)
      (fun t => (decide (t ∉ arrivals x.s s')
        && (x.changed t || decide ((s'.threads t).priority ≠ (x.s.threads t).priority))) = false)
      _ kept :=
    hleft.rekey hmove.sorted fun t ht hfixed => by simpa [hold t ht] using hfixed
  have harrived := hrekeyed.foldl_insert (arrivals x.s s')
  rw [← hmove.list] at harrived
  exact harrived

/-- **Runs.** -/
theorem Inv.run {as : List sched_action} (h : x.Inv) (hok : DonatesInOrder as x)
    {pre post : List sched_action}
    (has : as = pre ++ post) (hrun : traced_run pre x = .ok x') : x'.Inv := by
  induction pre generalizing as x with
  | nil =>
      obtain rfl := Outcome.ok.inj hrun
      exact h
  | cons a pre ih =>
      subst has
      obtain ⟨x₁, hstep, hrest⟩ := Outcome.bind_eq_ok.mp hrun
      exact ih (h.step hok.1 hstep) (hok.2 x₁ hstep) rfl hrest

/-- The front of a fair queue. -/
theorem Inv.runsHighest (h : x.Inv) : RunsHighest x := by
  intro next rest hready u hu
  have hsorted := h.fair.sorted
  have hfifo := h.fair.fifo
  rw [hready] at hsorted hfifo
  refine ⟨(List.pairwise_cons.mp hsorted).1 u hu, fun heq hnext hu' => ?_⟩
  exact (List.pairwise_cons.mp hfifo).1 u hu heq.symm hnext hu'

end traced

/-- **The highest priority runs.** In every state of a run from the start of the kernel whose
donations raise ready threads in order only, the front of the ready list has the highest
priority, and among equals came first. -/
theorem runs_highest_along (as pre post : List sched_action) (has : as = pre ++ post)
    (hok : DonatesInOrder as traced_boot) {x : traced} (hrun : traced_run pre traced_boot = .ok x) :
    RunsHighest x :=
  (traced.boot_inv.run hok has hrun).runsHighest

/-- `main` takes lock 0, and starts a thread of priority `p` and one of priority 40, which
preempts it and wants the lock. The `malloc` of its donation takes lock 4. -/
def holder_waits_run (p : ℤ) : List sched_action :=
  List.map sched_action.kernel ([.lock_acquire 0] ++ create_run p ++ create_run 40
    ++ [.schedule, .lock_acquire 0, .lock_acquire 4, .lock_release 4, .create_donation])

/-- With a thread of priority 20, `main` is in front of it, and stays there. -/
theorem holder_in_front : ∃ x, traced_run (holder_waits_run 20) traced_boot = .ok x
    ∧ x.s.ready_list = [0, 1] ∧ (x.s.threads 0).priority = 40 ∧ RunsHighest x := by
  refine ⟨_, rfl, by decide, by decide, ?_⟩
  have hok : DonatesInOrder (holder_waits_run 20) traced_boot := by decide +kernel
  exact runs_highest_along (holder_waits_run 20) (holder_waits_run 20) [] rfl hok rfl

/-- With a thread of the default priority, `main` is behind it, and stays there with 40:
the scheduler's next choice has 31. -/
theorem holder_behind : ∃ x, traced_run (holder_waits_run PRI_DEFAULT) traced_boot = .ok x
    ∧ x.s.current = none ∧ x.s.ready_list = [1, 0] ∧ (x.s.threads 1).priority = 31
    ∧ (x.s.threads 0).priority = 40 ∧ ¬ RunsHighest x := by
  refine ⟨_, rfl, by decide, by decide, by decide, by decide, ?_⟩
  intro hruns
  have hle := (hruns 1 [0] (by decide) 0 (by decide)).1
  exact absurd hle (by decide)

end Pintos
