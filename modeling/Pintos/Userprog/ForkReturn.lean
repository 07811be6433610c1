/-
`userprog/process.c`: what `process_fork` returns.

The parent sleeps on its own `fork_sema` until the child has copied everything, or has failed
to. Then it looks at `child->exit_status`: `TID_ERROR` stands there if `__do_fork` has failed
and has already called `sys_exit (TID_ERROR)`, but also if the child has copied everything, has
run, and has exited with `-1` in the meantime.

The machine is that of `Wait.lean` with the steps of `process_fork` and `__do_fork` on top:
user code of any process, and its exit and wait, go on in between.
-/
import Mathlib.Data.List.Induction
import Pintos.Userprog.Wait

set_option autoImplicit false

namespace Pintos.fork_return

open synch (semaphore)
open wait_exit (get_my_child)

/-! ## State -/

/-- `TID_ERROR`. -/
def TID_ERROR : ℤ := -1

/-- The step of `__do_fork` that failed. -/
inductive failure
  | pml4_create
  | supplemental_page_table_copy
  | fd_idx
  deriving DecidableEq, Repr

/-- What a thread is to `__do_fork`. -/
inductive copy
  /-- Not made by `process_fork`, or not there. -/
  | other
  /-- In `__do_fork`, in front of `sema_up (&parent->fork_sema)`. -/
  | copying (parent : ℕ)
  /-- Past it, on its way to user code, or in it. -/
  | copied
  /-- Past it, on its way to `sys_exit (TID_ERROR)`, or through. -/
  | failed
  deriving DecidableEq, Repr

/-- Where a thread is in `process_fork`. -/
inductive call
  | idle
  /-- In front of the test of `sema_down (&parent->fork_sema)`. -/
  | waiting (child : ℕ)
  | asleep (child : ℕ)
  /-- In front of `get_my_child`. -/
  | reading (child : ℕ)
  deriving DecidableEq, Repr

/-- A call that has returned. -/
structure forked where
  parent : ℕ
  child : ℕ
  result : ℤ
  deriving DecidableEq, Repr

/-- The threads. -/
structure state where
  base : wait_exit.state
  fork_sema : ℕ → semaphore
  call : ℕ → call
  copy : ℕ → copy
  /-- The calls that have returned, the last in front. -/
  forked : List forked

/-! ## Steps -/

/-- What can happen next. -/
inductive event
  /-- The call of `process_fork`, with `thread_create`. -/
  | fork (p : ℕ)
  /-- `__do_fork` up to `sema_up (&parent->fork_sema)`, on either path. -/
  | up_fork (c : ℕ) (error : Option failure)
  | down_fork (p : ℕ)
  /-- The rest of `process_fork`: it reads `child->exit_status`. -/
  | read (p c : ℕ)
  /-- Everything else. -/
  | base (e : wait_exit.event)
  deriving DecidableEq, Repr

/-- Thread `t` is in user code, or in another call. After `__do_fork` has failed there is only
`sys_exit (TID_ERROR)`. -/
def state.Free (s : state) (e : wait_exit.event) (t : ℕ) : Prop :=
  s.call t = .idle ∧ (∀ p, s.copy t ≠ .copying p)
    ∧ (s.copy t = .failed → (s.base.threads t).pc = .running → e = .exit t (some TID_ERROR))

instance (c : copy) : Decidable (∀ p, c ≠ .copying p) :=
  match c with
  | .other => .isTrue fun _ => nofun
  | .copying p => .isFalse fun h => h p rfl
  | .copied => .isTrue fun _ => nofun
  | .failed => .isTrue fun _ => nofun

instance (s : state) (e : wait_exit.event) (t : ℕ) : Decidable (s.Free e t) :=
  inferInstanceAs (Decidable (_ ∧ _ ∧ _))

/-- `sema_up (&parent->fork_sema)`. -/
def sema_up (s : state) (p : ℕ) : state :=
  match list_sort s.base.less (s.fork_sema p).waiters with
  | [] =>
      let sema := { s.fork_sema p with value := ((s.fork_sema p).value + 1) % 2 ^ 32 }
      { s with fork_sema := Function.update s.fork_sema p sema }
  | w :: rest =>
      let sema := { value := ((s.fork_sema p).value + 1) % 2 ^ 32, waiters := rest }
      let woken := match s.call w with
        | .asleep c => .waiting c
        | pc => pc
      { s with
        fork_sema := Function.update s.fork_sema p sema
        call := Function.update s.call w woken }

/-- One step; `none` if the thread is not at that point. -/
def step (s : state) : event → Option state
  | .fork p =>
      if s.call p = .idle ∧ (∀ q, s.copy p ≠ .copying q) ∧ s.copy p ≠ .failed then
        (wait_exit.step s.base (.create p)).map fun base =>
          { s with
            base := base
            call := Function.update s.call p (.waiting s.base.next_tid)
            copy := Function.update s.copy s.base.next_tid (.copying p) }
      else none
  | .up_fork c error =>
      match s.copy c with
      | .copying p =>
          let done := if error.isNone then copy.copied else copy.failed
          some { sema_up s p with copy := Function.update s.copy c done }
      | _ => none
  | .down_fork p =>
      match s.call p with
      | .waiting c =>
          let sema := s.fork_sema p
          if sema.value = 0 then
            some { s with
              fork_sema := Function.update s.fork_sema p
                { sema with waiters := list_insert_ordered s.base.less sema.waiters p }
              call := Function.update s.call p (.asleep c) }
          else
            some { s with
              fork_sema := Function.update s.fork_sema p { sema with value := sema.value - 1 }
              call := Function.update s.call p (.reading c) }
      | _ => none
  | .read p c =>
      if s.call p = .reading c then
        -- A child that is not found is a null pointer.
        (get_my_child s.base p c).map fun child =>
          let tid := if (s.base.threads child).exit_status = TID_ERROR then TID_ERROR else (c : ℤ)
          { s with
            call := Function.update s.call p .idle
            forked := ⟨p, c, tid⟩ :: s.forked }
      else none
  | .base e =>
      if ∀ t ∈ e.actor, s.Free e t then (wait_exit.step s.base e).map fun base =>
        { s with base := base }
      else none

/-- A schedule. -/
def run : List event → state → Option state
  | [], s => some s
  | e :: es, s => (step s e).bind (run es)

/-- The first thread. -/
def boot (priority : ℕ → ℤ) : state where
  base := wait_exit.boot priority
  fork_sema _ := ⟨0, []⟩
  call _ := .idle
  copy _ := .other
  forked := []

/-! ## The semaphore -/

/-- The child the call is about. -/
def call.target : call → Option ℕ
  | .idle => none
  | .waiting c | .asleep c | .reading c => some c

/-- What `fork_sema` is, by the place of the parent. -/
def state.SemaOk (s : state) (p : ℕ) : Prop :=
  match s.call p with
  | .idle => s.fork_sema p = ⟨0, []⟩
  | .waiting c => s.fork_sema p = ⟨if s.copy c = .copying p then 0 else 1, []⟩
  | .asleep c => s.fork_sema p = ⟨0, [p]⟩ ∧ s.copy c = .copying p
  | .reading _ => s.fork_sema p = ⟨0, []⟩

/-- **The invariant.** -/
structure Inv (s : state) : Prop where
  base : wait_exit.Inv s.base
  sema : ∀ p, s.SemaOk p
  running : ∀ p c, (s.call p).target = some c → (s.base.threads p).pc = .running
  listed : ∀ p c, (s.call p).target = some c → c ∈ (s.base.threads p).children_list
  /-- A child that is copying has its parent waiting for it. -/
  copying : ∀ p c, s.copy c = .copying p → s.call p = .waiting c ∨ s.call p = .asleep c
  fresh : ∀ c, s.base.next_tid ≤ c → s.copy c = .other
  made : ∀ p c, (s.call p).target = some c → s.copy c ≠ .other
  /-- A call that has returned is over. -/
  ended : ∀ r ∈ s.forked, r.child < s.base.next_tid ∧ ∀ p, (s.call p).target ≠ some r.child
  through : ∀ r ∈ s.forked, s.copy r.child = .copied ∨ s.copy r.child = .failed

namespace Inv

variable {s s' : state} {p c : ℕ}

theorem parent (h : Inv s) (hc : (s.call p).target = some c) : (s.base.threads c).parent = some p :=
  h.base.tree.linked p c (h.listed p c hc)

theorem target_inj (h : Inv s) {q : ℕ} (hp : (s.call p).target = some c)
    (hq : (s.call q).target = some c) : p = q :=
  Option.some.inj ((h.parent hp).symm.trans (h.parent hq))

theorem lt (h : Inv s) (hc : (s.call p).target = some c) : c < s.base.next_tid :=
  (h.base.tree.born c p (h.parent hc)).2

/-- The parent of a child that is copying. -/
theorem target_copying (h : Inv s) (hc : s.copy c = .copying p) : (s.call p).target = some c := by
  rcases h.copying p c hc with hp | hp
  · rw [hp]
    rfl
  · rw [hp]
    rfl

/-- The parent reads only after the child is through. -/
theorem not_copying (h : Inv s) (hp : s.call p = .reading c) : ∀ q, s.copy c ≠ .copying q := by
  intro q hq
  have htarget : (s.call p).target = some c := by rw [hp]; rfl
  obtain rfl := h.target_inj htarget (h.target_copying hq)
  rcases h.copying p c hq with hc | hc
  · rw [hp] at hc
    cases hc
  · rw [hp] at hc
    cases hc

theorem sema_congr (h : s.SemaOk p) (hcall : s'.call p = s.call p)
    (hsema : s'.fork_sema p = s.fork_sema p)
    (hcopy : ∀ c, (s.call p).target = some c → s'.copy c = s.copy c) : s'.SemaOk p := by
  unfold state.SemaOk at h ⊢
  rw [hcall, hsema]
  cases hp : s.call p with
  | idle => simpa only [hp] using h
  | reading c => simpa only [hp] using h
  | waiting c =>
      simp only [hp] at h ⊢
      rw [hcopy c (by rw [hp]; rfl)]
      exact h
  | asleep c =>
      simp only [hp] at h ⊢
      rw [hcopy c (by rw [hp]; rfl)]
      exact h

theorem fork (h : Inv s) (hs : step s (.fork p) = some s') : Inv s' := by
  simp only [step] at hs
  split_ifs at hs with hfree
  obtain ⟨b, hb, rfl⟩ := Option.map_eq_some_iff.mp hs
  have hbase := h.base.step hb
  simp only [wait_exit.step] at hb
  split_ifs at hb with hp
  obtain rfl := Option.some.inj hb
  have htree := h.base.tree
  -- The calls of the others are about older children.
  have hcall : ∀ q c, (Function.update s.call p (.waiting s.base.next_tid) q).target = some c →
      q = p ∧ c = s.base.next_tid ∨ q ≠ p ∧ (s.call q).target = some c := by
    intro q c hc
    by_cases hq : q = p
    · subst hq
      rw [Function.update_self] at hc
      exact .inl ⟨rfl, (Option.some.inj hc).symm⟩
    · rw [Function.update_of_ne hq] at hc
      exact .inr ⟨hq, hc⟩
  refine ⟨hbase, fun q => ?_, fun q c hc => ?_, fun q c hc => ?_, fun q c hc => ?_, fun c hc => ?_,
    fun q c hc => ?_, fun r hr => ?_, fun r hr => ?_⟩
  · by_cases hq : q = p
    · subst hq
      have hidle := h.sema q
      simp only [state.SemaOk, hfree.1] at hidle
      simp only [state.SemaOk, Function.update_self, if_true]
      exact hidle
    · refine sema_congr (h.sema q) (Function.update_of_ne hq _ _) rfl fun c hc => ?_
      exact Function.update_of_ne (h.lt hc).ne _ _
  · rw [htree.pc_create hp.1]
    rcases hcall q c hc with ⟨rfl, -⟩ | ⟨-, hc⟩
    · exact hp.2
    · exact h.running q c hc
  · rw [htree.mem_create hp.1]
    rcases hcall q c hc with ⟨rfl, rfl⟩ | ⟨-, hc⟩
    · exact .inr ⟨rfl, rfl⟩
    · exact .inl (h.listed q c hc)
  · by_cases hcn : c = s.base.next_tid
    · subst hcn
      simp only [Function.update_self, copy.copying.injEq] at hc
      subst hc
      exact .inl (Function.update_self _ _ _)
    · simp only [Function.update_of_ne hcn] at hc
      have hqp : q ≠ p := by
        rintro rfl
        have := h.target_copying hc
        simp [hfree.1, call.target] at this
      simp only [Function.update_of_ne hqp]
      exact h.copying q c hc
  · replace hc : s.base.next_tid + 1 ≤ c := hc
    simp only [Function.update_of_ne (show c ≠ s.base.next_tid by omega)]
    exact h.fresh c (by omega)
  · rcases hcall q c hc with ⟨-, rfl⟩ | ⟨-, hc⟩
    · simp
    · simp only [Function.update_of_ne (h.lt hc).ne]
      exact h.made q c hc
  · obtain ⟨hlt, hover⟩ := h.ended r hr
    refine ⟨hlt.trans (Nat.lt_succ_self _), fun q hq => ?_⟩
    rcases hcall q _ hq with ⟨-, he⟩ | ⟨-, hc⟩
    · omega
    · exact hover q hc
  · simp only [Function.update_of_ne (h.ended r hr).1.ne]
    exact h.through r hr

/-- A parent goes on with the same child. -/
theorem move {k : call} {m : semaphore} {copy' : ℕ → copy} (h : Inv s)
    (ht : (s.call p).target = some c) (hk : k.target = some c)
    (hcopy : ∀ d, d ≠ c → copy' d = s.copy d)
    (hown : ∀ q, copy' c = .copying q → q = p ∧ (k = .waiting c ∨ k = .asleep c))
    (hmade : copy' c ≠ .other)
    (hsema : state.SemaOk ⟨s.base, Function.update s.fork_sema p m,
      Function.update s.call p k, copy', s.forked⟩ p) :
    Inv ⟨s.base, Function.update s.fork_sema p m, Function.update s.call p k, copy', s.forked⟩ := by
  have hcall : ∀ q d, (Function.update s.call p k q).target = some d
      → (s.call q).target = some d := by
    intro q d hd
    by_cases hq : q = p
    · subst hq
      rw [Function.update_self, hk] at hd
      rw [ht, hd]
    · rwa [Function.update_of_ne hq] at hd
  refine ⟨h.base, fun q => ?_, fun q d hd => h.running q d (hcall q d hd),
    fun q d hd => h.listed q d (hcall q d hd), fun q d hd => ?_, fun d hd => ?_, fun q d hd => ?_,
    fun r hr => ?_, fun r hr => ?_⟩
  · by_cases hq : q = p
    · subst hq
      exact hsema
    · refine sema_congr (h.sema q) (Function.update_of_ne hq _ _) (Function.update_of_ne hq _ _) ?_
      intro d hd
      apply hcopy
      rintro rfl
      exact hq (h.target_inj hd ht)
  · by_cases hdc : d = c
    · subst hdc
      obtain ⟨rfl, hk⟩ := hown q hd
      simp only [Function.update_self]
      exact hk
    · have hd' : s.copy d = .copying q := (hcopy d hdc).symm.trans hd
      have hqp : q ≠ p := by
        rintro rfl
        exact hdc (Option.some.inj ((h.target_copying hd').symm.trans ht))
      simp only [Function.update_of_ne hqp]
      exact h.copying q d hd'
  · rw [← h.fresh d hd]
    apply hcopy
    rintro rfl
    exact absurd (h.lt ht) (not_lt_of_ge hd)
  · by_cases hdc : d = c
    · rw [hdc]
      exact hmade
    · simp only [hcopy d hdc]
      exact h.made q d (hcall q d hd)
  · exact ⟨(h.ended r hr).1, fun q hq => (h.ended r hr).2 q (hcall q _ hq)⟩
  · have hne : r.child ≠ c := fun he => (h.ended r hr).2 p (by rw [ht, he])
    simp only [hcopy _ hne]
    exact h.through r hr

/-- `sema_up (&parent->fork_sema)`: the parent goes on, or will not stop. -/
theorem sema_up_eq (h : Inv s) (hc : s.copy c = .copying p) : sema_up s p = { s with
    fork_sema := Function.update s.fork_sema p ⟨1, []⟩
    call := Function.update s.call p (.waiting c) } := by
  have hsema := h.sema p
  rcases h.copying p c hc with hp | hp
  · simp only [state.SemaOk, hp, hc, if_true] at hsema
    have hself : Function.update s.call p (.waiting c) = s.call := by
      rw [← hp, Function.update_eq_self]
    rw [hself]
    simp only [sema_up, hsema]
    rfl
  · simp only [state.SemaOk, hp] at hsema
    simp only [sema_up, hsema.1]
    change state.mk _ _ (Function.update s.call p (match s.call p with
        | .asleep c => .waiting c
        | pc => pc)) _ _ = _
    rw [hp, show (0 + 1) % 2 ^ 32 = 1 from rfl]

theorem up_fork {error : Option failure} (h : Inv s) (hs : step s (.up_fork c error) = some s') :
    Inv s' := by
  simp only [step] at hs
  split at hs
  · rename_i p hc
    rw [h.sema_up_eq hc] at hs
    obtain rfl := Option.some.inj hs
    have hdone : ∀ q, (if error.isNone then copy.copied else copy.failed) ≠ .copying q := by
      intro q
      split_ifs <;> nofun
    apply h.move (h.target_copying hc) rfl (fun d hd => Function.update_of_ne hd _ _)
    · intro q hq
      rw [Function.update_self] at hq
      exact absurd hq (hdone q)
    · rw [Function.update_self]
      split_ifs <;> nofun
    · simp only [state.SemaOk, Function.update_self, hdone, if_false]
  · cases hs

theorem down_fork (h : Inv s) (hs : step s (.down_fork p) = some s') : Inv s' := by
  simp only [step] at hs
  split at hs
  · rename_i c hp
    have hsema := h.sema p
    simp only [state.SemaOk, hp] at hsema
    have htarget : (s.call p).target = some c := by rw [hp]; rfl
    rw [hsema] at hs
    by_cases hc : s.copy c = .copying p
    · simp only [hc, if_true] at hs
      obtain rfl := Option.some.inj hs
      refine h.move htarget rfl (fun _ _ => rfl) (fun q hq => ?_) (h.made p c htarget) ?_
      · exact ⟨h.target_inj (h.target_copying hq) htarget, .inr rfl⟩
      · simp only [state.SemaOk, Function.update_self]
        exact ⟨rfl, hc⟩
    · simp only [hc, if_false, Nat.one_ne_zero] at hs
      obtain rfl := Option.some.inj hs
      refine h.move htarget rfl (fun _ _ => rfl) (fun q hq => ?_) (h.made p c htarget) ?_
      · -- The unit is there because the child is through.
        obtain rfl := h.target_inj (h.target_copying hq) htarget
        exact absurd hq hc
      · simp only [state.SemaOk, Function.update_self]
  · cases hs

theorem read (h : Inv s) (hs : step s (.read p c) = some s') : Inv s' := by
  simp only [step] at hs
  split_ifs at hs with hp
  obtain ⟨child, -, rfl⟩ := Option.map_eq_some_iff.mp hs
  have htarget : (s.call p).target = some c := by rw [hp]; rfl
  have hcall : ∀ q d, (Function.update s.call p .idle q).target = some d →
      q ≠ p ∧ (s.call q).target = some d := by
    intro q d hd
    by_cases hq : q = p
    · subst hq
      rw [Function.update_self] at hd
      cases hd
    · rw [Function.update_of_ne hq] at hd
      exact ⟨hq, hd⟩
  refine ⟨h.base, fun q => ?_, fun q d hd => ?_, fun q d hd => ?_, fun q d hd => ?_, h.fresh,
    fun q d hd => h.made q d (hcall q d hd).2, fun r hr => ?_, fun r hr => ?_⟩
  · by_cases hq : q = p
    · subst hq
      have hread := h.sema q
      simp only [state.SemaOk, hp] at hread
      simp only [state.SemaOk, Function.update_self]
      exact hread
    · exact sema_congr (h.sema q) (Function.update_of_ne hq _ _) rfl fun _ _ => rfl
  · exact h.running q d (hcall q d hd).2
  · exact h.listed q d (hcall q d hd).2
  · have hqp : q ≠ p := by
      rintro rfl
      obtain rfl : c = d := Option.some.inj (htarget.symm.trans (h.target_copying hd))
      exact h.not_copying hp q hd
    simp only [Function.update_of_ne hqp]
    exact h.copying q d hd
  · rcases List.mem_cons.mp hr with rfl | hr
    · refine ⟨h.lt htarget, fun q hq => ?_⟩
      obtain ⟨hqp, hq⟩ := hcall q c hq
      exact hqp (h.target_inj hq htarget)
    · obtain ⟨hlt, hover⟩ := h.ended r hr
      exact ⟨hlt, fun q hq => hover q (hcall q _ hq).2⟩
  · rcases List.mem_cons.mp hr with rfl | hr
    · have hmade := h.made p c htarget
      have hnot := h.not_copying hp
      cases hc : s.copy c with
      | other => exact absurd hc hmade
      | copying q => exact absurd hc (hnot q)
      | copied => exact .inl rfl
      | failed => exact .inr rfl
    · exact h.through r hr

theorem base_step {e : wait_exit.event} (h : Inv s) (hs : step s (.base e) = some s') : Inv s' := by
  simp only [step] at hs
  split_ifs at hs with hfree
  obtain ⟨b, hb, rfl⟩ := Option.map_eq_some_iff.mp hs
  have hnext := wait_exit.next_tid_step hb
  -- Who is in `process_fork` is not the one that runs.
  have hwoken : ∀ q c, (s.call q).target = some c → wait_exit.Woken s.base b q := by
    intro q c hc
    apply wait_exit.step_woken h.base hb
    intro hact
    have hidle := (hfree q hact).1
    rw [hidle] at hc
    cases hc
  refine ⟨h.base.step hb, h.sema, fun q c hc => ?_, fun q c hc => ?_, h.copying, fun c hc => ?_,
    h.made, fun r hr => ?_, h.through⟩
  · have hrun := h.running q c hc
    rcases (hwoken q c hc).pc with hpc | hpc
    · exact hpc.trans hrun
    · rw [hrun] at hpc
      exact hpc
  · rw [(hwoken q c hc).children_list]
    exact h.listed q c hc
  · exact h.fresh c (hnext.trans hc)
  · obtain ⟨hlt, hover⟩ := h.ended r hr
    exact ⟨hlt.trans_le hnext, hover⟩

theorem boot (priority : ℕ → ℤ) : Inv (boot priority) := by
  refine ⟨.boot priority, fun _ => rfl, fun _ _ hc => ?_, fun _ _ hc => ?_, fun _ _ hc => ?_,
    fun _ _ => rfl, fun _ _ hc => ?_, fun _ hr => ?_, fun _ hr => ?_⟩
  · cases hc
  · cases hc
  · cases hc
  · cases hc
  · cases hr
  · cases hr

theorem step {e : event} (h : Inv s) (hs : step s e = some s') : Inv s' := by
  cases e with
  | fork p => exact h.fork hs
  | up_fork c error => exact h.up_fork hs
  | down_fork p => exact h.down_fork hs
  | read p c => exact h.read hs
  | base e => exact h.base_step hs

end Inv

/-! ## What the schedule says -/

section Trace

variable {s s' : state} {es : List event} {e : event}

theorem run_concat (es : List event) (e : event) (s : state) :
    run (es ++ [e]) s = (run es s).bind fun s' => step s' e := by
  induction es generalizing s with
  | nil =>
      simp only [List.nil_append, run, Option.bind_some]
      cases step s e <;> rfl
  | cons e' es ih => simp only [List.cons_append, run, Option.bind_assoc, ih]

/-- Two events in this order. -/
theorem pair_sublist_concat {α : Type} {a b x : α} {l : List α} :
    List.Sublist [a, b] (l ++ [x]) ↔ List.Sublist [a, b] l ∨ b = x ∧ a ∈ l := by
  rw [List.sublist_append_iff]
  refine ⟨?_, ?_⟩
  · rintro ⟨l₁, l₂, hl, h₁, h₂⟩
    rcases List.sublist_singleton.mp h₂ with rfl | rfl
    · rw [List.append_nil] at hl
      exact .inl (hl ▸ h₁)
    · obtain ⟨rfl, rfl⟩ : l₁ = [a] ∧ x = b := by
        have := List.append_inj' (show [a] ++ [b] = l₁ ++ [x] from hl) rfl
        exact ⟨this.1.symm, (List.singleton_inj.mp this.2).symm⟩
      exact .inr ⟨rfl, List.singleton_sublist.mp h₁⟩
  · rintro (h | ⟨rfl, h⟩)
    · exact ⟨[a, b], [], rfl, h, List.nil_sublist _⟩
    · exact ⟨[a], [b], rfl, List.singleton_sublist.mpr h, List.Sublist.refl _⟩

/-- `exit (-1)`, by a call or by an exception. -/
abbrev exit_error (c : ℕ) : event := .base (.exit c (some TID_ERROR))

/-- What can be read off the schedule that has led to `s`. -/
structure Traced (es : List event) (s : state) : Prop where
  status : ∀ c, (s.base.threads c).exit_status = TID_ERROR ↔ exit_error c ∈ es
  zero : ∀ c, ¬ (s.base.threads c).Exited → (s.base.threads c).exit_status = 0
  copied : ∀ c, s.copy c = .copied ↔ .up_fork c none ∈ es
  returned : ∀ p c, .read p c ∈ es → ∃ r ∈ s.forked, r.parent = p ∧ r.child = c
  /-- The error value is there if and only if the child's exit came first. -/
  result : ∀ r ∈ s.forked, r.result =
    if List.Sublist [exit_error r.child, .read r.parent r.child] es then TID_ERROR
      else (r.child : ℤ)

namespace Traced

theorem boot (priority : ℕ → ℤ) : Traced [] (boot priority) := by
  refine ⟨fun c => ?_, fun _ _ => rfl, fun c => ?_, fun p c h => ?_, fun r hr => ?_⟩
  · simp [fork_return.boot, wait_exit.boot, wait_exit.init_thread, TID_ERROR]
  · simp [fork_return.boot]
  · cases h
  · cases hr

/-- The exits. -/
theorem base_status {e' : wait_exit.event} {b : wait_exit.state} (h : Traced es s) (hi : Inv s)
    (hb : wait_exit.step s.base e' = some b)
    (he : ∀ c, exit_error c = e ↔ e' = .exit c (some TID_ERROR)) (c : ℕ) :
    ((b.threads c).exit_status = TID_ERROR ↔ exit_error c ∈ es ++ [e])
      ∧ (¬ (b.threads c).Exited → (b.threads c).exit_status = 0) := by
  rw [List.mem_append, List.mem_singleton, he, ← h.status]
  rcases wait_exit.exit_step hi.base hb c with ⟨status, rfl, hnot, hval, hex⟩ | ⟨hne, hval, hex⟩
  · have hzero := h.zero c hnot
    refine ⟨?_, fun hn => absurd hex hn⟩
    rw [hval, hzero]
    cases status with
    | none => simp [TID_ERROR]
    | some v => simp [TID_ERROR]
  · refine ⟨?_, fun hn => ?_⟩
    · rw [hval]
      simp [hne]
    · rw [hval]
      exact h.zero c fun hx => hn (hex hx)

/-- The calls, in a step that does not return from one. -/
theorem keep_result (h : Traced es s) (he : ∀ p c, event.read p c ≠ e) (hf : s'.forked = s.forked) :
    (∀ p c, .read p c ∈ es ++ [e] → ∃ r ∈ s'.forked, r.parent = p ∧ r.child = c)
      ∧ ∀ r ∈ s'.forked, r.result =
        if List.Sublist [exit_error r.child, .read r.parent r.child] (es ++ [e]) then TID_ERROR
        else (r.child : ℤ) := by
  rw [hf]
  refine ⟨fun p c hr => ?_, fun r hr => ?_⟩
  · rcases List.mem_append.mp hr with hr | hr
    · exact h.returned p c hr
    · exact absurd (List.mem_singleton.mp hr) (he p c)
  · rw [h.result r hr]
    simp only [pair_sublist_concat, he, false_and, or_false]

theorem base_step {e' : wait_exit.event} (h : Traced es s) (hi : Inv s)
    (hs : step s (.base e') = some s') : Traced (es ++ [.base e']) s' := by
  simp only [step] at hs
  split_ifs at hs with hfree
  obtain ⟨b, hb, rfl⟩ := Option.map_eq_some_iff.mp hs
  have hst := h.base_status (e := .base e') hi hb fun c => by
    simp only [exit_error, event.base.injEq]
    exact eq_comm
  obtain ⟨hret, hres⟩ := h.keep_result
    (show ∀ p c, event.read p c ≠ .base e' from fun _ _ => nofun)
    (show ({ s with base := b } : state).forked = s.forked from rfl)
  refine ⟨fun c => (hst c).1, fun c => (hst c).2, fun c => ?_, hret, hres⟩
  rw [List.mem_append, ← h.copied]
  simp

theorem fork {p : ℕ} (h : Traced es s) (hi : Inv s) (hs : step s (.fork p) = some s') :
    Traced (es ++ [.fork p]) s' := by
  simp only [step] at hs
  split_ifs at hs with hfree
  obtain ⟨b, hb, rfl⟩ := Option.map_eq_some_iff.mp hs
  have hst := h.base_status (e := .fork p) hi hb fun c => ⟨nofun, nofun⟩
  obtain ⟨hret, hres⟩ := h.keep_result
    (show ∀ q c, event.read q c ≠ .fork p from fun _ _ => nofun)
    (show ({ s with base := b } : state).forked = s.forked from rfl)
  refine ⟨fun c => (hst c).1, fun c => (hst c).2, fun c => ?_, hret, hres⟩
  rw [List.mem_append, ← h.copied]
  by_cases hc : c = s.base.next_tid
  · subst hc
    simp [hi.fresh _ le_rfl]
  · simp [Function.update_of_ne hc]

theorem up_fork {c : ℕ} {error : Option failure} (h : Traced es s) (hi : Inv s)
    (hs : step s (.up_fork c error) = some s') : Traced (es ++ [.up_fork c error]) s' := by
  simp only [step] at hs
  split at hs
  · rename_i p hc
    rw [hi.sema_up_eq hc] at hs
    obtain rfl := Option.some.inj hs
    obtain ⟨hret, hres⟩ := h.keep_result
      (show ∀ q d, event.read q d ≠ .up_fork c error from fun _ _ => nofun) (Eq.refl s.forked)
    refine ⟨fun d => ?_, h.zero, fun d => ?_, hret, hres⟩
    · rw [List.mem_append, ← h.status]
      simp
    · rw [List.mem_append, ← h.copied]
      by_cases hd : d = c
      · subst hd
        simp only [Function.update_self, hc]
        cases error <;> simp
      · simp [hd]
  · cases hs

theorem down_fork {p : ℕ} (h : Traced es s) (hs : step s (.down_fork p) = some s') :
    Traced (es ++ [.down_fork p]) s' := by
  obtain ⟨hret, hres⟩ := h.keep_result
    (show ∀ q c, event.read q c ≠ .down_fork p from fun _ _ => nofun) (Eq.refl s.forked)
  have hkeep : ∀ t : state, t.base = s.base → t.copy = s.copy → t.forked = s.forked →
      Traced (es ++ [.down_fork p]) t := by
    intro t hb hcopy hf
    refine ⟨fun c => ?_, ?_, fun c => ?_, ?_, ?_⟩
    · rw [hb, List.mem_append, ← h.status]
      simp
    · rw [hb]
      exact h.zero
    · rw [hcopy, List.mem_append, ← h.copied]
      simp
    · rw [hf]
      exact hret
    · rw [hf]
      exact hres
  simp only [step] at hs
  split at hs
  · split_ifs at hs
    · obtain rfl := Option.some.inj hs
      exact hkeep _ rfl rfl rfl
    · obtain rfl := Option.some.inj hs
      exact hkeep _ rfl rfl rfl
  · cases hs

/-- The parent reads what the exits so far have left. -/
theorem read {p c : ℕ} (h : Traced es s) (hi : Inv s) (hs : step s (.read p c) = some s') :
    Traced (es ++ [.read p c]) s' := by
  simp only [step] at hs
  split_ifs at hs with hp
  obtain ⟨child, hchild, rfl⟩ := Option.map_eq_some_iff.mp hs
  have htarget : (s.call p).target = some c := by rw [hp]; rfl
  obtain rfl : child = c := by
    have htid := ((hi.base.get_my_child (hi.running p c htarget)).mp hchild).1
    exact Int.ofNat_inj.mp htid
  refine ⟨fun d => ?_, h.zero, fun d => ?_, fun q d hr => ?_, fun r hr => ?_⟩
  · rw [List.mem_append, ← h.status]
    simp
  · rw [List.mem_append, ← h.copied]
    simp
  · rcases List.mem_append.mp hr with hr | hr
    · obtain ⟨r, hr, hrp, hrc⟩ := h.returned q d hr
      exact ⟨r, List.mem_cons_of_mem _ hr, hrp, hrc⟩
    · obtain ⟨rfl, rfl⟩ : q = p ∧ d = child := by simpa using hr
      exact ⟨_, List.mem_cons_self, rfl, rfl⟩
  · simp only [pair_sublist_concat]
    rcases List.mem_cons.mp hr with rfl | hr
    · have hsub : List.Sublist [exit_error child, .read p child] es → exit_error child ∈ es :=
        fun hl => hl.subset List.mem_cons_self
      simp only [h.status, true_and, or_iff_right_of_imp hsub]
    · -- The calls before were about other children.
      have hne : event.read r.parent r.child ≠ .read p child := by
        intro he
        obtain ⟨-, hrc⟩ := event.read.inj he
        exact (hi.ended r hr).2 p (by rw [htarget, hrc])
      rw [h.result r hr]
      simp only [hne, false_and, or_false]

theorem step (h : Traced es s) (hi : Inv s) (hs : step s e = some s') : Traced (es ++ [e]) s' := by
  cases e with
  | fork p => exact h.fork hi hs
  | up_fork c error => exact h.up_fork hi hs
  | down_fork p => exact h.down_fork hs
  | read p c => exact h.read hi hs
  | base e => exact h.base_step hi hs

end Traced

theorem inv_run {priority : ℕ → ℤ} (hrun : run es (boot priority) = some s) :
    Inv s ∧ Traced es s := by
  induction es using List.reverseRecOn generalizing s with
  | nil =>
      obtain rfl := Option.some.inj hrun
      exact ⟨.boot priority, .boot priority⟩
  | append_singleton es e ih =>
      rw [run_concat] at hrun
      obtain ⟨s₁, hs₁, hs⟩ := Option.bind_eq_some_iff.mp hrun
      obtain ⟨hi, ht⟩ := ih hs₁
      exact ⟨hi.step hs, ht.step hi hs⟩

/-! ## The result -/

/-- **What `process_fork` should report.** -/
def Reports (s : state) : Prop :=
  ∀ r ∈ s.forked, (s.copy r.child = .copied → r.result = r.child)
    ∧ (r.result = TID_ERROR → s.copy r.child = .failed)

/-- Nobody waits for a child that is through with `__do_fork`. -/
structure Progress (s : state) : Prop where
  asleep : ∀ p c, s.call p = .asleep c → s.copy c = .copying p
  goes_on : ∀ p c, s.call p = .waiting c → s.copy c ≠ .copying p →
    ∃ s', step s (.down_fork p) = some s' ∧ s'.call p = .reading c
  returns : ∀ p c, s.call p = .reading c → ∃ s', step s (.read p c) = some s' ∧ s'.call p = .idle

theorem Inv.progress (h : Inv s) : Progress s := by
  refine ⟨fun p c hp => ?_, fun p c hp hc => ?_, fun p c hp => ?_⟩
  · have hsema := h.sema p
    simp only [state.SemaOk, hp] at hsema
    exact hsema.2
  · have hsema := h.sema p
    simp only [state.SemaOk, hp, hc, if_false] at hsema
    simp only [fork_return.step, hp, hsema, Nat.one_ne_zero, if_false]
    exact ⟨_, rfl, Function.update_self _ _ _⟩
  · -- The child is still in the list: it waits in `process_exit` for its parent.
    have htarget : (s.call p).target = some c := by rw [hp]; rfl
    have hrun := h.running p c htarget
    have hpar := h.parent htarget
    have hmem := h.listed p c htarget
    have hcol : c ∉ s.base.collected.map (·.child) := by
      rw [← h.base.done, wait_exit.state.stage_eq hpar]
      exact wait_exit.thread.stage_ne_done hmem
    have hg := (h.base.get_my_child hrun).mpr ⟨Eq.refl (c : ℤ), hpar, hcol⟩
    simp only [fork_return.step, hp, if_true, hg]
    exact ⟨_, rfl, Function.update_self _ _ _⟩

/-- **`process_fork` under any schedule.** It returns once `__do_fork` is through, and what it
returns is right if and only if no child with a complete copy exits with `-1` before its parent
looks. -/
theorem reports_along {priority : ℕ → ℤ} (hrun : run es (boot priority) = some s) :
    Progress s ∧ (Reports s ↔ ∀ p c, .up_fork c none ∈ es →
      ¬ List.Sublist [exit_error c, .read p c] es) := by
  obtain ⟨hi, ht⟩ := inv_run hrun
  have hne : ∀ c : ℕ, (c : ℤ) ≠ TID_ERROR := by
    intro c
    unfold TID_ERROR
    omega
  refine ⟨hi.progress, fun hrep p c hup hsub => ?_, fun hall r hr => ?_⟩
  · obtain ⟨r, hr, rfl, rfl⟩ := ht.returned p c (hsub.subset (by simp))
    have hres := ht.result r hr
    rw [if_pos hsub] at hres
    have hok := (hrep r hr).1 ((ht.copied _).mpr hup)
    exact hne _ (hok.symm.trans hres)
  · have hres := ht.result r hr
    by_cases hsub : List.Sublist [exit_error r.child, .read r.parent r.child] es
    · rw [if_pos hsub] at hres
      have hnot : s.copy r.child ≠ .copied := fun hc =>
        hall r.parent r.child ((ht.copied _).mp hc) hsub
      exact ⟨fun hc => absurd hc hnot, fun _ => (hi.through r hr).resolve_left hnot⟩
    · rw [if_neg hsub] at hres
      exact ⟨fun _ => hres, fun he => absurd (hres.symm.trans he) (hne _)⟩

end Trace

/-- The child runs to its end before the parent looks. -/
def child_first : List event :=
  [.fork 0, .down_fork 0, .up_fork 1 none, exit_error 1, .base (.up_wait 1),
    .down_fork 0, .read 0 1]

/-- A failure is reported, and so is a child that fails after the parent has looked. -/
def parent_first : List event :=
  [.fork 0, .up_fork 1 (some .fd_idx), exit_error 1, .down_fork 0, .read 0 1,
    .fork 0, .up_fork 2 none, .down_fork 0, .read 0 2, exit_error 2]

theorem parent_first_reports : ∃ s, run parent_first (boot fun _ => 31) = some s
    ∧ s.forked = [⟨0, 2, 2⟩, ⟨0, 1, TID_ERROR⟩] ∧ Reports s := by
  obtain ⟨s, hs⟩ : ∃ s, run parent_first (boot fun _ => 31) = some s :=
    Option.isSome_iff_exists.mp (by decide +kernel)
  refine ⟨s, hs, ?_, (reports_along hs).2.mpr fun p c hup => ?_⟩
  · have hforked : (run parent_first (boot fun _ => 31)).map (·.forked) =
        some [⟨0, 2, 2⟩, ⟨0, 1, TID_ERROR⟩] := by
      decide +kernel
    rw [hs] at hforked
    exact Option.some.inj hforked
  · obtain rfl : c = 2 := by simpa [parent_first] using hup
    intro hsub
    have hconcat : parent_first = parent_first.dropLast ++ [exit_error 2] := rfl
    rw [hconcat, pair_sublist_concat] at hsub
    rcases hsub with hsub | ⟨he, -⟩
    · have hmem : exit_error 2 ∈ parent_first.dropLast := hsub.subset List.mem_cons_self
      revert hmem
      decide
    · cases he

theorem child_first_misreports : ¬ ∀ es s, run es (boot fun _ => 31) = some s → Reports s := by
  intro hall
  obtain ⟨s, hs⟩ : ∃ s, run child_first (boot fun _ => 31) = some s :=
    Option.isSome_iff_exists.mp (by decide +kernel)
  have hend : (run child_first (boot fun _ => 31)).map (fun s => (s.forked, s.copy 1)) =
      some ([⟨0, 1, TID_ERROR⟩], .copied) := by
    decide +kernel
  rw [hs] at hend
  have hpair := Option.some.inj hend
  have hforked : s.forked = [⟨0, 1, TID_ERROR⟩] := congrArg Prod.fst hpair
  have hcopy : s.copy 1 = .copied := congrArg Prod.snd hpair
  have hbad := (hall _ s hs ⟨0, 1, TID_ERROR⟩
    (by rw [hforked]; exact List.mem_singleton.mpr rfl)).2 rfl
  rw [hcopy] at hbad
  cases hbad

end Pintos.fork_return
