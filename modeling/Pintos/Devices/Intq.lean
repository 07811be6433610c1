/-
`devices/intq.c`: a queue of bytes between threads and interrupt handlers.

Interrupts are off in all of it, so a thread runs through `intq_getc` or `intq_putc`
in one piece, except where it gives up the CPU: in `lock_acquire` of a taken lock, be
it in `sema_down` or in the `lock_release` of the `malloc` in `create_donation`, in
`wait`, and in `lock_release`, whose `sema_up` yields to a thread of higher priority.
At these places other threads and handlers come in between. A thread keeps the lock
while it sleeps in `wait`.

The buffer is a ring of `INTQ_BUFSIZE` cells. `added` and `removed` are ghosts: every
byte so far, with the thread that added or removed it, and `none` for a handler.
-/
import Pintos.Lib.RingBuffer
import Pintos.Lib.Runs
import Pintos.Threads.Semaphore

set_option autoImplicit false

namespace Pintos.devices

open synch (sema_state)

/-- `INTQ_BUFSIZE`. -/
def INTQ_BUFSIZE : ℕ := 64

/-- The two calls. -/
inductive call
  | intq_getc
  | intq_putc (byte : UInt8)
  deriving DecidableEq, Repr

/-- Where a thread is. -/
inductive point
  /-- In code of its own. -/
  | outside
  /-- In `lock_acquire` of a taken lock: on the way to the test of `sema_down`, or asleep there. -/
  | acquiring (c : call)
  /-- Asleep in `wait`. -/
  | waiting (c : call)
  /-- Unblocked by `signal`, in front of `lock_release`. -/
  | woken (c : call)
  /-- Behind `lock_release`, in front of the test of the loop. -/
  | looping (c : call)
  deriving DecidableEq, Repr

/-- The members of `struct intq` a thread can wait in. -/
inductive condition
  | not_full
  | not_empty
  deriving DecidableEq, Repr

/-- `struct intq`, and the threads at it. -/
structure intq where
  /-- `lock`: its semaphore and its holder. -/
  semaphore : sema_state
  holder : Option ℕ
  /-- `not_full` and `not_empty`. -/
  waiter : condition → Option ℕ
  buf : Fin INTQ_BUFSIZE → UInt8
  head : Fin INTQ_BUFSIZE
  tail : Fin INTQ_BUFSIZE
  pc : ℕ → point
  added : List (Option ℕ × UInt8)
  removed : List (Option ℕ × UInt8)

/-- `intq_init`. -/
def intq_init (priority : ℕ → ℤ) : intq where
  semaphore := synch.sema_init 1 priority
  holder := none
  waiter _ := none
  buf _ := 0
  head := ⟨0, by decide⟩
  tail := ⟨0, by decide⟩
  pc _ := .outside
  added := []
  removed := []

/-- `intq_empty`. -/
def intq_empty (q : intq) : Prop := q.head = q.tail

/-- `intq_full`. -/
def intq_full (q : intq) : Prop := RingBuffer.next q.head = q.tail

instance (q : intq) : Decidable (intq_empty q) := inferInstanceAs (Decidable (_ = _))
instance (q : intq) : Decidable (intq_full q) := inferInstanceAs (Decidable (_ = _))

/-- The condition is true. -/
def Holds (q : intq) : condition → Prop
  | .not_full => ¬ intq_full q
  | .not_empty => ¬ intq_empty q

instance (q : intq) (k : condition) : Decidable (Holds q k) :=
  match k with
  | .not_full => inferInstanceAs (Decidable (¬ _))
  | .not_empty => inferInstanceAs (Decidable (¬ _))

namespace call

/-- What the call waits for. -/
def needs : call → condition
  | .intq_getc => .not_empty
  | .intq_putc _ => .not_full

/-- What the call signals. -/
def gives : call → condition
  | .intq_getc => .not_full
  | .intq_putc _ => .not_empty

end call

namespace intq

/-- Thread `t` is at another point. -/
def at_point (q : intq) (t : ℕ) (p : point) : intq := { q with pc := Function.update q.pc t p }

/-- Assign to `not_full` or `not_empty`. -/
def set_waiter (q : intq) (k : condition) (w : Option ℕ) : intq :=
  { q with waiter := Function.update q.waiter k w }

/-- The bytes in the queue, the oldest first. -/
def bytes (q : intq) : List UInt8 := RingBuffer.contents q.buf q.head q.tail

end intq

/-! ## The code -/

/-- `wait`, up to `thread_block`. -/
def wait (q : intq) (t : ℕ) (c : call) : Outcome intq := do
  Outcome.assert (¬ Holds q c.needs)
  return (q.set_waiter c.needs (some t)).at_point t (.waiting c)

/-- `thread_unblock`, of a thread that sleeps in `wait`. -/
def thread_unblock (q : intq) (t : ℕ) : Outcome intq :=
  match q.pc t with
  | .waiting c => .ok (q.at_point t (.woken c))
  | _ => .panic

/-- `signal`. -/
def signal (q : intq) (k : condition) : Outcome intq := do
  Outcome.assert (Holds q k)
  match q.waiter k with
  | none => return q
  | some w => do
      let q ← thread_unblock q w
      return q.set_waiter k none

/-- `sema_down` of the lock from the test of its loop on, then the end of `lock_acquire`
and `wait`. -/
def sema_down (q : intq) (t : ℕ) (c : call) : Outcome intq :=
  if q.semaphore.sema.value = 0 then
    .ok ({ q with semaphore := synch.sema_down q.semaphore t }.at_point t (.acquiring c))
  else
    wait { q with semaphore := synch.sema_down q.semaphore t, holder := some t } t c

/-- `lock_acquire`, and `wait` behind it. -/
def lock_acquire (q : intq) (t : ℕ) (c : call) : Outcome intq := do
  Outcome.assert (q.holder ≠ some t)
  sema_down q t c

/-- `lock_release`. -/
def lock_release (q : intq) (t : ℕ) (c : call) : Outcome intq := do
  Outcome.assert (q.holder = some t)
  return { q with holder := none, semaphore := synch.sema_up q.semaphore }.at_point t (.looping c)

/-- The part of `intq_getc` or `intq_putc` behind the loop, by a thread or by a handler. -/
def finish (q : intq) (who : Option ℕ) : call → Outcome intq
  | .intq_getc =>
      signal { q with
        tail := RingBuffer.next q.tail
        removed := q.removed ++ [(who, q.buf q.tail)] } .not_full
  | .intq_putc byte =>
      signal { q with
        buf := Function.update q.buf q.head byte
        head := RingBuffer.next q.head
        added := q.added ++ [(who, byte)] } .not_empty

/-- A call by a handler: it must not wait. -/
def handler_call (q : intq) (c : call) : Outcome intq := do
  Outcome.assert (Holds q c.needs)
  finish q none c

/-- A call by thread `t` from the test of the loop on. -/
def thread_call (q : intq) (t : ℕ) (c : call) : Outcome intq :=
  if Holds q c.needs then finish (q.at_point t .outside) (some t) c else lock_acquire q t c

/-! ## Steps -/

/-- What can happen next. -/
inductive event
  /-- Thread `t` calls. -/
  | call (t : ℕ) (c : call)
  /-- Thread `t` runs again, and goes on in its call. -/
  | resume (t : ℕ)
  /-- An interrupt handler calls. -/
  | handler (c : call)
  /-- Priorities change at any time. -/
  | set_priority (t : ℕ) (p : ℤ)
  deriving DecidableEq, Repr

/-- Thread `t` is in one of the calls, and can run. -/
def Ready (q : intq) (t : ℕ) : Prop :=
  match q.pc t with
  | .outside => False
  | .acquiring _ => t ∈ q.semaphore.woken
  | .waiting _ => False
  | .woken _ => True
  | .looping _ => True

instance (q : intq) (t : ℕ) : Decidable (Ready q t) :=
  match h : q.pc t with
  | .outside => .isFalse (by simp [Ready, h])
  | .acquiring _ => decidable_of_iff (t ∈ q.semaphore.woken) (by simp [Ready, h])
  | .waiting _ => .isFalse (by simp [Ready, h])
  | .woken _ => .isTrue (by simp [Ready, h])
  | .looping _ => .isTrue (by simp [Ready, h])

/-- The event can happen. -/
def Enabled (q : intq) : event → Prop
  | .call t _ => q.pc t = .outside
  | .resume t => Ready q t
  | .handler _ => True
  | .set_priority _ _ => True

instance (q : intq) (e : event) : Decidable (Enabled q e) :=
  match e with
  | .call _ _ => inferInstanceAs (Decidable (_ = _))
  | .resume t => inferInstanceAs (Decidable (Ready q t))
  | .handler _ => .isTrue trivial
  | .set_priority _ _ => .isTrue trivial

/-- Thread `t` goes on where it left the CPU. -/
def resume (q : intq) (t : ℕ) : Outcome intq :=
  match q.pc t with
  | .acquiring c =>
      sema_down { q with semaphore := { q.semaphore with woken := q.semaphore.woken.erase t } } t c
  | .woken c => lock_release q t c
  | .looping c => thread_call q t c
  | _ => .ok q

/-- One step. -/
def step (q : intq) : event → Outcome intq
  | .call t c => thread_call q t c
  | .resume t => resume q t
  | .handler c => handler_call q c
  | .set_priority t p =>
      .ok { q with semaphore := { q.semaphore with
        priority := Function.update q.semaphore.priority t p } }

/-- A schedule: every event can happen, and no assertion stops the kernel. -/
def run : List event → intq → Option intq :=
  Runs.run fun q e => if Enabled q e then (step q e).toOption else none

/-! ## What holds at every point -/

namespace point

/-- The thread holds the lock. -/
def Owns : point → Prop
  | .waiting _ => True
  | .woken _ => True
  | _ => False

/-- The thread is in the middle of `sema_down`. -/
def Acquires : point → Prop
  | .acquiring _ => True
  | _ => False

/-- The call the thread is in. -/
def call? : point → Option call
  | .outside => none
  | .acquiring c => some c
  | .waiting c => some c
  | .woken c => some c
  | .looping c => some c

end point

/-- Who holds the lock, who sleeps where, and who is on the way. -/
structure Threads (q : intq) : Prop where
  counted : synch.Counted 1 q.semaphore
  free : q.semaphore.sema.value = if q.holder = none then 1 else 0
  holder : ∀ t, q.holder = some t ↔ (q.pc t).Owns
  waiter : ∀ k t, q.waiter k = some t ↔ ∃ c, q.pc t = .waiting c ∧ c.needs = k
  nodup : q.semaphore.queue.Nodup
  queue : ∀ t, t ∈ q.semaphore.queue ↔ (q.pc t).Acquires

/-- Nobody sleeps in `wait` for a condition that is true. -/
def Asleep (q : intq) : Prop := ∀ t c, q.pc t = .waiting c → ¬ Holds q c.needs

/-- What has come out, and then what is in the queue, is what has gone in. -/
def Fifo (q : intq) : Prop := q.removed.map Prod.snd ++ q.bytes = q.added.map Prod.snd

/-- The invariant. -/
structure Sound (q : intq) : Prop where
  threads : Threads q
  asleep : Asleep q
  fifo : Fifo q

theorem init_sound (priority : ℕ → ℤ) : Sound (intq_init priority) := by
  refine ⟨⟨synch.Counted.init_counted (by decide) priority, rfl, fun t => ?_, fun k t => ?_,
    List.nodup_nil, fun t => ?_⟩, fun t c h => ?_, ?_⟩
  · simp [intq_init, point.Owns]
  · simp [intq_init]
  · simp [intq_init, point.Acquires, sema_state.queue, synch.sema_init]
  · simp [intq_init] at h
  · simp [Fifo, intq_init, intq.bytes]

section Points

variable {q : intq} {t u : ℕ} {p p' : point}

@[simp] theorem pc_at_point_self : (q.at_point t p).pc t = p := Function.update_self _ _ _

theorem pc_at_point_of_ne (h : u ≠ t) : (q.at_point t p).pc u = q.pc u :=
    Function.update_of_ne h _ _

@[simp] theorem at_point_at_point : (q.at_point t p).at_point t p' = q.at_point t p' := by
  simp [intq.at_point]

theorem holds_at_point {k : condition} : Holds (q.at_point t p) k ↔ Holds q k := by
  cases k with
  | not_full => exact Iff.rfl
  | not_empty => exact Iff.rfl

end Points

namespace Threads

variable {q : intq} {t : ℕ} {p : point} {c : call} {k : condition}

/-- The lock is free when its semaphore is not 0. -/
theorem holder_eq_none (h : Threads q) : q.holder = none ↔ q.semaphore.sema.value ≠ 0 := by
  rw [h.free]
  split
  · rename_i hnone
    simp [hnone]
  · rename_i hsome
    simp [hsome]

/-- With the lock free nobody waits. -/
theorem waiter_eq_none (h : Threads q) (hfree : q.holder = none) (k : condition) :
    q.waiter k = none := by
  rw [Option.eq_none_iff_forall_ne_some]
  intro t ht
  obtain ⟨c, hc, -⟩ := (h.waiter k t).mp ht
  have hhold := (h.holder t).mpr (by rw [hc]; trivial)
  rw [hfree] at hhold
  cases hhold

/-- A thread that is neither at the lock nor in `wait` comes to another such point. -/
theorem at_idle (h : Threads q) (hown : ¬ (q.pc t).Owns) (hacq : ¬ (q.pc t).Acquires)
    (hown' : ¬ p.Owns) (hacq' : ¬ p.Acquires) : Threads (q.at_point t p) := by
  refine ⟨h.counted, h.free, fun u => ?_, fun k u => ?_, h.nodup, fun u => ?_⟩
  · by_cases hut : u = t
    · rw [hut, pc_at_point_self]
      exact iff_of_false (fun hu => hown ((h.holder t).mp hu)) hown'
    · rw [pc_at_point_of_ne hut]
      exact h.holder u
  · by_cases hut : u = t
    · rw [hut, pc_at_point_self]
      refine iff_of_false (fun hu => ?_) ?_
      · obtain ⟨c, hc, -⟩ := (h.waiter k t).mp hu
        rw [hc] at hown
        exact hown trivial
      · rintro ⟨c, rfl, -⟩
        exact hown' trivial
    · rw [pc_at_point_of_ne hut]
      exact h.waiter k u
  · by_cases hut : u = t
    · rw [hut, pc_at_point_self]
      exact iff_of_false (fun hu => hacq ((h.queue t).mp hu)) hacq'
    · rw [pc_at_point_of_ne hut]
      exact h.queue u

end Threads

/-! ### The lock -/

/-- Thread `t` is in front of the test of `sema_down`, and `m` is the semaphore there. -/
structure Enters (q : intq) (t : ℕ) (m : sema_state) : Prop where
  counted : synch.Counted 1 (synch.sema_down m t)
  value : m.sema.value = q.semaphore.sema.value
  nodup : (t :: m.queue).Nodup
  queue : ∀ u, u ≠ t → (u ∈ m.queue ↔ (q.pc u).Acquires)
  idle : ¬ (q.pc t).Owns

section Enters

variable {q : intq} {t : ℕ} {c : call} {m : sema_state}

/-- The first test. -/
theorem Threads.enters (h : Threads q) (hown : ¬ (q.pc t).Owns) (hacq : ¬ (q.pc t).Acquires) :
    Enters q t q.semaphore := by
  refine ⟨h.counted.sema_down t, rfl, ?_, fun u _ => h.queue u, hown⟩
  exact List.nodup_cons.mpr ⟨fun ht => hacq ((h.queue t).mp ht), h.nodup⟩

/-- The test of a woken thread. -/
theorem Threads.reenters (h : Threads q) (ht : t ∈ q.semaphore.woken) (hp : q.pc t = .acquiring c) :
    Enters q t { q.semaphore with woken := q.semaphore.woken.erase t } := by
  have hperm := sema_state.queue_erase ht
  refine ⟨h.counted.recheck ht, rfl, hperm.nodup_iff.mp h.nodup, fun u hut => ?_, ?_⟩
  · rw [← h.queue u, hperm.mem_iff, List.mem_cons]
    exact (or_iff_right hut).symm
  · rw [hp]
    exact fun hf => hf

/-- At 0 the thread goes to sleep. -/
theorem Enters.sleep (he : Enters q t m) (h : Threads q) (hzero : q.semaphore.sema.value = 0) :
    Threads ({ q with semaphore := synch.sema_down m t }.at_point t (.acquiring c)) := by
  have hperm := sema_state.queue_sleep (he.value.trans hzero) t
  refine ⟨he.counted, ?_, fun u => ?_, fun k u => ?_, hperm.nodup_iff.mpr he.nodup, fun u => ?_⟩
  · show (synch.sema_down m t).sema.value = _
    rw [synch.Exclusive.value_sema_down, he.value, hzero]
    exact hzero.symm.trans h.free
  · by_cases hut : u = t
    · rw [hut, pc_at_point_self]
      exact iff_of_false (fun hu => he.idle ((h.holder t).mp hu)) fun hf => hf
    · rw [pc_at_point_of_ne hut]
      exact h.holder u
  · by_cases hut : u = t
    · rw [hut, pc_at_point_self]
      refine iff_of_false (fun hu => he.idle ?_) (by simp)
      obtain ⟨c, hc, -⟩ := (h.waiter k t).mp hu
      rw [hc]
      trivial
    · rw [pc_at_point_of_ne hut]
      exact h.waiter k u
  · show u ∈ (synch.sema_down m t).queue ↔ _
    rw [hperm.mem_iff, List.mem_cons]
    by_cases hut : u = t
    · rw [hut, pc_at_point_self]
      exact iff_of_true (.inl rfl) trivial
    · rw [pc_at_point_of_ne hut, or_iff_right hut]
      exact he.queue u hut

/-- With the lock, the thread goes to sleep in `wait`. -/
theorem Enters.wait (he : Enters q t m) (h : Threads q) (hpos : q.semaphore.sema.value ≠ 0) :
    Threads (({ q with semaphore := synch.sema_down m t, holder := some t }.set_waiter c.needs
      (some t)).at_point t (.waiting c)) := by
  have hfree := h.holder_eq_none.mpr hpos
  have hqueue := sema_state.queue_take (s := m) (by rw [he.value]; exact hpos) t
  have hnone : ∀ u, ¬ (q.pc u).Owns := by
    intro u hu
    have := (h.holder u).mpr hu
    rw [hfree] at this
    cases this
  have hval : q.semaphore.sema.value = 1 := by rw [h.free, if_pos hfree]
  refine ⟨he.counted, ?_, fun u => ?_, fun k u => ?_, ?_, fun u => ?_⟩
  · show (synch.sema_down m t).sema.value = _
    rw [synch.Exclusive.value_sema_down, he.value, hval]
    rfl
  · show some t = some u ↔ _
    by_cases hut : u = t
    · rw [hut, pc_at_point_self]
      exact iff_of_true rfl trivial
    · rw [pc_at_point_of_ne hut]
      exact iff_of_false (fun heq => hut (Option.some.inj heq).symm) (hnone u)
  · show Function.update q.waiter c.needs (some t) k = some u ↔ _
    by_cases hut : u = t
    · rw [hut, pc_at_point_self]
      by_cases hk : k = c.needs
      · rw [hk, Function.update_self]
        exact iff_of_true rfl ⟨c, rfl, rfl⟩
      · rw [Function.update_of_ne hk, h.waiter_eq_none hfree]
        refine iff_of_false (by simp) ?_
        rintro ⟨c', hc, rfl⟩
        rw [point.waiting.inj hc] at hk
        exact hk rfl
    · rw [pc_at_point_of_ne hut]
      refine iff_of_false (fun hu => ?_) ?_
      · by_cases hk : k = c.needs
        · rw [hk, Function.update_self] at hu
          exact hut (Option.some.inj hu).symm
        · rw [Function.update_of_ne hk, h.waiter_eq_none hfree] at hu
          cases hu
      · rintro ⟨c', hc, -⟩
        refine hnone u ?_
        rw [show q.pc u = .waiting c' from hc]
        trivial
  · show (synch.sema_down m t).queue.Nodup
    rw [hqueue]
    exact (List.nodup_cons.mp he.nodup).2
  · show u ∈ (synch.sema_down m t).queue ↔ _
    rw [hqueue]
    by_cases hut : u = t
    · rw [hut, pc_at_point_self]
      exact iff_of_false (List.nodup_cons.mp he.nodup).1 fun hf => hf
    · rw [pc_at_point_of_ne hut]
      exact he.queue u hut

end Enters

namespace Threads

variable {q : intq} {t : ℕ} {c : call} {k : condition}

/-- Behind `lock_release`. -/
theorem release (h : Threads q) (hp : q.pc t = .woken c) :
    Threads ({ q with holder := none, semaphore := synch.sema_up q.semaphore }.at_point t
      (.looping c)) := by
  have hholder : q.holder = some t := (h.holder t).mpr (by rw [hp]; trivial)
  have hval : q.semaphore.sema.value = 0 := by rw [h.free, hholder]; rfl
  have hperm := sema_state.queue_sema_up (s := q.semaphore)
  have hothers : ∀ u, u ≠ t → ¬ (q.pc u).Owns := by
    intro u hut hu
    have := (h.holder u).mpr hu
    rw [hholder] at this
    exact hut (Option.some.inj this).symm
  refine ⟨h.counted.sema_up, ?_, fun u => ?_, fun k u => ?_,
    hperm.nodup_iff.mpr h.nodup, fun u => ?_⟩
  · show (synch.sema_up q.semaphore).sema.value = 1
    obtain ⟨hwake, -⟩ := h.counted.sema_up_wake_spec
    show ((synch.sema_up_wake q.semaphore).sema.value + 1) % 2 ^ 32 = 1
    rw [hwake, hval]
    rfl
  · refine iff_of_false (fun hu => by cases hu) ?_
    by_cases hut : u = t
    · rw [hut, pc_at_point_self]
      exact fun hf => hf
    · rw [pc_at_point_of_ne hut]
      exact hothers u hut
  · by_cases hut : u = t
    · rw [hut, pc_at_point_self]
      refine iff_of_false (fun hu => ?_) (by simp)
      obtain ⟨c', hc, -⟩ := (h.waiter k t).mp hu
      rw [hp] at hc
      cases hc
    · rw [pc_at_point_of_ne hut]
      exact h.waiter k u
  · show u ∈ (synch.sema_up q.semaphore).queue ↔ _
    rw [hperm.mem_iff, h.queue u]
    by_cases hut : u = t
    · rw [hut, pc_at_point_self, hp]
      exact Iff.rfl
    · rw [pc_at_point_of_ne hut]

/-- Behind `thread_unblock` in `signal`. -/
theorem unblock (h : Threads q) (hp : q.pc t = .waiting c) :
    Threads ((q.at_point t (.woken c)).set_waiter c.needs none) := by
  have hown : (q.pc t).Owns := by rw [hp]; trivial
  have hholder := (h.holder t).mpr hown
  refine ⟨h.counted, h.free, fun u => ?_, fun k u => ?_, h.nodup, fun u => ?_⟩
  · show q.holder = some u ↔ ((q.at_point t (.woken c)).pc u).Owns
    by_cases hut : u = t
    · rw [hut, pc_at_point_self]
      exact iff_of_true hholder trivial
    · rw [pc_at_point_of_ne hut]
      exact h.holder u
  · show Function.update q.waiter c.needs none k = some u ↔ ∃ c',
      (q.at_point t (.woken c)).pc u = _ ∧ _
    by_cases hut : u = t
    · rw [hut, pc_at_point_self]
      refine iff_of_false (fun hu => ?_) (by simp)
      by_cases hk : k = c.needs
      · rw [hk, Function.update_self] at hu
        cases hu
      · rw [Function.update_of_ne hk] at hu
        obtain ⟨c', hc', hneeds⟩ := (h.waiter k t).mp hu
        rw [hp] at hc'
        rw [point.waiting.inj hc'] at hk
        exact hk hneeds.symm
    · -- the thread that sleeps is the holder, so there is no other
      rw [pc_at_point_of_ne hut]
      refine iff_of_false (fun hu => ?_) ?_
      · by_cases hk : k = c.needs
        · rw [hk, Function.update_self] at hu
          cases hu
        · rw [Function.update_of_ne hk] at hu
          obtain ⟨c', hc', -⟩ := (h.waiter k u).mp hu
          have hu' := (h.holder u).mpr (by rw [hc']; trivial)
          exact hut (Option.some.inj (hu'.symm.trans hholder))
      · rintro ⟨c', hc', -⟩
        have hu' := (h.holder u).mpr (by rw [show q.pc u = _ from hc']; trivial)
        exact hut (Option.some.inj (hu'.symm.trans hholder))
  · show u ∈ q.semaphore.queue ↔ ((q.at_point t (.woken c)).pc u).Acquires
    by_cases hut : u = t
    · rw [hut, pc_at_point_self, h.queue t, hp]
      exact Iff.rfl
    · rw [pc_at_point_of_ne hut]
      exact h.queue u

end Threads

/-! ### Signals -/

/-- The buffer and the ghosts of the two are the same. -/
structure SameBytes (q q' : intq) : Prop where
  buf : q'.buf = q.buf
  head : q'.head = q.head
  tail : q'.tail = q.tail
  added : q'.added = q.added
  removed : q'.removed = q.removed

namespace SameBytes

variable {q q' : intq}

theorem refl (q : intq) : SameBytes q q := ⟨rfl, rfl, rfl, rfl, rfl⟩

theorem bytes (h : SameBytes q q') : q'.bytes = q.bytes := by
  rw [intq.bytes, h.buf, h.head, h.tail]
  rfl

theorem holds (h : SameBytes q q') (k : condition) : Holds q' k ↔ Holds q k := by
  cases k with
  | not_full => rw [Holds, Holds, intq_full, intq_full, h.head, h.tail]
  | not_empty => rw [Holds, Holds, intq_empty, intq_empty, h.head, h.tail]

theorem fifo (h : SameBytes q q') : Fifo q' ↔ Fifo q := by
  rw [Fifo, Fifo, h.bytes, h.added, h.removed]

end SameBytes

variable {q q' : intq} {t u : ℕ} {c : call} {k : condition} {who : Option ℕ} {byte : UInt8}

/-- What `signal` does to the threads: the one that sleeps for the condition is awake. -/
structure Signalled (k : condition) (q q' : intq) : Prop where
  same : SameBytes q q'
  threads : Threads q'
  woken : ∀ t, q.waiter k = some t → ∃ c, q.pc t = .waiting c ∧ q'.pc t = .woken c
  others : ∀ t, q.waiter k ≠ some t → q'.pc t = q.pc t

theorem signal_spec (h : Threads q) (hk : Holds q k) : ∃ q', signal q k = .ok q'
    ∧ Signalled k q q' := by
  unfold signal
  rw [Outcome.assert_pos hk, Outcome.ok_bind]
  cases hw : q.waiter k with
  | none =>
      refine ⟨q, rfl, SameBytes.refl q, h, fun t ht => ?_, fun t _ => rfl⟩
      rw [hw] at ht
      cases ht
  | some w =>
      obtain ⟨c, hc, rfl⟩ := (h.waiter k w).mp hw
      refine ⟨(q.at_point w (.woken c)).set_waiter c.needs none, ?_, ⟨rfl, rfl, rfl, rfl, rfl⟩,
        h.unblock hc, fun t ht => ?_, fun t ht => ?_⟩
      · simp only [thread_unblock, hc]
        rfl
      · rw [hw] at ht
        obtain rfl := Option.some.inj ht
        exact ⟨c, hc, pc_at_point_self⟩
      · rw [hw] at ht
        exact pc_at_point_of_ne fun htw => ht (congrArg some htw.symm)

/-- Behind a `signal` nobody sleeps for a condition that is true, when there was no reason to
before but for `k`. -/
theorem Signalled.asleep (hs : Signalled k q q') (h : Threads q)
    (hother : ∀ t c, q.pc t = .waiting c → c.needs ≠ k → ¬ Holds q c.needs) : Asleep q' := by
  intro t c hc
  rw [hs.same.holds]
  by_cases hw : q.waiter k = some t
  · obtain ⟨c', -, hc'⟩ := hs.woken t hw
    rw [hc] at hc'
    cases hc'
  · rw [hs.others t hw] at hc
    refine hother t c hc fun hk => hw ?_
    exact (h.waiter k t).mpr ⟨c, hc, hk⟩

/-! ### The two calls -/

/-- A full queue is not empty. -/
theorem not_empty_of_full (h : intq_full q) : ¬ intq_empty q := by
  intro he
  have hnil : q.bytes = [] := RingBuffer.contents_eq_nil.mpr he
  have hlen : q.bytes.length + 1 = INTQ_BUFSIZE := RingBuffer.next_head_eq_tail.mp h
  rw [hnil] at hlen
  cases hlen

/-- The state between taking a byte and `signal`. -/
def popped (q : intq) (who : Option ℕ) : intq :=
  { q with tail := RingBuffer.next q.tail, removed := q.removed ++ [(who, q.buf q.tail)] }

/-- The state between storing a byte and `signal`. -/
def pushed (q : intq) (who : Option ℕ) (byte : UInt8) : intq :=
  { q with
    buf := Function.update q.buf q.head byte
    head := RingBuffer.next q.head
    added := q.added ++ [(who, byte)] }

/-- The state of the queue in front of `signal`. -/
def moved (q : intq) (who : Option ℕ) : call → intq
  | .intq_getc => popped q who
  | .intq_putc byte => pushed q who byte

theorem finish_eq : finish q who c = signal (moved q who c) c.gives := by
  cases c with
  | intq_getc => rfl
  | intq_putc byte => rfl

theorem Threads.moved (h : Threads q) (who : Option ℕ) (c : call) : Threads (moved q who c) := by
  cases c with
  | intq_getc => exact ⟨h.counted, h.free, h.holder, h.waiter, h.nodup, h.queue⟩
  | intq_putc byte => exact ⟨h.counted, h.free, h.holder, h.waiter, h.nodup, h.queue⟩

/-- The bytes of the queue behind the call. -/
theorem bytes_popped (who : Option ℕ) (hk : ¬ intq_empty q) :
    q.bytes = q.buf q.tail :: (popped q who).bytes :=
  RingBuffer.contents_pop hk

theorem bytes_pushed (hk : ¬ intq_full q) : (pushed q who byte).bytes = q.bytes ++ [byte] :=
  RingBuffer.contents_push hk byte

/-- Behind the call there is something to signal. -/
theorem holds_moved (who : Option ℕ) (hk : Holds q c.needs) : Holds (moved q who c) c.gives := by
  have hlt : q.bytes.length < INTQ_BUFSIZE := RingBuffer.length_contents_lt
  cases c with
  | intq_getc =>
      intro hf
      have hfull : (popped q who).bytes.length + 1 = INTQ_BUFSIZE :=
        RingBuffer.next_head_eq_tail.mp hf
      rw [bytes_popped who hk, List.length_cons] at hlt
      omega
  | intq_putc byte =>
      intro he
      have hnil : (pushed q who byte).bytes = [] := RingBuffer.contents_eq_nil.mpr he
      rw [bytes_pushed hk] at hnil
      simp at hnil

theorem Fifo.moved (h : Fifo q) (hk : Holds q c.needs) : Fifo (moved q who c) := by
  unfold Fifo at h ⊢
  cases c with
  | intq_getc =>
      show (q.removed ++ [(who, q.buf q.tail)]).map Prod.snd ++ (popped q who).bytes
        = q.added.map Prod.snd
      rw [← h, bytes_popped who hk]
      simp
  | intq_putc byte =>
      show q.removed.map Prod.snd ++ (pushed q who byte).bytes
        = (q.added ++ [(who, byte)]).map Prod.snd
      rw [bytes_pushed hk, ← List.append_assoc, h]
      simp

/-- **`intq_getc` and `intq_putc`** behind their loop. -/
theorem finish_spec (h : Sound q) (who : Option ℕ) (hk : Holds q c.needs) :
    ∃ q', finish q who c = .ok q' ∧ Sound q' ∧ Signalled c.gives (moved q who c) q' := by
  rw [finish_eq]
  obtain ⟨q', hq', hs⟩ := signal_spec (h.threads.moved who c) (holds_moved who hk)
  refine ⟨q', hq', ⟨hs.threads, hs.asleep (h.threads.moved who c) fun t c' hc' hne => ?_, ?_⟩, hs⟩
  · -- a thread that slept for what the call needed would sleep for a true condition
    have hpc : q.pc t = .waiting c' := by
      cases c with
      | intq_getc => exact hc'
      | intq_putc byte => exact hc'
    have hneeds : c'.needs = c.needs := by
      cases c with
      | intq_getc =>
          cases c' with
          | intq_getc => rfl
          | intq_putc byte => exact absurd rfl hne
      | intq_putc byte =>
          cases c' with
          | intq_getc => exact absurd rfl hne
          | intq_putc byte => rfl
    exact absurd (hneeds ▸ hk) (h.asleep t c' hpc)
  · exact hs.same.fifo.mpr (h.fifo.moved hk)

theorem Sound.at_outside (h : Sound q) (hown : ¬ (q.pc t).Owns) (hacq : ¬ (q.pc t).Acquires) :
    Sound (q.at_point t .outside) := by
  refine ⟨h.threads.at_idle hown hacq (fun hf => hf) fun hf => hf, fun u c hc => ?_, h.fifo⟩
  rw [holds_at_point]
  by_cases hut : u = t
  · rw [hut, pc_at_point_self] at hc
    cases hc
  · rw [pc_at_point_of_ne hut] at hc
    exact h.asleep u c hc

/-- What a call does that has to wait: nothing to the bytes and to the other threads. -/
structure Blocked (t : ℕ) (c : call) (q q' : intq) : Prop where
  same : SameBytes q q'
  point : q'.pc t = if q.semaphore.sema.value = 0 then .acquiring c else .waiting c
  others : ∀ u, u ≠ t → q'.pc u = q.pc u

/-- **`lock_acquire` and `wait`.** The assertion of `wait` fails if the lock is there and the
condition has become true. -/
theorem sema_down_spec {m : sema_state} (h : Sound q) (he : Enters q t m) :
    (q.semaphore.sema.value ≠ 0 → Holds q c.needs
      → sema_down { q with semaphore := m } t c = .panic)
    ∧ ((q.semaphore.sema.value ≠ 0 → ¬ Holds q c.needs) →
      ∃ q', sema_down { q with semaphore := m } t c = .ok q' ∧ Sound q' ∧ Blocked t c q q') := by
  have hvalue : ({ q with semaphore := m } : intq).semaphore.sema.value
      = q.semaphore.sema.value := he.value
  unfold sema_down
  rw [hvalue]
  constructor
  · intro hpos hk
    rw [if_neg hpos, wait, Outcome.assert_neg, Outcome.panic_bind]
    rw [not_not]
    cases hc : c.needs with
    | not_full =>
        rw [hc] at hk
        exact hk
    | not_empty =>
        rw [hc] at hk
        exact hk
  · intro hk
    by_cases hzero : q.semaphore.sema.value = 0
    · rw [if_pos hzero]
      refine ⟨_, rfl, ⟨he.sleep h.threads hzero, fun u c' hc => ?_, h.fifo⟩,
        ⟨rfl, rfl, rfl, rfl, rfl⟩,
        by rw [if_pos hzero, pc_at_point_self], fun u hut => pc_at_point_of_ne hut⟩
      rw [holds_at_point]
      have hsame : SameBytes q { q with semaphore := synch.sema_down m t } :=
        ⟨rfl, rfl, rfl, rfl, rfl⟩
      rw [hsame.holds]
      by_cases hut : u = t
      · rw [hut, pc_at_point_self] at hc
        cases hc
      · rw [pc_at_point_of_ne hut] at hc
        exact h.asleep u c' hc
    · have hsame : SameBytes q { q with semaphore := synch.sema_down m t, holder := some t } :=
        ⟨rfl, rfl, rfl, rfl, rfl⟩
      rw [if_neg hzero, wait, Outcome.assert_pos (by rw [hsame.holds]; exact hk hzero),
        Outcome.ok_bind]
      refine ⟨_, rfl, ⟨he.wait h.threads hzero, fun u c' hc => ?_, h.fifo⟩,
        ⟨rfl, rfl, rfl, rfl, rfl⟩,
        by rw [if_neg hzero, pc_at_point_self], fun u hut => pc_at_point_of_ne hut⟩
      rw [holds_at_point]
      have hsame' : SameBytes q ({ q with semaphore := synch.sema_down m t, holder := some t }.set_waiter
          c.needs (some t)) := ⟨rfl, rfl, rfl, rfl, rfl⟩
      rw [hsame'.holds]
      by_cases hut : u = t
      · rw [hut, pc_at_point_self] at hc
        rw [← point.waiting.inj hc]
        exact hk hzero
      · rw [pc_at_point_of_ne hut] at hc
        exact h.asleep u c' hc

/-- **A call from the test of its loop on.** -/
theorem thread_call_spec (h : Sound q) (hown : ¬ (q.pc t).Owns)
    (hacq : ¬ (q.pc t).Acquires) (c : call) : ∃ q', thread_call q t c = .ok q' ∧ Sound q'
      ∧ (Holds q c.needs → Signalled c.gives (moved (q.at_point t .outside) (some t) c) q')
      ∧ (¬ Holds q c.needs → Blocked t c q q') := by
  unfold thread_call
  by_cases hk : Holds q c.needs
  · rw [if_pos hk]
    obtain ⟨q', hq', hsound, hs⟩ := finish_spec (c := c) (h.at_outside hown hacq) (some t)
      (holds_at_point.mpr hk)
    exact ⟨q', hq', hsound, fun _ => hs, fun hn => absurd hk hn⟩
  · have hne : q.holder ≠ some t := fun hf => hown ((h.threads.holder t).mp hf)
    rw [if_neg hk, lock_acquire, Outcome.assert_pos hne, Outcome.ok_bind]
    obtain ⟨q', hq', hsound, hb⟩ := (sema_down_spec h (h.threads.enters hown hacq)).2 fun _ => hk
    exact ⟨q', hq', hsound, fun hp => absurd hp hk, fun _ => hb⟩

theorem lock_release_spec (h : Sound q) (hp : q.pc t = .woken c) :
    ∃ q', lock_release q t c = .ok q' ∧ Sound q' ∧ SameBytes q q' ∧ q'.pc t = .looping c
      ∧ ∀ u, u ≠ t → q'.pc u = q.pc u := by
  have hholder : q.holder = some t := (h.threads.holder t).mpr (by rw [hp]; trivial)
  unfold lock_release
  rw [Outcome.assert_pos hholder, Outcome.ok_bind]
  refine ⟨_, rfl, ⟨h.threads.release hp, fun u c' hc => ?_, h.fifo⟩, ⟨rfl, rfl, rfl, rfl, rfl⟩,
    pc_at_point_self, fun u hut => pc_at_point_of_ne hut⟩
  rw [holds_at_point]
  have hsame : SameBytes q { q with holder := none, semaphore := synch.sema_up q.semaphore } :=
    ⟨rfl, rfl, rfl, rfl, rfl⟩
  rw [hsame.holds]
  by_cases hut : u = t
  · rw [hut, pc_at_point_self] at hc
    cases hc
  · rw [pc_at_point_of_ne hut] at hc
    exact h.asleep u c' hc

/-! ### What a step does to the bytes -/

/-- The calls the threads are in. -/
def Calls (q : intq) (p : call → Prop) : Prop := ∀ u c, (q.pc u).call? = some c → p c

/-- A step in a call: it completes, or the thread is on the way and the bytes are as before. -/
def Advances (t : ℕ) (c : call) (q q' : intq) : Prop :=
  (q'.pc t = .outside ∧ Holds q c.needs ∧ SameBytes (moved q (some t) c) q')
    ∨ (q'.pc t ≠ .outside ∧ SameBytes q q')

variable {p : call → Prop}

theorem moved_pc (q : intq) (who : Option ℕ) (c : call) : (moved q who c).pc = q.pc := by
  cases c with
  | intq_getc => rfl
  | intq_putc byte => rfl

theorem Signalled.calls (hs : Signalled k (moved q who c) q') (h : Calls q p) : Calls q' p := by
  intro u c' hc'
  by_cases hw : (moved q who c).waiter k = some u
  · obtain ⟨d, hd, hd'⟩ := hs.woken u hw
    rw [hd'] at hc'
    rw [moved_pc] at hd
    refine h u c' ?_
    rw [hd]
    exact hc'
  · rw [hs.others u hw, moved_pc] at hc'
    exact h u c' hc'

theorem Calls.at_outside (h : Calls q p) : Calls (q.at_point t .outside) p := by
  intro u c' hc'
  by_cases hut : u = t
  · rw [hut, pc_at_point_self] at hc'
    cases hc'
  · rw [pc_at_point_of_ne hut] at hc'
    exact h u c' hc'

theorem Blocked.calls (hb : Blocked t c q q') (h : Calls q p) (hc : p c) : Calls q' p := by
  intro u c' hc'
  by_cases hut : u = t
  · rw [hut, hb.point] at hc'
    split at hc'
    · obtain rfl := Option.some.inj hc'
      exact hc
    · obtain rfl := Option.some.inj hc'
      exact hc
  · rw [hb.others u hut] at hc'
    exact h u c' hc'

theorem Blocked.ne_outside (hb : Blocked t c q q') : q'.pc t ≠ .outside := by
  rw [hb.point]
  split
  · simp
  · simp

/-- **A call of a thread** that does not have to wait. -/
theorem thread_call_done (h : Sound q) (hown : ¬ (q.pc t).Owns) (hacq : ¬ (q.pc t).Acquires)
    (hk : Holds q c.needs) (hok : thread_call q t c = .ok q') :
    Sound q' ∧ q'.pc t = .outside ∧ SameBytes (moved q (some t) c) q'
      ∧ (Calls q p → Calls q' p) := by
  obtain ⟨q'', hq'', hsound, hyes, -⟩ := thread_call_spec h hown hacq c
  rw [hok] at hq''
  obtain rfl := Outcome.ok.inj hq''
  have hs := hyes hk
  refine ⟨hsound, ?_, ?_, fun hcalls => hs.calls hcalls.at_outside⟩
  · by_cases hw : (moved (q.at_point t .outside) (some t) c).waiter c.gives = some t
    · obtain ⟨d, hd, -⟩ := hs.woken t hw
      rw [moved_pc, pc_at_point_self] at hd
      cases hd
    · rw [hs.others t hw, moved_pc, pc_at_point_self]
  · have hsame := hs.same
    cases c with
    | intq_getc => exact ⟨hsame.buf, hsame.head, hsame.tail, hsame.added, hsame.removed⟩
    | intq_putc byte => exact ⟨hsame.buf, hsame.head, hsame.tail, hsame.added, hsame.removed⟩

/-- **A call of a thread**, whether it has to wait or not. -/
theorem thread_call_advances (h : Sound q) (hown : ¬ (q.pc t).Owns) (hacq : ¬ (q.pc t).Acquires)
    (hok : thread_call q t c = .ok q') :
    Sound q' ∧ Advances t c q q' ∧ (Calls q p → p c → Calls q' p) := by
  by_cases hk : Holds q c.needs
  · obtain ⟨hsound, hout, hsame, hcalls⟩ := thread_call_done (p := p) h hown hacq hk hok
    exact ⟨hsound, .inl ⟨hout, hk, hsame⟩, fun hq _ => hcalls hq⟩
  · obtain ⟨q'', hq'', hsound, -, hno⟩ := thread_call_spec h hown hacq c
    rw [hok] at hq''
    obtain rfl := Outcome.ok.inj hq''
    have hb := hno hk
    exact ⟨hsound, .inr ⟨hb.ne_outside, hb.same⟩, fun hcalls hc => hb.calls hcalls hc⟩

/-- **A thread goes on.** -/
theorem resume_advances (h : Sound q) (hready : Ready q t) (hok : resume q t = .ok q') :
    ∃ c, (q.pc t).call? = some c ∧ Sound q' ∧ Advances t c q q' ∧ (Calls q p → Calls q' p) := by
  unfold Ready at hready
  unfold resume at hok
  cases hp : q.pc t with
  | outside =>
      rw [hp] at hready
      exact hready.elim
  | waiting c =>
      rw [hp] at hready
      exact hready.elim
  | acquiring c =>
      rw [hp] at hready hok
      refine ⟨c, rfl, ?_⟩
      have hspec := sema_down_spec (c := c) h (h.threads.reenters hready hp)
      have hno : q.semaphore.sema.value ≠ 0 → ¬ Holds q c.needs := by
        intro hpos hk
        rw [show sema_down _ t c = .ok q' from hok] at hspec
        cases hspec.1 hpos hk
      obtain ⟨q'', hq'', hsound, hb⟩ := hspec.2 hno
      rw [show sema_down _ t c = .ok q' from hok] at hq''
      obtain rfl := Outcome.ok.inj hq''
      refine ⟨hsound, .inr ⟨hb.ne_outside, hb.same⟩, fun hcalls => hb.calls hcalls ?_⟩
      exact hcalls t c (by rw [hp]; rfl)
  | woken c =>
      rw [hp] at hok
      refine ⟨c, rfl, ?_⟩
      obtain ⟨q'', hq'', hsound, hsame, hloop, hothers⟩ := lock_release_spec h hp
      rw [show lock_release q t c = .ok q' from hok] at hq''
      obtain rfl := Outcome.ok.inj hq''
      refine ⟨hsound, .inr ⟨by rw [hloop]; simp, hsame⟩, fun hcalls u c' hc' => ?_⟩
      by_cases hut : u = t
      · rw [hut, hloop] at hc'
        refine hcalls t c' ?_
        rw [hp]
        exact hc'
      · rw [hothers u hut] at hc'
        exact hcalls u c' hc'
  | looping c =>
      rw [hp] at hok
      refine ⟨c, rfl, ?_⟩
      obtain ⟨hsound, hadv, hcalls⟩ :=
        thread_call_advances (p := p) h (by rw [hp]; exact id) (by rw [hp]; exact id) hok
      exact ⟨hsound, hadv, fun hq => hcalls hq (hq t c (by rw [hp]; rfl))⟩

/-- **A call of a handler.** -/
theorem handler_call_advances (h : Sound q) (hok : handler_call q c = .ok q') :
    Sound q' ∧ Holds q c.needs ∧ SameBytes (moved q none c) q' ∧ (Calls q p → Calls q' p) := by
  obtain ⟨_, hk, hfin⟩ := Outcome.bind_eq_ok.mp hok
  have hholds := Outcome.assert_eq_ok.mp hk
  obtain ⟨q'', hq'', hsound, hs⟩ := finish_spec h none hholds
  rw [hfin] at hq''
  obtain rfl := Outcome.ok.inj hq''
  exact ⟨hsound, hholds, hs.same, fun hcalls => hs.calls hcalls⟩

end Pintos.devices
