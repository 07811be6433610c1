/-
`devices/disk.c`: what many threads at one channel get.

`Disk.lean` has `disk_read` and `disk_write` as the file system uses them: one after the other, and
a read returns what the last write stored. Here the channel is shown to serve its calls just so,
however its threads, its handler and its disks interleave.
-/
import Pintos.Devices.Channel
import Pintos.Devices.Disk

set_option autoImplicit false

namespace Pintos.devices

/-! ## One call after the other -/

/-- A call of `Disk.lean` on one of the two disks. -/
def serve (D : Fin 2 → disk) : disk_call Bytes → Outcome ((Fin 2 → disk) × Bytes)
  | .disk_read dev sec => do
      let b ← Pintos.disk_read (D dev) sec
      return (D, b)
  | .disk_write dev sec b => do
      let d ← Pintos.disk_write (D dev) sec b
      return (Function.update D dev d, b)

/-- The calls, one after the other, have these answers and leave these disks. -/
inductive Served (D₀ : Fin 2 → disk) : List (ℕ × disk_call Bytes × Bytes) → (Fin 2 → disk) → Prop
  | init : Served D₀ [] D₀
  | call {l : List (ℕ × disk_call Bytes × Bytes)} {D D' : Fin 2 → disk} {t : ℕ}
        {c : disk_call Bytes} {b : Bytes}
      (h : Served D₀ l D) (hserve : serve D c = .ok (D', b)) : Served D₀ (l ++ [(t, c, b)]) D'

/-- The sectors of two disks. -/
def media (D : Fin 2 → disk) : sectors Bytes := fun dev => (D dev).sectors

theorem serve_read {D : Fin 2 → disk} {dev : Fin 2} {sec : ℕ} (h : select_sector (D dev) sec) :
    serve D (.disk_read dev sec) = .ok (D, (D dev).sectors sec) := by
  rw [serve, disk_read_ok h]
  rfl

theorem serve_write {D : Fin 2 → disk} {dev : Fin 2} {sec : ℕ}
    (h : select_sector (D dev) sec) (b : Bytes) :
    serve D (.disk_write dev sec b) = .ok (Function.update D dev ((D dev).put sec b), b) := by
  rw [serve, disk_write_ok h]
  rfl

theorem media_write (D : Fin 2 → disk) (dev : Fin 2) (sec : ℕ) (b : Bytes) :
    media (Function.update D dev ((D dev).put sec b)) = store (media D) dev sec b := by
  funext d
  unfold media store
  by_cases hd : d = dev
  · rw [hd, Function.update_self, Function.update_self]
    rfl
  · rw [Function.update_of_ne hd, Function.update_of_ne hd]

/-! ## The registers -/

theorem reg_device_spec (dev : Fin 2) (k : Fin 16) :
    (0xa0 ||| 0x40 ||| (if dev = 1 then 0x10 else 0) ||| k.val) % 2 ^ 8 / 16 % 2 = dev.val
      ∧ (0xa0 ||| 0x40 ||| (if dev = 1 then 0x10 else 0) ||| k.val) % 2 ^ 8 % 16 = k.val := by
  decide +revert +kernel

/-- **The registers name the sector** that was asked for, while its number has at most 28 bits. -/
theorem selected_sector_registers (dev : Fin 2) {sec : ℕ} (h : sec < 2 ^ 28) :
    selected_device (sector_registers dev sec) = dev
      ∧ selected_sector (sector_registers dev sec) = sec := by
  have hk : sec / 2 ^ 24 < 16 := by omega
  obtain ⟨hdev, hlow⟩ := reg_device_spec dev ⟨sec / 2 ^ 24, hk⟩
  constructor
  · unfold selected_device sector_registers
    dsimp only at hdev ⊢
    rw [hdev]
    have hnumber : ∀ d : Fin 2, (if d.val = 1 then 1 else 0) = d := by decide
    exact hnumber dev
  · unfold selected_sector sector_registers
    dsimp only at hlow ⊢
    rw [hlow]
    omega

/-! ## What holds at every point -/

/-- What the driver and the disks see of each other. -/
structure wires where
  phase : ata_phase Bytes
  intrq : Bool
  /-- The value of `completion_wait`. -/
  units : ℕ
  contents : sectors Bytes
  regs : registers

def channel.wires (s : channel Bytes) : wires :=
  ⟨s.phase, s.intrq, s.completion_wait.sema.value, s.contents, s.regs⟩

namespace wires

/-- The disk is at `p`, and no interrupt is under way. -/
def Rests (w : wires) (p : ata_phase Bytes) (contents : sectors Bytes) : Prop :=
  w.phase = p ∧ w.contents = contents ∧ w.intrq = false ∧ w.units = 0

/-- The disk is at `p`, and the interrupt is under way: the handler has not seen it, or `sema_down`
has not. -/
def Reports (w : wires) (p : ata_phase Bytes) (contents : sectors Bytes) : Prop :=
  w.phase = p ∧ w.contents = contents ∧ (w.intrq = true ∧ w.units = 0 ∨ w.intrq = false
    ∧ w.units = 1)

/-- What the thread with the lock relies on in `disk_read`. -/
def AtRead (w : wires) (D : Fin 2 → disk) (dev : Fin 2) (sec : ℕ) : stage Bytes → Prop
  | .lock_acquire => False
  | .select_sector _ => w.Rests .idle (media D)
  | .issue_pio_command => select_sector (D dev) sec ∧ w.Rests .idle (media D)
      ∧ selected_device w.regs = dev ∧ selected_sector w.regs = sec
  | .sema_down => select_sector (D dev) sec
      ∧ (w.Rests (.reading dev sec) (media D)
        ∨ w.Reports (.data_in ((D dev).sectors sec)) (media D))
  | .wait_while_busy _ => select_sector (D dev) sec
        ∧ w.Rests (.data_in ((D dev).sectors sec)) (media D)
  | .transfer => select_sector (D dev) sec ∧ w.Rests (.data_in ((D dev).sectors sec)) (media D)
  | .lock_release b => select_sector (D dev) sec ∧ w.Rests .idle (media D) ∧ b = (D dev).sectors sec

/-- What it relies on in `disk_write`. -/
def AtWrite (w : wires) (D : Fin 2 → disk) (dev : Fin 2) (sec : ℕ) (buffer : Bytes) :
    stage Bytes → Prop
  | .lock_acquire => False
  | .select_sector _ => w.Rests .idle (media D)
  | .issue_pio_command => select_sector (D dev) sec ∧ w.Rests .idle (media D)
      ∧ selected_device w.regs = dev ∧ selected_sector w.regs = sec
  | .wait_while_busy _ => select_sector (D dev) sec
      ∧ (w.Rests (.preparing dev sec) (media D) ∨ w.Rests (.data_out dev sec) (media D))
  | .transfer => select_sector (D dev) sec ∧ w.Rests (.data_out dev sec) (media D)
  | .sema_down => select_sector (D dev) sec
      ∧ (w.Rests (.writing dev sec buffer) (media D)
        ∨ w.Reports .idle (store (media D) dev sec buffer))
  | .lock_release b => select_sector (D dev) sec
        ∧ w.Rests .idle (store (media D) dev sec buffer) ∧ b = buffer

/-- What it relies on at each step of its call. -/
def At (w : wires) (D : Fin 2 → disk) : disk_call Bytes → stage Bytes → Prop
  | .disk_read dev sec => w.AtRead D dev sec
  | .disk_write dev sec b => w.AtWrite D dev sec b

end wires

/-- The call a thread is in. -/
def spot.unfinished (t : ℕ) : spot Bytes → List (ℕ × disk_call Bytes)
  | .outside => []
  | .inside c _ => [(t, c)]

/-- The finished reads of a disk, and its finished writes. -/
def reads (l : List (ℕ × disk_call Bytes × Bytes)) (dev : Fin 2) : ℕ :=
  l.countP fun x => match x.2.1 with
    | .disk_read d _ => d = dev
    | .disk_write _ _ _ => false

def writes (l : List (ℕ × disk_call Bytes × Bytes)) (dev : Fin 2) : ℕ :=
  l.countP fun x => match x.2.1 with
    | .disk_read _ _ => false
    | .disk_write d _ _ => d = dev

/-- **The invariant**: the disks are idle and as the finished calls leave them, or the thread with
the lock is in the middle of its call. -/
structure Driven (D₀ D : Fin 2 → disk) (s : channel Bytes) : Prop where
  fit : s.lock.Fit
  counted : synch.Counted 0 s.completion_wait
  expects : s.expecting_interrupt = true
  size : ∀ dev, s.capacity dev = (D dev).capacity
  served : Served D₀ s.finished D
  free : s.lock.holder = none → s.wires.Rests .idle (media D)
  held : ∀ t, s.lock.holder = some t → ∃ c st, s.spot t = .inside c st ∧ s.wires.At D c st
  others : ∀ t, s.lock.holder ≠ some t → s.spot t = .outside ∨ ∃ c,
    s.spot t = .inside c .lock_acquire
  waits : ∀ t, s.lock.Waits t → s.lock.holder ≠ some t ∧ s.spot t ≠ .outside
  /-- Only the thread with the lock sleeps in `sema_down` of `completion_wait`. -/
  sleeps : s.completion_wait.queue = [] ∨ ∃ t c, s.lock.holder = some t
    ∧ s.spot t = .inside c .sema_down ∧ s.completion_wait.queue = [t]
  calls : ∀ t, s.called.filter (·.1 = t)
    = (s.finished.filter (·.1 = t)).map (fun x => (x.1, x.2.1)) ++ (s.spot t).unfinished t
  counts : ∀ dev, s.read_cnt dev = reads s.finished dev ∧ s.write_cnt dev = writes s.finished dev

theorem channel_init_driven (priority : ℕ → ℤ) (D : Fin 2 → disk) :
    Driven D D (channel_init priority (fun dev => (D dev).capacity) (media D)) where
  fit := synch.lock.lock_init_fit priority
  counted := synch.Counted.init_counted (by decide) priority
  expects := rfl
  size _ := rfl
  served := .init
  free _ := ⟨rfl, rfl, rfl, rfl⟩
  held _ h := by cases h
  others _ _ := .inl rfl
  waits t h := by
    rcases h with h | h
    · cases h
    · cases h
  sleeps := .inl rfl
  calls _ := rfl
  counts _ := ⟨rfl, rfl⟩

/-! ## Steps of the thread with the lock -/

/-- Only the wires and the place of `t` are different. -/
structure Moved (t : ℕ) (s s' : channel Bytes) : Prop where
  lock : s'.lock = s.lock
  capacity : s'.capacity = s.capacity
  read_cnt : s'.read_cnt = s.read_cnt
  write_cnt : s'.write_cnt = s.write_cnt
  called : s'.called = s.called
  finished : s'.finished = s.finished
  spot : ∀ u, u ≠ t → s'.spot u = s.spot u

section Steps

variable {D₀ D : Fin 2 → disk} {s s' : channel Bytes} {t : ℕ} {c : disk_call Bytes}
  {old new : stage Bytes}

@[simp] theorem spot_at_spot_self {p : spot Bytes} : (s.at_spot t p).spot t = p :=
    Function.update_self _ _ _

theorem spot_at_spot_of_ne {p : spot Bytes} {u : ℕ} (h : u ≠ t) :
    (s.at_spot t p).spot u = s.spot u :=
  Function.update_of_ne h _ _

namespace Driven

/-- Where the thread with the lock is. -/
theorem at_old (h : Driven D₀ D s) (hholder : s.lock.holder = some t)
    (hspot : s.spot t = .inside c old) : s.wires.At D c old := by
  obtain ⟨c', st, hin, hat⟩ := h.held t hholder
  rw [hspot] at hin
  cases hin
  exact hat

/-- While the thread with the lock does not sleep, nobody does. -/
theorem queue_nil (h : Driven D₀ D s) (hholder : s.lock.holder = some t)
    (hawake : ¬ s.completion_wait.Waits t) : s.completion_wait.queue = [] := by
  rcases h.sleeps with hnil | ⟨u, c, hu, -, hqueue⟩
  · exact hnil
  · obtain rfl : t = u := Option.some.inj (hholder.symm.trans hu)
    refine absurd (synch.sema_state.mem_queue.mp ?_) hawake
    rw [hqueue]
    exact List.mem_singleton_self t

/-- The thread with the lock comes to another step of its call. -/
theorem moved (h : Driven D₀ D s) (hholder : s.lock.holder = some t)
    (hspot : s.spot t = .inside c old)
    (hmoved : Moved t s s') (hspot' : s'.spot t = .inside c new)
    (hexpects : s'.expecting_interrupt = true)
    (hcounted : synch.Counted 0 s'.completion_wait)
    (hsleeps : s'.completion_wait.queue = [] ∨ new = .sema_down ∧ s'.completion_wait.queue = [t])
    (hat : s'.wires.At D c new) : Driven D₀ D s' := by
  have hholder' : s'.lock.holder = some t := by rw [hmoved.lock, hholder]
  refine ⟨hmoved.lock ▸ h.fit, hcounted, hexpects, hmoved.capacity ▸ h.size,
    hmoved.finished ▸ h.served,
    fun hnone => ?_, fun u hu => ?_, fun u hu => ?_, fun u hu => ?_, ?_, fun u => ?_, fun dev => ?_⟩
  · rw [hholder'] at hnone
    cases hnone
  · obtain rfl : t = u := Option.some.inj (hholder'.symm.trans hu)
    exact ⟨c, new, hspot', hat⟩
  · have hut : u ≠ t := by
      rintro rfl
      exact hu hholder'
    rw [hmoved.spot u hut]
    exact h.others u (hmoved.lock ▸ hu)
  · rw [hmoved.lock] at hu ⊢
    obtain ⟨hne, hin⟩ := h.waits u hu
    have hut : u ≠ t := by
      rintro rfl
      exact hne hholder
    rw [hmoved.spot u hut]
    exact ⟨hne, hin⟩
  · rcases hsleeps with hnil | ⟨rfl, hqueue⟩
    · exact .inl hnil
    · exact .inr ⟨t, c, hholder', hspot', hqueue⟩
  · rw [hmoved.called, hmoved.finished, h.calls u]
    by_cases hut : u = t
    · rw [hut, hspot, hspot']
      rfl
    · rw [hmoved.spot u hut]
  · rw [hmoved.read_cnt, hmoved.write_cnt, hmoved.finished]
    exact h.counts dev

/-- The same, where only registers and the disk have changed before. -/
theorem goes (h : Driven D₀ D s) (hholder : s.lock.holder = some t)
    (hspot : s.spot t = .inside c old)
    (hawake : ¬ s.completion_wait.Waits t) (regs : registers) (phase : ata_phase Bytes)
    (intrq : Bool)
    (hat : wires.At ⟨phase, intrq, s.completion_wait.sema.value, s.contents, regs⟩ D c new) :
    Driven D₀ D ({ s with regs := regs, phase := phase, intrq := intrq }.goto t c new) :=
  h.moved hholder hspot ⟨rfl, rfl, rfl, rfl, rfl, rfl, fun _ hut => spot_at_spot_of_ne hut⟩
    spot_at_spot_self h.expects h.counted (.inl (h.queue_nil hholder hawake)) hat

/-- `select_sector`: the disk is idle, so that the wait for it is short. -/
theorem selects (h : Driven D₀ D s) (hholder : s.lock.holder = some t) {i : ℕ}
    (hspot : s.spot t = .inside c (.select_sector i)) (hawake : ¬ s.completion_wait.Waits t) :
    if c.sec_no < s.capacity c.dev ∧ c.sec_no < 2 ^ 28 then
      ∃ s', select_sector_turn s t c i = .ok s' ∧ Driven D₀ D s'
    else select_sector_turn s t c i = .panic := by
  have hat : s.wires.Rests .idle (media D) := by
    have h := h.at_old hholder hspot
    cases c with
    | disk_read dev sec => exact h
    | disk_write dev sec b => exact h
  obtain ⟨hphase, hcontents, hintrq, hunits⟩ := hat
  have hphase : s.phase = .idle := hphase
  unfold select_sector_turn
  by_cases hcapacity : c.sec_no < s.capacity c.dev
  · by_cases hbits : c.sec_no < 2 ^ 28
    · rw [if_pos ⟨hcapacity, hbits⟩, Outcome.assert_pos hcapacity, Outcome.assert_pos hbits]
      have hidle : s.phase.busy = false ∧ s.phase.request = false := by
        rw [hphase]
        exact ⟨rfl, rfl⟩
      have hselect : select_sector (D c.dev) c.sec_no := ⟨h.size c.dev ▸ hcapacity, hbits⟩
      have hregs := selected_sector_registers c.dev hbits
      refine ⟨{ s with regs := sector_registers c.dev c.sec_no, phase := s.phase, intrq := false }.goto t c
        .issue_pio_command, ?_, h.goes hholder hspot hawake _ s.phase _ ?_⟩
      · show (if s.phase.busy = false ∧ s.phase.request = false then _ else _) = _
        rw [if_pos hidle]
        rfl
      · cases c with
        | disk_read dev sec => exact ⟨hselect, ⟨hphase, hcontents, rfl, hunits⟩, hregs⟩
        | disk_write dev sec b => exact ⟨hselect, ⟨hphase, hcontents, rfl, hunits⟩, hregs⟩
    · rw [if_neg fun hboth => hbits hboth.2, Outcome.assert_pos hcapacity, Outcome.assert_neg hbits]
      rfl
  · rw [if_neg fun hboth => hcapacity hboth.1, Outcome.assert_neg hcapacity]
    rfl

/-- `issue_pio_command` starts the transfer that the call is about. -/
theorem issues (h : Driven D₀ D s) (hholder : s.lock.holder = some t)
    (hspot : s.spot t = .inside c .issue_pio_command) (hawake : ¬ s.completion_wait.Waits t) :
    ∃ s', issue_pio_command s t c = .ok s' ∧ Driven D₀ D s' := by
  have hat := h.at_old hholder hspot
  have hsame : ({ s with expecting_interrupt := true } : channel Bytes) = s := by
    rw [← h.expects]
  unfold issue_pio_command
  rw [hsame]
  dsimp only
  cases c with
  | disk_read dev sec =>
      obtain ⟨hselect, ⟨hphase, hcontents, hintrq, hunits⟩, hdev, hsec⟩ := hat
      have hphase : s.phase = .idle := hphase
      have hdev : selected_device s.regs = dev := hdev
      have hsec : selected_sector s.regs = sec := hsec
      rw [hphase, hdev, hsec]
      refine ⟨_, rfl, h.goes hholder hspot hawake s.regs _ s.intrq ⟨hselect,
        .inl ⟨rfl, hcontents, hintrq, hunits⟩⟩⟩
  | disk_write dev sec b =>
      obtain ⟨hselect, ⟨hphase, hcontents, hintrq, hunits⟩, hdev, hsec⟩ := hat
      have hphase : s.phase = .idle := hphase
      have hdev : selected_device s.regs = dev := hdev
      have hsec : selected_sector s.regs = sec := hsec
      rw [hphase, hdev, hsec]
      refine ⟨_, rfl, h.goes hholder hspot hawake s.regs _ s.intrq ⟨hselect,
        .inl ⟨rfl, hcontents, hintrq, hunits⟩⟩⟩

/-- `sema_down` of `completion_wait`, where `m` is the semaphore in front of the test. -/
theorem awaits (h : Driven D₀ D s) (hholder : s.lock.holder = some t)
    (hspot : s.spot t = .inside c .sema_down)
    {m : synch.sema_state} (hcounted : synch.Counted 0 (synch.sema_down m t))
    (hvalue : m.sema.value = s.completion_wait.sema.value) (hqueue : m.queue = []) :
    Driven D₀ D (await_completion { s with completion_wait := m } t c) := by
  have hat := h.at_old hholder hspot
  have hleft : (synch.sema_down m t).sema.value = s.completion_wait.sema.value - 1 := by
    rw [synch.Exclusive.value_sema_down, hvalue]
  unfold await_completion
  by_cases hzero : m.sema.value = 0
  · -- asleep
    have hunits : s.completion_wait.sema.value = 0 := hvalue ▸ hzero
    have hperm := synch.sema_state.queue_sleep hzero t
    rw [hqueue] at hperm
    have hwires : ({ s with completion_wait := synch.sema_down m t } : channel Bytes).wires
        = s.wires := by
      unfold channel.wires
      dsimp only
      rw [hleft, hunits]
    rw [if_pos hzero]
    refine h.moved hholder hspot ⟨rfl, rfl, rfl, rfl, rfl, rfl,
      fun _ _ => rfl⟩ hspot h.expects hcounted (.inr ⟨rfl, List.perm_singleton.mp hperm⟩) ?_
    rw [hwires]
    exact hat
  · -- the handler has seen the interrupt
    have hnil : (synch.sema_down m t).queue = [] :=
      (synch.sema_state.queue_take hzero t).trans hqueue
    have hawake : ∀ {p : ata_phase Bytes} {contents : sectors Bytes}, s.wires.Reports p contents →
        wires.Rests ⟨s.phase, s.intrq, (synch.sema_down m t).sema.value, s.contents,
          s.regs⟩ p contents := by
      rintro p contents ⟨hphase, hcontents, ⟨-, hunits⟩ | ⟨hintrq, hunits⟩⟩
      · exact absurd (hvalue.trans hunits) hzero
      · have hunits : s.completion_wait.sema.value = 1 := hunits
        refine ⟨hphase, hcontents, hintrq, ?_⟩
        dsimp only
        rw [hleft, hunits]
    have hawait : ∀ {p : ata_phase Bytes} {contents : sectors Bytes}, ¬ s.wires.Rests p contents :=
      fun hrests => hzero (hvalue.trans hrests.2.2.2)
    rw [if_neg hzero]
    cases c with
    | disk_read dev sec =>
        obtain ⟨hselect, hrests | hreports⟩ := hat
        · exact absurd hrests hawait
        · exact h.moved hholder hspot ⟨rfl, rfl, rfl, rfl, rfl, rfl,
            fun _ hut => spot_at_spot_of_ne hut⟩
            spot_at_spot_self h.expects hcounted (.inl hnil) ⟨hselect, hawake hreports⟩
    | disk_write dev sec b =>
        obtain ⟨hselect, hrests | hreports⟩ := hat
        · exact absurd hrests hawait
        · exact h.moved hholder hspot ⟨rfl, rfl, rfl, rfl, rfl, rfl,
            fun _ hut => spot_at_spot_of_ne hut⟩
            spot_at_spot_self h.expects hcounted (.inl hnil) ⟨hselect, hawake hreports, rfl⟩

/-- `wait_while_busy`: only a write can find the disk busy. -/
theorem polls (h : Driven D₀ D s) (hholder : s.lock.holder = some t) {i : ℕ}
    (hspot : s.spot t = .inside c (.wait_while_busy i)) (hawake : ¬ s.completion_wait.Waits t) :
    if s.phase.busy = true ∧ 3000 ≤ i + 1 then wait_while_busy_turn s t c i = .panic
    else ∃ s', wait_while_busy_turn s t c i = .ok s' ∧ Driven D₀ D s' := by
  have hat := h.at_old hholder hspot
  -- the disk waits for the transfer
  have hready : ∀ {p : ata_phase Bytes}, s.phase = p → p.busy = false → p.request = true →
      s.wires.At D c .transfer → ¬ (s.phase.busy = true ∧ 3000 ≤ i + 1)
        ∧ ∃ s', wait_while_busy_turn s t c i = .ok s' ∧ Driven D₀ D s' := by
    intro p hphase hbusy hrequest hnew
    unfold wait_while_busy_turn
    rw [hphase, if_pos hbusy, if_pos hrequest, hbusy]
    exact ⟨by simp, _, rfl, h.goes hholder hspot hawake s.regs s.phase s.intrq hnew⟩
  cases c with
  | disk_read dev sec =>
      obtain ⟨hgo, hok⟩ := hready hat.2.1 rfl rfl hat
      rw [if_neg hgo]
      exact hok
  | disk_write dev sec b =>
      obtain ⟨hselect, hrests | hrests⟩ := hat
      · have hphase : s.phase = .preparing dev sec := hrests.1
        have hturn : wait_while_busy_turn s t (.disk_write dev sec b) i
            = if i + 1 < 3000 then .ok (s.goto t (.disk_write dev sec b) (.wait_while_busy (i + 1)))
            else .panic := by
          unfold wait_while_busy_turn
          rw [hphase]
          rfl
        rw [hphase, hturn]
        by_cases hturns : i + 1 < 3000
        · rw [if_neg fun hboth => absurd hturns (Nat.not_lt.mpr hboth.2), if_pos hturns]
          exact ⟨_, rfl, h.goes hholder hspot hawake s.regs s.phase s.intrq
            ⟨hselect, .inl hrests⟩⟩
        · rw [if_pos ⟨rfl, Nat.not_lt.mp hturns⟩, if_neg hturns]
      · obtain ⟨hgo, hok⟩ := hready hrests.1 rfl rfl ⟨hselect, hrests⟩
        rw [if_neg hgo]
        exact hok

/-- `input_sector` and `output_sector`. -/
theorem transfers (h : Driven D₀ D s) (hholder : s.lock.holder = some t)
    (hspot : s.spot t = .inside c .transfer) (hawake : ¬ s.completion_wait.Waits t) :
    ∃ s', transfer s t c = .ok s' ∧ Driven D₀ D s' := by
  have hat := h.at_old hholder hspot
  unfold transfer
  cases c with
  | disk_read dev sec =>
      obtain ⟨hselect, hphase, hcontents, hintrq, hunits⟩ := hat
      have hphase : s.phase = .data_in ((D dev).sectors sec) := hphase
      rw [hphase]
      exact ⟨_, rfl, h.goes hholder hspot hawake s.regs _ s.intrq
        ⟨hselect, ⟨rfl, hcontents, hintrq, hunits⟩, rfl⟩⟩
  | disk_write dev sec b =>
      obtain ⟨hselect, hphase, hcontents, hintrq, hunits⟩ := hat
      have hphase : s.phase = .data_out dev sec := hphase
      rw [hphase]
      exact ⟨_, rfl, h.goes hholder hspot hawake s.regs _ s.intrq
        ⟨hselect, .inl ⟨rfl, hcontents, hintrq, hunits⟩⟩⟩

/-- The end of a call: it has done what `Disk.lean` says. -/
theorem leaves (h : Driven D₀ D s) (hholder : s.lock.holder = some t) {b : Bytes}
    (hspot : s.spot t = .inside c (.lock_release b)) (hawake : ¬ s.completion_wait.Waits t) :
    ∃ s' D', leave s t c b = .ok s' ∧ Driven D₀ D' s' := by
  have hat := h.at_old hholder hspot
  have hqueue := h.queue_nil hholder hawake
  obtain ⟨l, hl, hfit, hnone, hwaits⟩ := h.fit.release hholder
  -- all but the disks and the counters
  have hrest : ∀ {D' : Fin 2 → disk} {r w : Fin 2 → ℕ}, serve D c = .ok (D', b) →
      s.wires.Rests .idle (media D') → (∀ dev, (D' dev).capacity = (D dev).capacity) →
      (∀ dev, r dev = reads (s.finished ++ [(t, c, b)]) dev
        ∧ w dev = writes (s.finished ++ [(t, c, b)]) dev) →
      Driven D₀ D' (channel.at_spot { s with
        lock := l, finished := s.finished ++ [(t, c, b)], read_cnt := r, write_cnt :=
          w } t .outside) := by
    intro D' r w hserve hrests hsize hcounts
    refine ⟨hfit, h.counted, h.expects, fun dev => (h.size dev).trans (hsize dev).symm,
      h.served.call hserve,
      fun _ => hrests, fun u hu => ?_, fun u _ => ?_, fun u hu => ⟨?_, ?_⟩, .inl hqueue,
        fun u => ?_, hcounts⟩
    · have hu : l.holder = some u := hu
      rw [hnone] at hu
      cases hu
    · by_cases hut : u = t
      · rw [hut]
        exact .inl spot_at_spot_self
      · rw [spot_at_spot_of_ne hut]
        exact h.others u fun heq => hut (Option.some.inj (heq.symm.trans hholder))
    · show l.holder ≠ some u
      rw [hnone]
      exact nofun
    · obtain ⟨hne, hin⟩ := h.waits u ((hwaits u).mp hu)
      have hut : u ≠ t := by
        rintro rfl
        exact hne hholder
      rw [spot_at_spot_of_ne hut]
      exact hin
    · show s.called.filter _ = ((s.finished ++ [(t, c, b)]).filter _).map _ ++ _
      rw [h.calls u, List.filter_append, List.map_append]
      by_cases hut : u = t
      · rw [hut, spot_at_spot_self, hspot]
        simp [spot.unfinished]
      · rw [spot_at_spot_of_ne hut]
        simp [Ne.symm hut]
  unfold leave
  rw [hl]
  cases c with
  | disk_read dev sec =>
      obtain ⟨hselect, hrests, rfl⟩ := hat
      refine ⟨_, D, rfl, hrest (serve_read hselect) hrests (fun _ => rfl) fun d => ⟨?_, ?_⟩⟩
      · unfold reads
        rw [List.countP_append]
        by_cases hd : d = dev
        · rw [hd, Function.update_self, (h.counts dev).1]
          simp [reads]
        · rw [Function.update_of_ne hd, (h.counts d).1]
          simp [reads, Ne.symm hd]
      · unfold writes
        rw [List.countP_append]
        exact (h.counts d).2
  | disk_write dev sec buffer =>
      obtain ⟨hselect, hrests, rfl⟩ := hat
      rw [← media_write] at hrests
      refine ⟨_, _, rfl, hrest (serve_write hselect b) hrests (fun d => ?_) fun d => ⟨?_, ?_⟩⟩
      · by_cases hd : d = dev
        · rw [hd, Function.update_self]
          rfl
        · rw [Function.update_of_ne hd]
      · unfold reads
        rw [List.countP_append]
        exact (h.counts d).1
      · unfold writes
        rw [List.countP_append]
        by_cases hd : d = dev
        · rw [hd, Function.update_self, (h.counts dev).2]
          simp [writes]
        · rw [Function.update_of_ne hd, (h.counts d).2]
          simp [writes, Ne.symm hd]

/-! ## The other events -/

/-- A thread in `lock_acquire` gets the lock, and finds the disks idle. -/
theorem taken (h : Driven D₀ D s) (hspot : s.spot t = .inside c .lock_acquire)
    (hnone : s.lock.holder = none)
    {l : synch.lock} (hfit : l.Fit) (hholder : l.holder = some t)
    (hwaits : ∀ u, l.Waits u → u ≠ t ∧ s.lock.Waits u) :
    Driven D₀ D ({ s with lock := l }.goto t c (.select_sector 0)) := by
  have hqueue : s.completion_wait.queue = [] := by
    rcases h.sleeps with hnil | ⟨u, c', hu, -⟩
    · exact hnil
    · rw [hnone] at hu
      cases hu
  have hother : ∀ u, u ≠ t → ({ s with lock := l }.goto t c (.select_sector 0)).spot u
      = s.spot u := fun u hut =>
    spot_at_spot_of_ne hut
  refine ⟨hfit, h.counted, h.expects, h.size, h.served, fun hfree => ?_, fun u hu => ?_,
    fun u hu => ?_, fun u hu => ?_, .inl hqueue, fun u => ?_, h.counts⟩
  · have hfree : l.holder = none := hfree
    rw [hholder] at hfree
    cases hfree
  · obtain rfl : t = u := Option.some.inj (hholder.symm.trans hu)
    have hidle := h.free hnone
    refine ⟨c, .select_sector 0, spot_at_spot_self, ?_⟩
    cases c with
    | disk_read dev sec => exact hidle
    | disk_write dev sec b => exact hidle
  · have hut : u ≠ t := by
      rintro rfl
      exact hu hholder
    rw [hother u hut]
    exact h.others u (by simp [hnone])
  · obtain ⟨hut, hold⟩ := hwaits u hu
    rw [hother u hut]
    exact ⟨fun heq => hut (Option.some.inj (hholder.symm.trans heq)).symm, (h.waits u hold).2⟩
  · show s.called.filter _ = _ ++ (({ s with lock := l }.goto t c (.select_sector 0)).spot
      u).unfinished u
    rw [h.calls u]
    by_cases hut : u = t
    · rw [hut, hspot]
      show _ = _ ++ spot.unfinished t ((s.at_spot t _).spot t)
      rw [spot_at_spot_self]
      rfl
    · rw [hother u hut]
      rfl

/-- A thread sleeps in `lock_acquire`. -/
theorem asleep (h : Driven D₀ D s) (hspot : s.spot t = .inside c .lock_acquire)
    (hne : s.lock.holder ≠ some t)
    {l : synch.lock} (hfit : l.Fit) (hholder : l.holder = s.lock.holder)
    (hwaits : ∀ u, l.Waits u → u = t ∨ s.lock.Waits u) : Driven D₀ D { s with lock := l } := by
  refine ⟨hfit, h.counted, h.expects, h.size, h.served, fun hnone => h.free (hholder ▸ hnone),
    fun u hu => h.held u (hholder ▸ hu), fun u hu => h.others u (hholder ▸ hu), fun u hu => ?_, ?_,
      h.calls, h.counts⟩
  · show l.holder ≠ some u ∧ s.spot u ≠ .outside
    rw [hholder]
    rcases hwaits u hu with rfl | hold
    · exact ⟨hne, by simp [hspot]⟩
    · exact h.waits u hold
  · show _ ∨ ∃ u c, l.holder = some u ∧ _
    rw [hholder]
    exact h.sleeps

/-- `lock_acquire`. -/
theorem acquires (h : Driven D₀ D s) (hspot : s.spot t = .inside c .lock_acquire)
    (hout : ¬ s.lock.Waits t) (hne : s.lock.holder ≠ some t) :
    ∃ s', thread_step s t = .ok s' ∧ Driven D₀ D s' := by
  obtain ⟨l, hl, hfit, hcases⟩ := h.fit.acquire hout hne
  refine ⟨behind_lock { s with lock := l } t c, ?_, ?_⟩
  · unfold thread_step
    rw [hspot]
    dsimp only
    rw [hl]
    rfl
  · unfold behind_lock
    rcases hcases with ⟨hnone, hholder, hwaits⟩ | ⟨hsome, hholder, hwaits⟩
    · have hawake : ¬ l.Waits t := fun ht => hout ((hwaits t).mp ht)
      rw [if_neg hawake]
      refine h.taken hspot hnone hfit hholder fun u hu => ⟨?_, (hwaits u).mp hu⟩
      rintro rfl
      exact hawake hu
    · rw [if_pos ((hwaits t).mpr (.inl rfl))]
      exact h.asleep hspot hne hfit hholder fun u hu => (hwaits u).mp hu

/-- A woken thread in `lock_acquire`. -/
theorem relocks (h : Driven D₀ D s) (ht : t ∈ s.lock.semaphore.woken) :
    ∃ s', channel_step s (.relock t) = .ok s' ∧ Driven D₀ D s' := by
  have hwait : s.lock.Waits t := .inr ht
  obtain ⟨hne, hin⟩ := h.waits t hwait
  obtain ⟨c, hspot⟩ := (h.others t hne).resolve_left hin
  obtain ⟨hfit, hcases⟩ := h.fit.rechecked ht
  refine ⟨behind_lock { s with lock := s.lock.recheck t } t c, ?_, ?_⟩
  · rw [channel_step, hspot]
  · unfold behind_lock
    rcases hcases with ⟨hnone, hholder, hwaits⟩ | ⟨hsome, hholder, hwaits⟩
    · rw [if_neg fun hu => ((hwaits t).mp hu).1 rfl]
      exact h.taken hspot hnone hfit hholder fun u hu => (hwaits u).mp hu
    · rw [if_pos ((hwaits t).mpr hwait)]
      exact h.asleep hspot hne hfit hholder fun u hu => .inr ((hwaits u).mp hu)

/-- The wires change while the thread with the lock stays where it is. -/
theorem rewired (h : Driven D₀ D s) (hholder : s.lock.holder = some t) (hmoved : Moved t s s')
    (hspot : s'.spot t = s.spot t) (hexpects : s'.expecting_interrupt = true)
    (hcounted : synch.Counted 0 s'.completion_wait)
    (hqueue : s'.completion_wait.queue.Perm s.completion_wait.queue)
    (hat : ∀ c st, s.wires.At D c st → s'.wires.At D c st) : Driven D₀ D s' := by
  obtain ⟨c, st, hin, hold⟩ := h.held t hholder
  refine h.moved hholder hin hmoved (hspot.trans hin) hexpects hcounted ?_ (hat c st hold)
  rcases h.sleeps with hnil | ⟨u, c', hu, hdown, hone⟩
  · rw [hnil] at hqueue
    exact .inl hqueue.eq_nil
  · obtain rfl : t = u := Option.some.inj (hholder.symm.trans hu)
    rw [hdown] at hin
    cases hin
    rw [hone] at hqueue
    exact .inr ⟨rfl, List.perm_singleton.mp hqueue⟩

end Driven

/-! ## The disk and the handler -/

/-- A disk at rest has no work. -/
theorem at_rest {p : ata_phase Bytes} {P : Prop} (hbusy : s.phase.busy = true)
    (hphase : s.wires.phase = p) (hp : p.busy = false) : P := by
  rw [← hphase, show s.wires.phase.busy = true from hbusy] at hp
  cases hp

theorem wires.AtRead.works (hbusy : s.phase.busy = true) {dev : Fin 2} {sec : ℕ} {st : stage Bytes}
    (hat : s.wires.AtRead D dev sec st) : (disk_turn s).wires.AtRead D dev sec st := by
  cases st with
  | lock_acquire => exact hat
  | select_sector i => exact at_rest hbusy hat.1 rfl
  | issue_pio_command => exact at_rest hbusy hat.2.1.1 rfl
  | wait_while_busy i => exact at_rest hbusy hat.2.1 rfl
  | transfer => exact at_rest hbusy hat.2.1 rfl
  | lock_release b => exact at_rest hbusy hat.2.1.1 rfl
  | sema_down =>
      obtain ⟨hselect, ⟨hphase, hcontents, hintrq, hunits⟩ | ⟨hphase, -⟩⟩ := hat
      · have hphase : s.phase = .reading dev sec := hphase
        have hcontents : s.contents = media D := hcontents
        unfold disk_turn
        rw [hphase]
        refine ⟨hselect, .inr ⟨?_, hcontents, .inl ⟨rfl, hunits⟩⟩⟩
        show ata_phase.data_in (s.contents dev sec) = _
        rw [hcontents]
        rfl
      · exact at_rest hbusy hphase rfl

theorem wires.AtWrite.works (hbusy : s.phase.busy = true) {dev : Fin 2} {sec : ℕ} {b : Bytes}
    {st : stage Bytes}
    (hat : s.wires.AtWrite D dev sec b st) : (disk_turn s).wires.AtWrite D dev sec b st := by
  cases st with
  | lock_acquire => exact hat
  | select_sector i => exact at_rest hbusy hat.1 rfl
  | issue_pio_command => exact at_rest hbusy hat.2.1.1 rfl
  | transfer => exact at_rest hbusy hat.2.1 rfl
  | lock_release b => exact at_rest hbusy hat.2.1.1 rfl
  | wait_while_busy i =>
      obtain ⟨hselect, ⟨hphase, hcontents, hintrq, hunits⟩ | ⟨hphase, -⟩⟩ := hat
      · have hphase : s.phase = .preparing dev sec := hphase
        unfold disk_turn
        rw [hphase]
        exact ⟨hselect, .inr ⟨rfl, hcontents, hintrq, hunits⟩⟩
      · exact at_rest hbusy hphase rfl
  | sema_down =>
      obtain ⟨hselect, ⟨hphase, hcontents, hintrq, hunits⟩ | ⟨hphase, -⟩⟩ := hat
      · have hphase : s.phase = .writing dev sec b := hphase
        have hcontents : s.contents = media D := hcontents
        unfold disk_turn
        rw [hphase]
        refine ⟨hselect, .inr ⟨rfl, ?_, .inl ⟨rfl, hunits⟩⟩⟩
        show store s.contents dev sec b = _
        rw [hcontents]
      · exact at_rest hbusy hphase rfl

/-- The handler's `sema_up` gives the only unit there is. -/
theorem units_interrupt_handler (hcounted : synch.Counted 0 s.completion_wait)
    (hexpects : s.expecting_interrupt = true) (hunits : s.completion_wait.sema.value = 0) :
    (interrupt_handler s).wires = { s.wires with intrq := false, units := 1 } := by
  obtain ⟨hwake, -⟩ := hcounted.sema_up_wake_spec
  have hvalue : (synch.sema_up s.completion_wait).sema.value = 1 := by
    show ((synch.sema_up_wake s.completion_wait).sema.value + 1) % 2 ^ 32 = 1
    rw [hwake, hunits]
    rfl
  unfold interrupt_handler channel.wires
  rw [if_pos hexpects]
  dsimp only
  rw [hvalue]

/-- While a call goes on, an interrupt is the one that it waits for. -/
theorem wires.At.interrupted (hcounted : synch.Counted 0 s.completion_wait)
    (hexpects : s.expecting_interrupt = true) (hintrq : s.intrq = true) (hat : s.wires.At D c old) :
    (interrupt_handler s).wires.At D c old := by
  have hsilent : ∀ {p : ata_phase Bytes} {contents : sectors Bytes} {P : Prop},
      s.wires.Rests p contents → P := by
    intro p contents P hrests
    rw [show s.intrq = false from hrests.2.2.1] at hintrq
    cases hintrq
  have hseen : ∀ {p : ata_phase Bytes} {contents : sectors Bytes}, s.wires.Reports p contents →
      (interrupt_handler s).wires.Reports p contents := by
    rintro p contents ⟨hphase, hcontents, ⟨-, hunits⟩ | ⟨hno, -⟩⟩
    · rw [units_interrupt_handler hcounted hexpects hunits]
      exact ⟨hphase, hcontents, .inr ⟨rfl, rfl⟩⟩
    · rw [show s.intrq = false from hno] at hintrq
      cases hintrq
  cases c with
  | disk_read dev sec =>
      cases old with
      | lock_acquire => exact hat
      | select_sector i => exact hsilent hat
      | issue_pio_command => exact hsilent hat.2.1
      | wait_while_busy i => exact hsilent hat.2
      | transfer => exact hsilent hat.2
      | lock_release b => exact hsilent hat.2.1
      | sema_down => exact ⟨hat.1, hat.2.elim hsilent fun hreports => .inr (hseen hreports)⟩
  | disk_write dev sec b =>
      cases old with
      | lock_acquire => exact hat
      | select_sector i => exact hsilent hat
      | issue_pio_command => exact hsilent hat.2.1
      | wait_while_busy i => exact hat.2.elim hsilent hsilent
      | transfer => exact hsilent hat.2
      | lock_release b => exact hsilent hat.2.1
      | sema_down => exact ⟨hat.1, hat.2.elim hsilent fun hreports => .inr (hseen hreports)⟩

namespace Driven

/-- The disk goes on: it has work of the thread with the lock only. -/
theorem works (h : Driven D₀ D s) (hbusy : s.phase.busy = true) : Driven D₀ D (disk_turn s) := by
  have hsame : (∀ t, Moved t s (disk_turn s)) ∧ (disk_turn s).spot = s.spot
      ∧ (disk_turn s).expecting_interrupt = s.expecting_interrupt
      ∧ (disk_turn s).completion_wait = s.completion_wait := by
    unfold disk_turn
    split <;> exact ⟨fun _ => ⟨rfl, rfl, rfl, rfl, rfl, rfl, fun _ _ => rfl⟩, rfl, rfl, rfl⟩
  obtain ⟨hmoved, hspot, hexpects, hsema⟩ := hsame
  cases hholder : s.lock.holder with
  | none => exact at_rest hbusy (h.free hholder).1 rfl
  | some t =>
      refine h.rewired hholder (hmoved t) (by rw [hspot]) (hexpects.trans h.expects)
        (hsema ▸ h.counted) (by rw [hsema]) fun c st hat => ?_
      cases c with
      | disk_read dev sec => exact wires.AtRead.works hbusy hat
      | disk_write dev sec b => exact wires.AtWrite.works hbusy hat

/-- `interrupt_handler`: the interrupt is one that the thread with the lock waits for. -/
theorem interrupts (h : Driven D₀ D s) (hintrq : s.intrq = true) :
    Driven D₀ D (interrupt_handler s) := by
  have hhandler : interrupt_handler s
      = { s with intrq := false, completion_wait := synch.sema_up s.completion_wait } :=
      if_pos h.expects
  cases hholder : s.lock.holder with
  | none =>
      have hno : s.intrq = false := (h.free hholder).2.2.1
      rw [hno] at hintrq
      cases hintrq
  | some t =>
      refine h.rewired hholder ?_ ?_ ?_ ?_ ?_ fun c st hat =>
        hat.interrupted h.counted h.expects hintrq
      · rw [hhandler]
        exact ⟨rfl, rfl, rfl, rfl, rfl, rfl, fun _ _ => rfl⟩
      · rw [hhandler]
      · rw [hhandler]
        exact h.expects
      · rw [hhandler]
        exact h.counted.sema_up
      · rw [hhandler]
        exact synch.sema_state.queue_sema_up

/-- A thread calls. -/
theorem called (h : Driven D₀ D s) (hspot : s.spot t = .outside) (c : disk_call Bytes) :
    Driven D₀ D { s.goto t c .lock_acquire with called := s.called ++ [(t, c)] } := by
  have hother : ∀ u, u ≠ t → (s.goto t c .lock_acquire).spot u = s.spot u :=
    fun u hut => spot_at_spot_of_ne hut
  have hidle : s.lock.holder ≠ some t := by
    intro hholder
    obtain ⟨c', st, hin, -⟩ := h.held t hholder
    rw [hspot] at hin
    cases hin
  have hheld : ∀ u, s.lock.holder = some u → (s.goto t c .lock_acquire).spot u = s.spot u := by
    intro u hu
    refine hother u ?_
    rintro rfl
    exact hidle hu
  refine ⟨h.fit, h.counted, h.expects, h.size, h.served, h.free, fun u hu => ?_, fun u hu => ?_,
    fun u hu => ⟨(h.waits u hu).1, ?_⟩, ?_, fun u => ?_, h.counts⟩
  · obtain ⟨c', st, hin, hat⟩ := h.held u hu
    exact ⟨c', st, (hheld u hu).trans hin, hat⟩
  · by_cases hut : u = t
    · rw [hut]
      exact .inr ⟨c, spot_at_spot_self⟩
    · rcases h.others u hu with hout | ⟨c', hin⟩
      · exact .inl ((hother u hut).trans hout)
      · exact .inr ⟨c', (hother u hut).trans hin⟩
  · have hin := (h.waits u hu).2
    have hut : u ≠ t := by
      rintro rfl
      exact hin hspot
    rwa [← hother u hut] at hin
  · rcases h.sleeps with hnil | ⟨u, c', hu, hdown, hqueue⟩
    · exact .inl hnil
    · exact .inr ⟨u, c', hu, (hheld u hu).trans hdown, hqueue⟩
  · show (s.called ++ [(t, c)]).filter _
      = (s.finished.filter _).map _ ++ ((s.goto t c .lock_acquire).spot u).unfinished u
    rw [List.filter_append, h.calls u]
    by_cases hut : u = t
    · rw [hut, hspot]
      show _ = _ ++ ((s.at_spot t _).spot t).unfinished t
      rw [spot_at_spot_self]
      simp [spot.unfinished]
    · rw [hother u hut]
      simp [Ne.symm hut]

/-- A thread that was woken in `sema_down` of `completion_wait`. -/
theorem rechecks (h : Driven D₀ D s) (ht : t ∈ s.completion_wait.woken) :
    ∃ s', channel_step s (.recheck t) = .ok s' ∧ Driven D₀ D s' := by
  have hwait : t ∈ s.completion_wait.queue := synch.sema_state.mem_queue.mpr (.inr ht)
  rcases h.sleeps with hnil | ⟨u, c, hu, hdown, hone⟩
  · rw [hnil] at hwait
    cases hwait
  · rw [hone] at hwait
    obtain rfl : t = u := List.mem_singleton.mp hwait
    have hperm := synch.sema_state.queue_erase ht
    rw [hone] at hperm
    have hlen := hperm.length_eq
    refine ⟨_, ?_, h.awaits hu hdown (h.counted.recheck ht) rfl ?_⟩
    · rw [channel_step, hdown]
    · exact List.eq_nil_of_length_eq_zero (Nat.succ.inj hlen).symm

/-- Priorities do not matter. -/
theorem reprioritised (h : Driven D₀ D s) (t : ℕ) (p : ℤ) :
    ∃ s', channel_step s (.set_priority t p) = .ok s' ∧ Driven D₀ D s' :=
  ⟨_, rfl, h.fit.reprioritised t p, ⟨h.counted.bound, h.counted.turns, h.counted.wakes⟩,
    h.expects, h.size, h.served, h.free, h.held, h.others, h.waits, h.sleeps, h.calls, h.counts⟩

end Driven

/-- The steps at which the kernel stops: the sector is not on the disk or its number does not fit,
or the disk that a write is for has been busy for all the turns of `wait_while_busy`. -/
def Stops (s : channel Bytes) : channel_event Bytes → Prop
  | .step t => (∃ c i, s.spot t = .inside c (.select_sector i)
        ∧ ¬ (c.sec_no < s.capacity c.dev ∧ c.sec_no < 2 ^ 28))
      ∨ ∃ dev sec b i, s.spot t = .inside (.disk_write dev sec b) (.wait_while_busy i)
        ∧ s.phase.busy = true ∧ 3000 ≤ i + 1
  | _ => False

namespace Driven

/-- **The next step of the thread with the lock.** -/
theorem step (h : Driven D₀ D s) (hholder : s.lock.holder = some t)
    (hawake : ¬ s.completion_wait.Waits t) : (Stops s (.step t) ∧ thread_step s t = .panic)
      ∨ (¬ Stops s (.step t) ∧ ∃ s' D', thread_step s t = .ok s' ∧ Driven D₀ D' s') := by
  obtain ⟨c, st, hspot, hat⟩ := h.held t hholder
  -- a step that is in neither loop
  have hgo : (∀ i, st ≠ .select_sector i) → (∀ i, st ≠ .wait_while_busy i)
      → ¬ Stops s (.step t) := by
    rintro hselect hwait (⟨c', i, hin, -⟩ | ⟨dev, sec, b, i, hin, -⟩)
    · rw [hspot] at hin
      cases hin
      exact hselect i rfl
    · rw [hspot] at hin
      cases hin
      exact hwait i rfl
  cases st with
  | lock_acquire =>
      cases c with
      | disk_read dev sec => exact hat.elim
      | disk_write dev sec b => exact hat.elim
  | select_sector i =>
      have hstep : thread_step s t = select_sector_turn s t c i := by rw [thread_step, hspot]
      have hselects := h.selects hholder hspot hawake
      by_cases hrange : c.sec_no < s.capacity c.dev ∧ c.sec_no < 2 ^ 28
      · rw [if_pos hrange] at hselects
        obtain ⟨s', hs', hdriven⟩ := hselects
        refine .inr ⟨?_, s', D, hstep.trans hs', hdriven⟩
        rintro (⟨c', i', hin, hno⟩ | ⟨dev, sec, b, i', hin, -⟩)
        · rw [hspot] at hin
          cases hin
          exact hno hrange
        · rw [hspot] at hin
          cases hin
      · rw [if_neg hrange] at hselects
        exact .inl ⟨.inl ⟨c, i, hspot, hrange⟩, hstep.trans hselects⟩
  | wait_while_busy i =>
      have hstep : thread_step s t = wait_while_busy_turn s t c i := by rw [thread_step, hspot]
      have hpolls := h.polls hholder hspot hawake
      by_cases hlast : s.phase.busy = true ∧ 3000 ≤ i + 1
      · rw [if_pos hlast] at hpolls
        cases c with
        | disk_read dev sec =>
            -- behind the interrupt of a read the data is there
            have hphase : s.phase = .data_in ((D dev).sectors sec) := hat.2.1
            rw [hphase] at hlast
            cases hlast.1
        | disk_write dev sec b => exact .inl ⟨.inr ⟨dev, sec, b, i, hspot, hlast⟩,
              hstep.trans hpolls⟩
      · rw [if_neg hlast] at hpolls
        obtain ⟨s', hs', hdriven⟩ := hpolls
        refine .inr ⟨?_, s', D, hstep.trans hs', hdriven⟩
        rintro (⟨c', i', hin, -⟩ | ⟨dev, sec, b, i', hin, hboth⟩)
        · rw [hspot] at hin
          cases hin
        · rw [hspot] at hin
          cases hin
          exact hlast hboth
  | issue_pio_command =>
      have hstep : thread_step s t = issue_pio_command s t c := by rw [thread_step, hspot]
      obtain ⟨s', hs', hdriven⟩ := h.issues hholder hspot hawake
      exact .inr ⟨hgo nofun nofun, s', D, hstep.trans hs', hdriven⟩
  | sema_down =>
      have hstep : thread_step s t = .ok (await_completion s t c) := by rw [thread_step, hspot]
      have hqueue := h.queue_nil hholder hawake
      exact .inr ⟨hgo nofun nofun, _, D, hstep,
        h.awaits hholder hspot (h.counted.sema_down t) rfl hqueue⟩
  | transfer =>
      have hstep : thread_step s t = transfer s t c := by rw [thread_step, hspot]
      obtain ⟨s', hs', hdriven⟩ := h.transfers hholder hspot hawake
      exact .inr ⟨hgo nofun nofun, s', D, hstep.trans hs', hdriven⟩
  | lock_release b =>
      have hstep : thread_step s t = leave s t c b := by rw [thread_step, hspot]
      obtain ⟨s', D', hs', hdriven⟩ := h.leaves hholder hspot hawake
      exact .inr ⟨hgo nofun nofun, s', D', hstep.trans hs', hdriven⟩

/-- **One event**: it stops the kernel, or keeps the invariant. -/
theorem event (h : Driven D₀ D s) {e : channel_event Bytes} (he : Possible s e) :
    (Stops s e ∧ channel_step s e = .panic)
      ∨ (¬ Stops s e ∧ ∃ s' D', channel_step s e = .ok s' ∧ Driven D₀ D' s') := by
  cases e with
  | call t c =>
      have hspot : s.spot t = .outside := by
        cases hin : s.spot t with
        | outside => rfl
        | inside c' st =>
            have hno : (s.spot t).busy = false := he
            rw [hin] at hno
            cases hno
      exact .inr ⟨not_false, _, D, rfl, h.called hspot c⟩
  | step t =>
      obtain ⟨hin, hout, hawake⟩ := he
      by_cases hholder : s.lock.holder = some t
      · exact h.step hholder hawake
      · rcases h.others t hholder with hspot | ⟨c, hspot⟩
        · rw [hspot] at hin
          cases hin
        · obtain ⟨s', hs', hdriven⟩ := h.acquires hspot hout hholder
          refine .inr ⟨?_, s', D, hs', hdriven⟩
          rintro (⟨c', i, hselect, -⟩ | ⟨dev, sec, b, i, hwait, -⟩)
          · rw [hspot] at hselect
            cases hselect
          · rw [hspot] at hwait
            cases hwait
  | relock t =>
      obtain ⟨s', hs', hdriven⟩ := h.relocks he
      exact .inr ⟨not_false, s', D, hs', hdriven⟩
  | recheck t =>
      obtain ⟨s', hs', hdriven⟩ := h.rechecks he
      exact .inr ⟨not_false, s', D, hs', hdriven⟩
  | interrupt => exact .inr ⟨not_false, _, D, rfl, h.interrupts he⟩
  | disk => exact .inr ⟨not_false, _, D, rfl, h.works he⟩
  | set_priority t p =>
      obtain ⟨s', hs', hdriven⟩ := h.reprioritised t p
      exact .inr ⟨not_false, s', D, hs', hdriven⟩

/-- The invariant holds after every run. -/
theorem run {es : List (channel_event Bytes)} (h : Driven D₀ D s)
    (hrun : channel_run es s = some s') : ∃ D', Driven D₀ D' s' := by
  refine Runs.invariant (I := fun s => ∃ D', Driven D₀ D' s) ?_ ⟨D, h⟩ hrun
  rintro s e s' ⟨D, hdriven⟩ hstep
  obtain ⟨he, hstep⟩ := Option.ite_none_right_eq_some.mp hstep
  rcases hdriven.event he with ⟨-, hpanic⟩ | ⟨-, s₁, D₁, hs₁, hdriven₁⟩
  · rw [hpanic] at hstep
    cases hstep
  · rw [hs₁] at hstep
    exact ⟨D₁, Option.some.inj hstep ▸ hdriven₁⟩

end Driven

end Steps

/-! ## Runs -/

/-- A channel whose disks have the contents of `D`. -/
def channel_of (priority : ℕ → ℤ) (D : Fin 2 → disk) : channel Bytes :=
  channel_init priority (fun dev => (D dev).capacity) (media D)

/-- **The channel serves one call after the other**, however its threads, the handler and the disks
interleave: the finished calls have the answers, and leave the disks, that `disk_read` and
`disk_write` of the file system's model give when they run in the order in which they finished. The
media are as these calls leave them, or one call in progress has had its effect already. Each
thread's calls finish in the order in which they were made, and the counters of a disk count
them. -/
theorem channel_serves {priority : ℕ → ℤ} {D₀ : Fin 2 → disk} {es : List (channel_event Bytes)}
    {s : channel Bytes} (hrun : channel_run es (channel_of priority D₀) = some s) :
    ∃ D, Served D₀ s.finished D
      ∧ (s.lock.holder = none → s.contents = media D)
      ∧ (s.contents = media D ∨ ∃ t c st D' b, s.spot t = .inside c st ∧ serve D c = .ok (D', b)
        ∧ s.contents = media D')
      ∧ (∀ t, s.called.filter (·.1 = t)
        = (s.finished.filter (·.1 = t)).map (fun x => (x.1, x.2.1)) ++ (s.spot t).unfinished t)
      ∧ ∀ dev, s.read_cnt dev = reads s.finished dev ∧ s.write_cnt dev = writes s.finished dev := by
  obtain ⟨D, h⟩ := (channel_init_driven priority D₀).run hrun
  refine ⟨D, h.served, fun hnone => (h.free hnone).2.1, ?_, h.calls, h.counts⟩
  cases hholder : s.lock.holder with
  | none => exact .inl (h.free hholder).2.1
  | some t =>
      obtain ⟨c, st, hspot, hat⟩ := h.held t hholder
      cases c with
      | disk_read dev sec =>
          refine .inl ?_
          cases st with
          | lock_acquire => exact hat.elim
          | select_sector i => exact hat.2.1
          | issue_pio_command => exact hat.2.1.2.1
          | wait_while_busy i => exact hat.2.2.1
          | transfer => exact hat.2.2.1
          | lock_release b => exact hat.2.1.2.1
          | sema_down => exact hat.2.elim (fun hrests => hrests.2.1) fun hreports => hreports.2.1
      | disk_write dev sec b =>
          have hafter : select_sector (D dev) sec → s.contents = store (media D) dev sec b →
              ∃ t c st D' b, s.spot t = .inside c st ∧ serve D c = .ok (D', b)
                ∧ s.contents = media D' := by
            intro hselect hcontents
            exact ⟨t, _, st, _, b, hspot, serve_write hselect b,
              hcontents.trans (media_write D dev sec b).symm⟩
          cases st with
          | lock_acquire => exact hat.elim
          | select_sector i => exact .inl hat.2.1
          | issue_pio_command => exact .inl hat.2.1.2.1
          | wait_while_busy i => exact .inl (hat.2.elim (fun hrests => hrests.2.1)
                fun hrests => hrests.2.1)
          | transfer => exact .inl hat.2.2.1
          | lock_release b' => exact .inr (hafter hat.1 hat.2.1.2.1)
          | sema_down =>
              rcases hat.2 with hrests | hreports
              · exact .inl hrests.2.1
              · exact .inr (hafter hat.1 hreports.2.1)

/-- **What stops the kernel, and what never does**: an event fails exactly at the two assertions of
`select_sector` and at the end of the wait of a write for a disk that stays busy, and no event does
what C leaves undefined. No interrupt gets lost: while a thread is in a call, some thread can go on,
or the disk or the handler can. -/
theorem channel_goes_on {priority : ℕ → ℤ} {D₀ : Fin 2 → disk} {es : List (channel_event Bytes)}
    {s : channel Bytes} (hrun : channel_run es (channel_of priority D₀) = some s) :
    (∀ e, Possible s e → (Stops s e → channel_step s e = .panic)
      ∧ (¬ Stops s e → ∃ s', channel_step s e = .ok s'))
      ∧ ((∃ t, s.spot t ≠ .outside) → Possible s .interrupt ∨ Possible s .disk
        ∨ ∃ t, Possible s (.step t) ∨ Possible s (.relock t) ∨ Possible s (.recheck t)) := by
  obtain ⟨D, h⟩ := (channel_init_driven priority D₀).run hrun
  refine ⟨fun e he => ?_, fun ⟨t, hin⟩ => ?_⟩
  · rcases h.event he with ⟨hstops, hpanic⟩ | ⟨hno, s', -, hs', -⟩
    · exact ⟨fun _ => hpanic, fun hno => absurd hstops hno⟩
    · exact ⟨fun hstops => absurd hstops hno, fun _ => ⟨s', hs'⟩⟩
  have hbusy : ∀ {u c st}, s.spot u = .inside c st → (s.spot u).busy = true := by
    intro u c st hspot
    rw [hspot]
    rfl
  cases hholder : s.lock.holder with
  | none =>
      by_cases hwait : s.lock.Waits t
      · obtain ⟨u, hu⟩ := List.exists_mem_of_ne_nil _ (h.fit.woken hholder hwait)
        exact .inr (.inr ⟨u, .inr (.inl hu)⟩)
      · obtain ⟨c, hspot⟩ := (h.others t (by simp [hholder])).resolve_left hin
        refine .inr (.inr ⟨t, .inl ⟨hbusy hspot, hwait, fun hsleeps => ?_⟩⟩)
        rcases h.sleeps with hnil | ⟨u, c', hu, -⟩
        · have hmem := synch.sema_state.mem_queue.mpr hsleeps
          rw [hnil] at hmem
          cases hmem
        · rw [hholder] at hu
          cases hu
  | some u =>
      obtain ⟨c, st, hspot, hat⟩ := h.held u hholder
      by_cases hsleeps : s.completion_wait.Waits u
      · -- the thread with the lock waits for the interrupt
        by_cases hwoken : u ∈ s.completion_wait.woken
        · exact .inr (.inr ⟨u, .inr (.inr hwoken)⟩)
        have hnone : s.completion_wait.woken = [] := by
          rcases h.sleeps with hnil | ⟨v, c', hv, -, hone⟩
          · have hmem := synch.sema_state.mem_queue.mpr hsleeps
            rw [hnil] at hmem
            cases hmem
          · obtain rfl : u = v := Option.some.inj (hholder.symm.trans hv)
            refine List.eq_nil_iff_forall_not_mem.mpr fun w hw => ?_
            have hmem := synch.sema_state.mem_queue.mpr (.inr hw)
            rw [hone, List.mem_singleton] at hmem
            exact hwoken (hmem ▸ hw)
        have hunits : s.completion_wait.sema.value = 0 := by
          have hle := h.counted.wakes (List.ne_nil_of_mem (hsleeps.resolve_right hwoken))
          rw [hnone] at hle
          exact Nat.le_zero.mp hle
        have hstage : st = .sema_down := by
          rcases h.sleeps with hnil | ⟨v, c', hv, hdown, -⟩
          · have hmem := synch.sema_state.mem_queue.mpr hsleeps
            rw [hnil] at hmem
            cases hmem
          · obtain rfl : u = v := Option.some.inj (hholder.symm.trans hv)
            rw [hspot] at hdown
            cases hdown
            rfl
        have hreported : ∀ {p : ata_phase Bytes} {contents : sectors Bytes},
            s.wires.Reports p contents → Possible s .interrupt := by
          rintro p contents ⟨-, -, ⟨hintrq, -⟩ | ⟨-, hone⟩⟩
          · exact hintrq
          · rw [show s.completion_wait.sema.value = 1 from hone] at hunits
            cases hunits
        subst hstage
        cases c with
        | disk_read dev sec =>
            rcases hat.2 with ⟨hphase, -⟩ | hreports
            · refine .inr (.inl ?_)
              show s.phase.busy = true
              rw [show s.phase = .reading dev sec from hphase]
              rfl
            · exact .inl (hreported hreports)
        | disk_write dev sec b =>
            rcases hat.2 with ⟨hphase, -⟩ | hreports
            · refine .inr (.inl ?_)
              show s.phase.busy = true
              rw [show s.phase = .writing dev sec b from hphase]
              rfl
            · exact .inl (hreported hreports)
      · refine .inr (.inr ⟨u, .inl ⟨hbusy hspot, fun hwait => ?_, hsleeps⟩⟩)
        exact (h.waits u hwait).1 hholder

/-- Two threads at one sector: while one writes, the other waits to read. -/
def write_then_read : List (channel_event Bytes) :=
  [.call 1 (.disk_write ⟨0, Nat.two_pos⟩ 5 fun i => UInt8.ofNat i), .step 1,
    .call 2 (.disk_read ⟨0, Nat.two_pos⟩ 5), .step 1, .step 2, .step 1, .step 1, .disk, .step 1,
    .step 1, .step 1, .disk, .interrupt, .recheck 1, .step 1, .relock 2, .step 2, .step 2,
    .step 2, .disk, .interrupt, .recheck 2, .step 2, .step 2]

/-- Two disks of ten sectors. -/
def small_disks : Fin 2 → disk := fun _ => ⟨10, fun _ => zeros, []⟩

theorem write_then_read_serves : ∃ s, channel_run write_then_read
    (channel_of (fun _ => 31) small_disks) = some s ∧ ∃ D, Served small_disks s.finished D
      ∧ (s.lock.holder = none → s.contents = media D)
      ∧ (s.contents = media D ∨ ∃ t c st D' b, s.spot t = .inside c st ∧ serve D c = .ok (D', b)
        ∧ s.contents = media D')
      ∧ (∀ t, s.called.filter (·.1 = t)
        = (s.finished.filter (·.1 = t)).map (fun x => (x.1, x.2.1)) ++ (s.spot t).unfinished t)
      ∧ ∀ dev, s.read_cnt dev = reads s.finished dev ∧ s.write_cnt dev = writes s.finished dev := by
  obtain ⟨s, hs⟩ : ∃ s, channel_run write_then_read
    (channel_of (fun _ => 31) small_disks) = some s :=
    Option.isSome_iff_exists.mp (by decide +kernel)
  exact ⟨s, hs, channel_serves hs⟩

theorem write_then_read_goes_on : ∃ s, channel_run write_then_read
    (channel_of (fun _ => 31) small_disks) = some s
    ∧ (∀ e, Possible s e → (Stops s e → channel_step s e = .panic)
      ∧ (¬ Stops s e → ∃ s', channel_step s e = .ok s'))
      ∧ ((∃ t, s.spot t ≠ .outside) → Possible s .interrupt ∨ Possible s .disk
        ∨ ∃ t, Possible s (.step t) ∨ Possible s (.relock t) ∨ Possible s (.recheck t)) := by
  obtain ⟨s, hs⟩ : ∃ s, channel_run write_then_read
    (channel_of (fun _ => 31) small_disks) = some s :=
    Option.isSome_iff_exists.mp (by decide +kernel)
  exact ⟨s, hs, channel_goes_on hs⟩

end Pintos.devices
