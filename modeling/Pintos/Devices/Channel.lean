/-
`devices/disk.c`: a channel and its two disks, threads that read and write, and the interrupt
handler.

A thread has `lock` from `select_sector` to the end of `disk_read` or `disk_write`. It waits for the
disk in two ways: it sleeps in `sema_down` until the handler has seen an interrupt, and it polls the
status register. Between any two of its steps the disk goes on, the handler runs, or other threads
call.

The disk is the other party. `ata_phase` is as much of [ATA-3] as the driver relies on: a disk is
busy after a command, then transfers data on request, and raises one interrupt for each command,
when the data of a read is there or that of a write is on the medium. What a sector contains is left
open.

`called` and `finished` are ghosts: the calls so far, and those that have returned, with what they
read or wrote.
-/
import Pintos.Lib.Runs
import Pintos.Threads.Lock

set_option autoImplicit false

namespace Pintos.devices

/-! ## The disks -/

/-- The registers of the controller that `select_sector` writes. -/
structure registers where
  reg_nsect : ℕ
  reg_lbal : ℕ
  reg_lbam : ℕ
  reg_lbah : ℕ
  reg_device : ℕ
  deriving DecidableEq, Repr

/-- What the selected disk does. -/
inductive ata_phase (β : Type)
  | idle
  | reading (dev : Fin 2) (sec : ℕ)
  | data_in (b : β)
  | preparing (dev : Fin 2) (sec : ℕ)
  | data_out (dev : Fin 2) (sec : ℕ)
  | writing (dev : Fin 2) (sec : ℕ) (b : β)
  deriving DecidableEq, Repr

/-- The sectors of the two disks. -/
abbrev sectors (β : Type) := Fin 2 → ℕ → β

namespace ata_phase

variable {β : Type}

/-- `STA_BSY`. -/
def busy : ata_phase β → Bool
  | .reading _ _ => true
  | .preparing _ _ => true
  | .writing _ _ _ => true
  | _ => false

/-- `STA_DRQ`. -/
def request : ata_phase β → Bool
  | .data_in _ => true
  | .data_out _ _ => true
  | _ => false

end ata_phase

/-- The disk that the device register selects. -/
def selected_device (r : registers) : Fin 2 := if r.reg_device / 16 % 2 = 1 then 1 else 0

/-- The sector that the registers select, in LBA mode. -/
def selected_sector (r : registers) : ℕ :=
  r.reg_lbal + 2 ^ 8 * r.reg_lbam + 2 ^ 16 * r.reg_lbah + 2 ^ 24 * (r.reg_device % 16)

/-! ## Calls -/

/-- A call of `disk_read` or `disk_write`, by the disk and the sector. -/
inductive disk_call (β : Type)
  | disk_read (dev : Fin 2) (sec_no : ℕ)
  | disk_write (dev : Fin 2) (sec_no : ℕ) (buffer : β)
  deriving DecidableEq, Repr

namespace disk_call

variable {β : Type}

def dev : disk_call β → Fin 2
  | .disk_read d _ => d
  | .disk_write d _ _ => d

def sec_no : disk_call β → ℕ
  | .disk_read _ n => n
  | .disk_write _ n _ => n

end disk_call

/-- The steps of a call. The loops have the number of their turns so far. -/
inductive stage (β : Type)
  | lock_acquire
  | select_sector (i : ℕ)
  | issue_pio_command
  | sema_down
  | wait_while_busy (i : ℕ)
  | transfer
  | lock_release (b : β)
  deriving DecidableEq, Repr

/-- Where a thread is. -/
inductive spot (β : Type)
  | outside
  | inside (c : disk_call β) (st : stage β)
  deriving DecidableEq, Repr

/-- The thread is in a call. -/
def spot.busy {β : Type} : spot β → Bool
  | .outside => false
  | .inside _ _ => true

/-- `struct channel`, the disks behind it and the threads at it. -/
structure channel (β : Type) where
  lock : synch.lock
  expecting_interrupt : Bool
  completion_wait : synch.sema_state
  /-- The members `capacity`, `read_cnt` and `write_cnt` of the two disks. -/
  capacity : Fin 2 → ℕ
  read_cnt : Fin 2 → ℕ
  write_cnt : Fin 2 → ℕ
  regs : registers
  phase : ata_phase β
  /-- The disk asks for an interrupt. -/
  intrq : Bool
  contents : sectors β
  spot : ℕ → spot β
  called : List (ℕ × disk_call β)
  finished : List (ℕ × disk_call β × β)

/-- A channel behind `disk_init`. -/
def channel_init {β : Type} (priority : ℕ → ℤ) (capacity : Fin 2 → ℕ) (contents : sectors β) :
    channel β where
  lock := synch.lock.lock_init priority
  expecting_interrupt := true
  completion_wait := synch.sema_init 0 priority
  capacity := capacity
  read_cnt _ := 0
  write_cnt _ := 0
  regs := ⟨0, 0, 0, 0, 0⟩
  phase := .idle
  intrq := false
  contents := contents
  spot _ := .outside
  called := []
  finished := []

/-- The sectors after a write. -/
def store {β : Type} (contents : sectors β) (dev : Fin 2) (sec : ℕ) (b : β) : sectors β :=
  Function.update contents dev (Function.update (contents dev) sec b)

namespace channel

variable {β : Type}

/-- Thread `t` is at another place. -/
def at_spot (s : channel β) (t : ℕ) (p : devices.spot β) : channel β :=
  { s with spot := Function.update s.spot t p }

/-- Thread `t` comes to another step of its call. -/
def goto (s : channel β) (t : ℕ) (c : disk_call β) (st : stage β) : channel β :=
    s.at_spot t (.inside c st)

end channel

/-! ## The driver -/

section Driver

variable {β : Type}

/-- The registers that `select_sector` writes; each is a byte. -/
def sector_registers (dev : Fin 2) (sec_no : ℕ) : registers where
  reg_nsect := 1
  reg_lbal := sec_no % 2 ^ 8
  reg_lbam := sec_no / 2 ^ 8 % 2 ^ 8
  reg_lbah := sec_no / 2 ^ 16 % 2 ^ 8
  reg_device := (0xa0 ||| 0x40 ||| (if dev = 1 then 0x10 else 0) ||| sec_no / 2 ^ 24) % 2 ^ 8

/-- One turn of the loop of `wait_until_idle` in `select_sector`; reading the status takes an
interrupt back. A disk that is idle stays so until it is told, so that the second loop sees what the
first one saw. Behind a loop that gave up, the registers are written to a disk that does not expect
it. -/
def select_sector_turn (s : channel β) (t : ℕ) (c : disk_call β) (i : ℕ) : Outcome (channel β) := do
  Outcome.assert (c.sec_no < s.capacity c.dev)
  Outcome.assert (c.sec_no < 2 ^ 28)
  let s := { s with intrq := false }
  if s.phase.busy = false ∧ s.phase.request = false then
    return { s with regs := sector_registers c.dev c.sec_no }.goto t c .issue_pio_command
  else if i + 1 < 1000 then return s.goto t c (.select_sector (i + 1))
  else .undefined

/-- `issue_pio_command`, with the command of the call. It asserts that interrupts are on, which they
are: nothing here turns them off. -/
def issue_pio_command (s : channel β) (t : ℕ) (c : disk_call β) : Outcome (channel β) :=
  let s := { s with expecting_interrupt := true }
  match s.phase, c with
  | .idle, .disk_read _ _ =>
      .ok ({ s with phase := .reading (selected_device s.regs) (selected_sector s.regs) }.goto
        t c .sema_down)
  | .idle, .disk_write _ _ _ =>
      .ok ({ s with phase := .preparing (selected_device s.regs) (selected_sector s.regs) }.goto t c
        (.wait_while_busy 0))
  | _, _ => .undefined

/-- Behind `sema_down` of `completion_wait`. -/
def completed (s : channel β) (t : ℕ) (c : disk_call β) : channel β :=
  match c with
  | .disk_read _ _ => s.goto t c (.wait_while_busy 0)
  | .disk_write _ _ b => s.goto t c (.lock_release b)

/-- `sema_down` of `completion_wait` from the test of its loop on. -/
def await_completion (s : channel β) (t : ℕ) (c : disk_call β) : channel β :=
  if s.completion_wait.sema.value = 0 then { s with completion_wait := synch.sema_down s.completion_wait t }
  else completed { s with completion_wait := synch.sema_down s.completion_wait t } t c

/-- One turn of the loop of `wait_while_busy`, and the test of its result. -/
def wait_while_busy_turn (s : channel β) (t : ℕ) (c : disk_call β) (i : ℕ) : Outcome (channel β) :=
  if s.phase.busy = false then
    if s.phase.request then .ok (s.goto t c .transfer) else .panic
  else if i + 1 < 3000 then .ok (s.goto t c (.wait_while_busy (i + 1)))
  else .panic

/-- `input_sector` or `output_sector`. -/
def transfer (s : channel β) (t : ℕ) (c : disk_call β) : Outcome (channel β) :=
  match s.phase, c with
  | .data_in b, .disk_read _ _ => .ok ({ s with phase := .idle }.goto t c (.lock_release b))
  | .data_out dev sec, .disk_write _ _ b =>
        .ok ({ s with phase := .writing dev sec b }.goto t c .sema_down)
  | _, _ => .undefined

/-- The statistics and `lock_release`. -/
def leave (s : channel β) (t : ℕ) (c : disk_call β) (b : β) : Outcome (channel β) := do
  let l ← s.lock.lock_release t
  let s := { s with lock := l, finished := s.finished ++ [(t, c, b)] }
  match c with
  | .disk_read dev _ =>
      return { s with read_cnt := Function.update s.read_cnt dev (s.read_cnt dev + 1) }.at_spot t .outside
  | .disk_write dev _ _ =>
      return { s with write_cnt := Function.update s.write_cnt dev (s.write_cnt dev + 1) }.at_spot t .outside

/-- `interrupt_handler`. -/
def interrupt_handler (s : channel β) : channel β :=
  if s.expecting_interrupt then
    { s with intrq := false, completion_wait := synch.sema_up s.completion_wait }
  else s

/-- The disk goes on. -/
def disk_turn (s : channel β) : channel β :=
  match s.phase with
  | .reading dev sec => { s with phase := .data_in (s.contents dev sec), intrq := true }
  | .preparing dev sec => { s with phase := .data_out dev sec }
  | .writing dev sec b => { s with phase := .idle, contents := store s.contents dev sec b, intrq := true }
  | _ => s

end Driver

/-! ## Steps -/

/-- What can happen next. -/
inductive channel_event (β : Type)
  /-- Thread `t` calls. -/
  | call (t : ℕ) (c : disk_call β)
  /-- Thread `t` takes the next step of its call. -/
  | step (t : ℕ)
  /-- Thread `t` was woken in `lock_acquire`, or in `sema_down` of `completion_wait`. -/
  | relock (t : ℕ)
  | recheck (t : ℕ)
  | interrupt
  | disk
  | set_priority (t : ℕ) (p : ℤ)
  deriving DecidableEq, Repr

section Steps

variable {β : Type}

/-- The event can happen. -/
def Possible (s : channel β) : channel_event β → Prop
  | .call t _ => (s.spot t).busy = false
  | .step t => (s.spot t).busy = true ∧ ¬ s.lock.Waits t ∧ ¬ s.completion_wait.Waits t
  | .relock t => t ∈ s.lock.semaphore.woken
  | .recheck t => t ∈ s.completion_wait.woken
  | .interrupt => s.intrq = true
  | .disk => s.phase.busy = true
  | .set_priority _ _ => True

instance (s : channel β) (e : channel_event β) : Decidable (Possible s e) :=
  match e with
  | .call _ _ => inferInstanceAs (Decidable (_ = _))
  | .step _ => inferInstanceAs (Decidable (_ ∧ _ ∧ _))
  | .relock _ => inferInstanceAs (Decidable (_ ∈ _))
  | .recheck _ => inferInstanceAs (Decidable (_ ∈ _))
  | .interrupt => inferInstanceAs (Decidable (_ = _))
  | .disk => inferInstanceAs (Decidable (_ = _))
  | .set_priority _ _ => .isTrue trivial

/-- Behind the test in `lock_acquire`: the thread sleeps, or has the lock. -/
def behind_lock (s : channel β) (t : ℕ) (c : disk_call β) : channel β :=
  if s.lock.Waits t then s else s.goto t c (.select_sector 0)

/-- The next step of thread `t`. -/
def thread_step (s : channel β) (t : ℕ) : Outcome (channel β) :=
  match s.spot t with
  | .outside => .ok s
  | .inside c .lock_acquire => do
      let l ← s.lock.lock_acquire t
      return behind_lock { s with lock := l } t c
  | .inside c (.select_sector i) => select_sector_turn s t c i
  | .inside c .issue_pio_command => issue_pio_command s t c
  | .inside c .sema_down => .ok (await_completion s t c)
  | .inside c (.wait_while_busy i) => wait_while_busy_turn s t c i
  | .inside c .transfer => transfer s t c
  | .inside c (.lock_release b) => leave s t c b

/-- One event. -/
def channel_step (s : channel β) : channel_event β → Outcome (channel β)
  | .call t c => .ok { s.goto t c .lock_acquire with called := s.called ++ [(t, c)] }
  | .step t => thread_step s t
  | .relock t =>
      match s.spot t with
      | .inside c _ => .ok (behind_lock { s with lock := s.lock.recheck t } t c)
      | .outside => .ok s
  | .recheck t =>
      match s.spot t with
      | .inside c _ =>
          .ok (await_completion { s with completion_wait :=
            { s.completion_wait with woken := s.completion_wait.woken.erase t } } t c)
      | .outside => .ok s
  | .interrupt => .ok (interrupt_handler s)
  | .disk => .ok (disk_turn s)
  | .set_priority t p => .ok { s with
      lock := s.lock.set_priority t p
      completion_wait := { s.completion_wait with priority := Function.update s.completion_wait.priority t p } }

/-- A schedule: every event can happen, and nothing stops the kernel. -/
def channel_run : List (channel_event β) → channel β → Option (channel β) :=
  Runs.run fun s e => if Possible s e then (channel_step s e).toOption else none

end Steps

end Pintos.devices
