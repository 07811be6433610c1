/-
`devices/serial.c` and `devices/input.c`: the serial port and the input buffer, with the
queue of `devices/intq.c` in each.

Threads print through `txq` and read keys from `buffer`; the interrupt handlers of the port
and of the keyboard are at the other ends. The controller raises an interrupt only for
what the interrupt enable register asks for, and `write_ier` computes that from the two
queues. Interrupts are off in all of this code, so a call is one step up to the point where
it ends or where its thread gives up the CPU in the queue.

The controller's side is what the handler sees of it: the bytes that are ready to be
read, and how many it is ready to accept. `sent` is what has been written to its
transmitter, `received` what has been passed to `input_putc`, and `polled` what was sent
before there was a queue. The three are ghosts.
-/
import Pintos.Devices.Intq

set_option autoImplicit false

namespace Pintos.devices

/-- `mode`. -/
inductive transmission
  | UNINIT
  | POLL
  | QUEUE
  deriving DecidableEq, Repr

/-- The interrupt enable register: `IER_XMIT` and `IER_RECV`. -/
structure interrupt_enable where
  xmit : Bool
  recv : Bool
  deriving DecidableEq, Repr

/-- The static data of the two files, and the register. -/
structure serial where
  mode : transmission
  txq : intq
  buffer : intq
  ier : interrupt_enable
  polled : List UInt8
  sent : List UInt8
  received : List UInt8

/-- Behind `input_init`. -/
def serial_boot (priority : ℕ → ℤ) : serial where
  mode := .UNINIT
  txq := intq_init priority
  buffer := intq_init priority
  ier := ⟨false, false⟩
  polled := []
  sent := []
  received := []

/-! ## The code -/

/-- `write_ier`. -/
def write_ier (s : serial) : serial :=
  { s with ier := { xmit := ¬ intq_empty s.txq, recv := ¬ intq_full s.buffer } }

/-- `init_poll`, as far as it is about the queue and the register. -/
def init_poll (s : serial) : Outcome serial := do
  Outcome.assert (s.mode = .UNINIT)
  return { s with
    ier := ⟨false, false⟩
    txq := intq_init s.txq.semaphore.priority
    mode := .POLL }

/-- `if (mode == UNINIT) init_poll ();`. -/
def init_poll_once (s : serial) : Outcome serial := if s.mode = .UNINIT then init_poll s else .ok s

/-- `serial_init_queue`. -/
def serial_init_queue (s : serial) : Outcome serial := do
  let s ← init_poll_once s
  Outcome.assert (s.mode = .POLL)
  return write_ier { s with mode := .QUEUE }

/-- `putc_poll`: the transmitter gets ready at some time. -/
def putc_poll (s : serial) (byte : UInt8) : serial := { s with sent := s.sent ++ [byte] }

/-- `serial_notify`. -/
def serial_notify (s : serial) : serial := if s.mode = .QUEUE then write_ier s else s

/-- A call of a queue by a thread, or by a handler. -/
def call_by (q : intq) (who : Option ℕ) (c : call) : Outcome intq :=
  match who with
  | none => handler_call q c
  | some t => thread_call q t c

/-- `putc_poll (intq_getc (&txq))`, and the same with the bare `outb`. -/
def send_next (s : serial) (who : Option ℕ) : Outcome serial := do
  let byte := s.txq.buf s.txq.tail
  let txq ← call_by s.txq who .intq_getc
  return putc_poll { s with txq := txq } byte

/-- With interrupts off and the queue full, `serial_putc` sends a byte itself. -/
def make_room (s : serial) (who : Option ℕ) (on : Bool) : Outcome serial :=
  if on = false ∧ intq_full s.txq then send_next s who else .ok s

/-- The queue half of `serial_putc`; `on` is the interrupt level of the caller. -/
def serial_putc_queue (s : serial) (who : Option ℕ) (on : Bool) (byte : UInt8) :
    Outcome serial := do
  let s ← make_room s who on
  let txq ← call_by s.txq who (.intq_putc byte)
  match who with
  | none => return write_ier { s with txq := txq }
  | some t =>
      if txq.pc t = .outside then return write_ier { s with txq := txq }
      else return { s with txq := txq }

/-- `serial_putc`. -/
def serial_putc (s : serial) (who : Option ℕ) (on : Bool) (byte : UInt8) : Outcome serial :=
  if s.mode = .QUEUE then serial_putc_queue s who on byte
  else do
    let s ← init_poll_once s
    return putc_poll { s with polled := s.polled ++ [byte] } byte

/-- A thread goes on in `intq_putc`, and behind it in `serial_putc`. -/
def serial_putc_resume (s : serial) (t : ℕ) : Outcome serial := do
  let txq ← resume s.txq t
  if txq.pc t = .outside then return write_ier { s with txq := txq }
  else return { s with txq := txq }

/-- `serial_flush`: the queue has at most `fuel` bytes. -/
def serial_flush (who : Option ℕ) : ℕ → serial → Outcome serial
  | 0, s => if intq_empty s.txq then .ok s else .diverge
  | fuel + 1, s =>
      if intq_empty s.txq then .ok s
      else do
        let s ← send_next s who
        serial_flush who fuel s

/-- `input_putc`. -/
def input_putc (s : serial) (key : UInt8) : Outcome serial := do
  Outcome.assert (¬ intq_full s.buffer)
  let buffer ← handler_call s.buffer (.intq_putc key)
  return serial_notify { s with buffer := buffer, received := s.received ++ [key] }

/-- `input_getc`. -/
def input_getc (s : serial) (t : ℕ) : Outcome serial := do
  let buffer ← thread_call s.buffer t .intq_getc
  if buffer.pc t = .outside then return serial_notify { s with buffer := buffer }
  else return { s with buffer := buffer }

/-- A thread goes on in `intq_getc`, and behind it in `input_getc`. -/
def input_getc_resume (s : serial) (t : ℕ) : Outcome serial := do
  let buffer ← resume s.buffer t
  if buffer.pc t = .outside then return serial_notify { s with buffer := buffer }
  else return { s with buffer := buffer }

/-- The first loop of `serial_interrupt`; `rbr` is what the controller has for the kernel. -/
def receive : List UInt8 → serial → Outcome serial
  | [], s => .ok s
  | byte :: rbr, s =>
      if intq_full s.buffer then .ok s
      else do
        let s ← input_putc s byte
        receive rbr s

/-- The second loop; `ready` is how many bytes the controller accepts. -/
def transmit : ℕ → serial → Outcome serial
  | 0, s => .ok s
  | ready + 1, s =>
      if intq_empty s.txq then .ok s
      else do
        let s ← send_next s none
        transmit ready s

/-- `serial_interrupt`. -/
def serial_interrupt (s : serial) (rbr : List UInt8) (ready : ℕ) : Outcome serial := do
  let s ← receive rbr s
  let s ← transmit ready s
  return write_ier s

/-- The end of `keyboard_interrupt`, for a key that stands for a character. -/
def keyboard_interrupt (s : serial) (key : UInt8) : Outcome serial :=
  if intq_full s.buffer then .ok s else input_putc s key

/-! ## Steps -/

/-- What can happen next. -/
inductive serial_event
  | serial_init_queue
  /-- Thread `t` prints a byte, with interrupts on or off. -/
  | serial_putc (t : ℕ) (on : Bool) (byte : UInt8)
  /-- A handler prints a byte. -/
  | handler_putc (byte : UInt8)
  | putc_resume (t : ℕ)
  | serial_flush (t : ℕ)
  | input_getc (t : ℕ)
  | getc_resume (t : ℕ)
  | serial_interrupt (rbr : List UInt8) (ready : ℕ)
  | keyboard_interrupt (key : UInt8)
  deriving DecidableEq, Repr

/-- The event can happen. -/
def serial_enabled (s : serial) : serial_event → Prop
  | .serial_init_queue => True
  | .serial_putc t _ _ => s.txq.pc t = .outside ∧ s.buffer.pc t = .outside
  | .handler_putc _ => True
  | .putc_resume t => Ready s.txq t
  | .serial_flush t => s.txq.pc t = .outside ∧ s.buffer.pc t = .outside
  | .input_getc t => s.txq.pc t = .outside ∧ s.buffer.pc t = .outside
  | .getc_resume t => Ready s.buffer t
  | .serial_interrupt _ _ => s.mode = .QUEUE
  | .keyboard_interrupt _ => True

instance (s : serial) (e : serial_event) : Decidable (serial_enabled s e) :=
  match e with
  | .serial_init_queue => .isTrue trivial
  | .serial_putc _ _ _ => inferInstanceAs (Decidable (_ ∧ _))
  | .handler_putc _ => .isTrue trivial
  | .putc_resume t => inferInstanceAs (Decidable (Ready s.txq t))
  | .serial_flush _ => inferInstanceAs (Decidable (_ ∧ _))
  | .input_getc _ => inferInstanceAs (Decidable (_ ∧ _))
  | .getc_resume t => inferInstanceAs (Decidable (Ready s.buffer t))
  | .serial_interrupt _ _ => inferInstanceAs (Decidable (_ = _))
  | .keyboard_interrupt _ => .isTrue trivial

/-- One step. -/
def serial_step (s : serial) : serial_event → Outcome serial
  | .serial_init_queue => serial_init_queue s
  | .serial_putc t on byte => serial_putc s (some t) on byte
  | .handler_putc byte => serial_putc s none false byte
  | .putc_resume t => serial_putc_resume s t
  | .serial_flush t => serial_flush (some t) INTQ_BUFSIZE s
  | .input_getc t => input_getc s t
  | .getc_resume t => input_getc_resume s t
  | .serial_interrupt rbr ready => serial_interrupt s rbr ready
  | .keyboard_interrupt key => keyboard_interrupt s key

/-- A schedule. -/
def serial_run : List serial_event → serial → Option serial :=
  Runs.run fun s e => if serial_enabled s e then (serial_step s e).toOption else none

/-! ## What holds at every point -/

/-- The two queues, and what has passed through them. -/
structure Linked (s : serial) : Prop where
  txq : Sound s.txq
  buffer : Sound s.buffer
  puts : Calls s.txq fun c => c ≠ .intq_getc
  gets : Calls s.buffer fun c => c = .intq_getc
  sent : s.sent = s.polled ++ s.txq.removed.map Prod.snd
  received : s.buffer.added.map Prod.snd = s.received
  unused : s.mode ≠ .QUEUE → s.txq.removed = [] ∧ s.txq.added = [] ∧ ∀ t, s.txq.pc t = .outside

/-- The register asks for what the queues need. -/
structure Asks (s : serial) : Prop where
  xmit : s.mode = .QUEUE → ¬ intq_empty s.txq → s.ier.xmit = true
  recv : s.mode = .QUEUE → (s.ier.recv = true ↔ ¬ intq_full s.buffer)

theorem boot_linked (priority : ℕ → ℤ) : Linked (serial_boot priority) := by
  refine ⟨init_sound priority, init_sound priority, fun t c hc => ?_, fun t c hc => ?_, rfl, rfl,
    fun _ => ⟨rfl, rfl, fun _ => rfl⟩⟩
  · cases hc
  · cases hc

theorem boot_asks (priority : ℕ → ℤ) : Asks (serial_boot priority) := by
  refine ⟨fun h => ?_, fun h => ?_⟩
  · cases h
  · cases h

variable {s s' : serial} {t : ℕ} {who : Option ℕ}

theorem Linked.write_ier (h : Linked s) : Linked (write_ier s) :=
  ⟨h.txq, h.buffer, h.puts, h.gets, h.sent, h.received, h.unused⟩

theorem write_ier_asks (s : serial) : Asks (write_ier s) := by
  refine ⟨fun _ he => decide_eq_true he, fun _ => ?_⟩
  show decide (¬ intq_full s.buffer) = true ↔ _
  rw [decide_eq_true_iff]
  exact Iff.rfl

/-- A caller that is not in the queue. -/
def Idle (q : intq) (who : Option ℕ) : Prop := ∀ t, who = some t → q.pc t = .outside

/-- **A call that does not have to wait.** -/
theorem call_by_spec {q q' : intq} {c : call} {p : call → Prop} (h : Sound q) (hidle : Idle q who)
    (hk : Holds q c.needs) (hok : call_by q who c = .ok q') :
    Sound q' ∧ Idle q' who ∧ SameBytes (moved q who c) q' ∧ (Calls q p → Calls q' p) := by
  cases who with
  | none =>
      obtain ⟨hsound, -, hsame, hcalls⟩ := handler_call_advances (p := p) h hok
      refine ⟨hsound, fun t ht => ?_, hsame, hcalls⟩
      cases ht
  | some t =>
      have hpc := hidle t rfl
      obtain ⟨hsound, hout, hsame, hcalls⟩ :=
        thread_call_done (p := p) h (by rw [hpc]; exact id) (by rw [hpc]; exact id) hk hok
      refine ⟨hsound, fun u hu => ?_, hsame, hcalls⟩
      obtain rfl := Option.some.inj hu
      exact hout

/-! ### Sending -/

/-- **`send_next`**: the oldest byte leaves. -/
theorem send_next_spec (h : Linked s) (ha : Asks s) (hmode : s.mode = .QUEUE)
    (hidle : Idle s.txq who) (hk : ¬ intq_empty s.txq) (hok : send_next s who = .ok s') :
    Linked s' ∧ Asks s' ∧ Idle s'.txq who ∧ s'.mode = .QUEUE ∧ s'.buffer = s.buffer
      ∧ s.txq.bytes.length = s'.txq.bytes.length + 1 := by
  obtain ⟨txq, htxq, hret⟩ := Outcome.bind_eq_ok.mp hok
  obtain rfl := Outcome.ok.inj hret
  obtain ⟨hsound, hidle', hsame, hcalls⟩ :=
    call_by_spec (c := .intq_getc) (p := fun c => c ≠ .intq_getc) h.txq hidle hk htxq
  have hbytes : s.txq.bytes = s.txq.buf s.txq.tail :: txq.bytes := by
    rw [hsame.bytes]
    exact bytes_popped who hk
  refine ⟨⟨hsound, h.buffer, hcalls h.puts, h.gets, ?_, h.received, fun hne => absurd hmode hne⟩,
    ⟨fun _ _ => ha.xmit hmode hk, ha.recv⟩, hidle', hmode, rfl, ?_⟩
  · show s.sent ++ [_] = s.polled ++ txq.removed.map Prod.snd
    have hremoved : txq.removed = s.txq.removed ++ [(who, s.txq.buf s.txq.tail)] := hsame.removed
    rw [h.sent, hremoved, List.map_append, List.append_assoc]
    rfl
  · rw [hbytes]
    rfl

/-- Without the queue mode the queue is empty. -/
theorem Linked.empty_of_unused (h : Linked s) (hmode : s.mode ≠ .QUEUE) : intq_empty s.txq := by
  obtain ⟨hremoved, hadded, -⟩ := h.unused hmode
  have hfifo := h.txq.fifo
  rw [Fifo, hremoved, hadded] at hfifo
  exact RingBuffer.contents_eq_nil.mp hfifo

theorem call_by_ok {q : intq} {c : call} (h : Sound q) (hidle : Idle q who) (hk : Holds q c.needs) :
    ∃ q', call_by q who c = .ok q' := by
  cases who with
  | none =>
      obtain ⟨q', hq', -⟩ := finish_spec h none hk
      refine ⟨q', ?_⟩
      show handler_call q c = _
      rw [handler_call, Outcome.assert_pos hk, Outcome.ok_bind, hq']
  | some t =>
      have hpc := hidle t rfl
      obtain ⟨q', hq', -⟩ := thread_call_spec h (t := t) (by rw [hpc]; exact id)
        (by rw [hpc]; exact id) c
      exact ⟨q', hq'⟩

theorem send_next_ok (h : Linked s) (hidle : Idle s.txq who) (hk : ¬ intq_empty s.txq) :
    ∃ s', send_next s who = .ok s' := by
  obtain ⟨txq, htxq⟩ := call_by_ok (c := .intq_getc) h.txq hidle hk
  refine ⟨putc_poll { s with txq := txq } (s.txq.buf s.txq.tail), ?_⟩
  rw [send_next, htxq]
  rfl

/-- **`serial_flush`** sends all there is. -/
theorem serial_flush_spec (h : Linked s) (ha : Asks s) (hidle : Idle s.txq who) {fuel : ℕ}
    (hfuel : s.txq.bytes.length ≤ fuel) :
    ∃ s', serial_flush who fuel s = .ok s' ∧ Linked s' ∧ Asks s' ∧ intq_empty s'.txq := by
  induction fuel generalizing s with
  | zero =>
      have he : intq_empty s.txq :=
        RingBuffer.contents_eq_nil.mp (List.length_eq_zero_iff.mp (Nat.le_zero.mp hfuel))
      exact ⟨s, if_pos he, h, ha, he⟩
  | succ fuel ih =>
      unfold serial_flush
      by_cases he : intq_empty s.txq
      · exact ⟨s, if_pos he, h, ha, he⟩
      · rw [if_neg he]
        have hmode : s.mode = .QUEUE := by
          by_contra hne
          exact he (h.empty_of_unused hne)
        obtain ⟨s₁, hs₁⟩ := send_next_ok h hidle he
        obtain ⟨h₁, ha₁, hidle₁, -, -, hlen⟩ := send_next_spec h ha hmode hidle he hs₁
        obtain ⟨s', hs', hrest⟩ := ih h₁ ha₁ hidle₁ (by omega)
        refine ⟨s', ?_, hrest⟩
        rw [hs₁, Outcome.ok_bind, hs']

theorem transmit_spec (h : Linked s) (ha : Asks s) (hmode : s.mode = .QUEUE) {ready : ℕ}
    (hok : transmit ready s = .ok s') : Linked s' ∧ s'.mode = .QUEUE := by
  induction ready generalizing s with
  | zero =>
      obtain rfl := Outcome.ok.inj hok
      exact ⟨h, hmode⟩
  | succ ready ih =>
      unfold transmit at hok
      by_cases he : intq_empty s.txq
      · rw [if_pos he] at hok
        obtain rfl := Outcome.ok.inj hok
        exact ⟨h, hmode⟩
      · rw [if_neg he] at hok
        obtain ⟨s₁, hs₁, hrest⟩ := Outcome.bind_eq_ok.mp hok
        have hidle : Idle s.txq none := fun t ht => by cases ht
        obtain ⟨h₁, ha₁, -, hmode₁, -⟩ := send_next_spec h ha hmode hidle he hs₁
        exact ih h₁ ha₁ hmode₁ hrest

/-! ### Receiving -/

theorem serial_notify_spec (h : Linked s) :
    Linked (serial_notify s) ∧ Asks (serial_notify s) ∧ (serial_notify s).mode = s.mode := by
  unfold serial_notify
  by_cases hmode : s.mode = .QUEUE
  · rw [if_pos hmode]
    exact ⟨h.write_ier, write_ier_asks s, rfl⟩
  · rw [if_neg hmode]
    exact ⟨h, ⟨fun hq => absurd hq hmode, fun hq => absurd hq hmode⟩, rfl⟩

theorem input_putc_spec (h : Linked s) {key : UInt8} (hok : input_putc s key = .ok s') :
    Linked s' ∧ Asks s' ∧ s'.mode = s.mode := by
  obtain ⟨_, -, hrest⟩ := Outcome.bind_eq_ok.mp hok
  obtain ⟨buffer, hbuffer, hret⟩ := Outcome.bind_eq_ok.mp hrest
  obtain rfl := Outcome.ok.inj hret
  obtain ⟨hsound, -, hsame, hcalls⟩ := handler_call_advances (p :=
    fun c => c = .intq_getc) h.buffer hbuffer
  have hadded : buffer.added = s.buffer.added ++ [(none, key)] := hsame.added
  refine serial_notify_spec ⟨h.txq, hsound, h.puts, hcalls h.gets, h.sent, ?_, h.unused⟩
  show buffer.added.map Prod.snd = s.received ++ [key]
  rw [hadded, List.map_append, h.received]
  rfl

theorem receive_spec (h : Linked s) (ha : Asks s) {rbr : List UInt8}
    (hok : receive rbr s = .ok s') : Linked s' ∧ Asks s' ∧ s'.mode = s.mode := by
  induction rbr generalizing s with
  | nil =>
      obtain rfl := Outcome.ok.inj hok
      exact ⟨h, ha, rfl⟩
  | cons byte rbr ih =>
      unfold receive at hok
      by_cases hf : intq_full s.buffer
      · rw [if_pos hf] at hok
        obtain rfl := Outcome.ok.inj hok
        exact ⟨h, ha, rfl⟩
      · rw [if_neg hf] at hok
        obtain ⟨s₁, hs₁, hrest⟩ := Outcome.bind_eq_ok.mp hok
        obtain ⟨h₁, ha₁, hmode₁⟩ := input_putc_spec h hs₁
        obtain ⟨h', ha', hmode'⟩ := ih h₁ ha₁ hrest
        exact ⟨h', ha', hmode'.trans hmode₁⟩

/-! ### Threads -/

theorem Asks.of_same (ha : Asks s) {txq buffer : intq} (ht : SameBytes s.txq txq)
    (hb : SameBytes s.buffer buffer) : Asks { s with txq := txq, buffer := buffer } := by
  refine ⟨fun hmode he => ha.xmit hmode ((ht.holds .not_empty).mp he), fun hmode => ?_⟩
  rw [show ({ s with txq := txq, buffer := buffer } : serial).ier = s.ier from rfl, ha.recv hmode]
  exact (hb.holds .not_full).symm

/-- A thread has made a step in `input_getc`. -/
theorem getc_advances (h : Linked s) (ha : Asks s) {buffer : intq} (hsound : Sound buffer)
    (hadv : Advances t .intq_getc s.buffer buffer) (hcalls : Calls buffer fun c => c = .intq_getc)
    (hok : (if buffer.pc t = .outside then (return serial_notify { s with buffer := buffer } : Outcome serial)
      else return { s with buffer := buffer }) = .ok s') : Linked s' ∧ Asks s' := by
  have hadded : buffer.added = s.buffer.added := by
    rcases hadv with ⟨-, -, hsame⟩ | ⟨-, hsame⟩
    · exact hsame.added
    · exact hsame.added
  have hlinked : Linked { s with buffer := buffer } := by
    refine ⟨h.txq, hsound, h.puts, hcalls, h.sent, ?_, h.unused⟩
    show buffer.added.map Prod.snd = s.received
    rw [hadded, h.received]
  by_cases hout : buffer.pc t = .outside
  · rw [if_pos hout] at hok
    obtain rfl := Outcome.ok.inj hok
    obtain ⟨hl, hasks, -⟩ := serial_notify_spec hlinked
    exact ⟨hl, hasks⟩
  · rw [if_neg hout] at hok
    obtain rfl := Outcome.ok.inj hok
    refine ⟨hlinked, ?_⟩
    rcases hadv with ⟨hyes, -⟩ | ⟨-, hsame⟩
    · exact absurd hyes hout
    · exact ha.of_same (SameBytes.refl s.txq) hsame

/-- A thread has made a step in `intq_putc` of `serial_putc`. -/
theorem putc_advances (h : Linked s) (ha : Asks s) (hmode : s.mode = .QUEUE) {txq : intq}
    {byte : UInt8} (hsound : Sound txq) (hadv : Advances t (.intq_putc byte) s.txq txq)
    (hcalls : Calls txq fun c => c ≠ .intq_getc)
    (hok : (if txq.pc t = .outside then (return write_ier { s with txq := txq } : Outcome serial)
      else return { s with txq := txq }) = .ok s') : Linked s' ∧ Asks s' := by
  have hremoved : txq.removed = s.txq.removed := by
    rcases hadv with ⟨-, -, hsame⟩ | ⟨-, hsame⟩
    · exact hsame.removed
    · exact hsame.removed
  have hlinked : Linked { s with txq := txq } := by
    refine ⟨hsound, h.buffer, hcalls, h.gets, ?_, h.received, fun hne => absurd hmode hne⟩
    show s.sent = s.polled ++ txq.removed.map Prod.snd
    rw [hremoved, h.sent]
  by_cases hout : txq.pc t = .outside
  · rw [if_pos hout] at hok
    obtain rfl := Outcome.ok.inj hok
    exact ⟨hlinked.write_ier, write_ier_asks _⟩
  · rw [if_neg hout] at hok
    obtain rfl := Outcome.ok.inj hok
    refine ⟨hlinked, ?_⟩
    rcases hadv with ⟨hyes, -⟩ | ⟨-, hsame⟩
    · exact absurd hyes hout
    · exact ha.of_same hsame (SameBytes.refl s.buffer)

theorem serial_putc_queue_spec (h : Linked s) (ha : Asks s) (hmode : s.mode = .QUEUE)
    (hidle : Idle s.txq who) {on : Bool} {byte : UInt8}
    (hok : serial_putc_queue s who on byte = .ok s') :
    Linked s' ∧ Asks s' := by
  obtain ⟨s₁, hs₁, hrest⟩ := Outcome.bind_eq_ok.mp hok
  have hfirst : Linked s₁ ∧ Asks s₁ ∧ Idle s₁.txq who ∧ s₁.mode = .QUEUE := by
    unfold make_room at hs₁
    split at hs₁
    · rename_i hfull
      have he := not_empty_of_full hfull.2
      obtain ⟨h₁, ha₁, hidle₁, hmode₁, -⟩ := send_next_spec h ha hmode hidle he hs₁
      exact ⟨h₁, ha₁, hidle₁, hmode₁⟩
    · obtain rfl := Outcome.ok.inj hs₁
      exact ⟨h, ha, hidle, hmode⟩
  obtain ⟨h₁, ha₁, hidle₁, hmode₁⟩ := hfirst
  obtain ⟨txq, htxq, hret⟩ := Outcome.bind_eq_ok.mp hrest
  cases who with
  | none =>
      obtain rfl := Outcome.ok.inj hret
      obtain ⟨hsound, -, hsame, hcalls⟩ :=
        handler_call_advances (p := fun c => c ≠ .intq_getc) h₁.txq htxq
      have hremoved : txq.removed = s₁.txq.removed := hsame.removed
      refine ⟨Linked.write_ier ⟨hsound, h₁.buffer, hcalls h₁.puts, h₁.gets, ?_, h₁.received,
        fun hne => absurd hmode₁ hne⟩, write_ier_asks _⟩
      show s₁.sent = s₁.polled ++ txq.removed.map Prod.snd
      rw [hremoved, h₁.sent]
  | some t =>
      have hpc := hidle₁ t rfl
      obtain ⟨hsound, hadv, hcalls⟩ := thread_call_advances (p := fun c => c ≠ .intq_getc) h₁.txq
        (by rw [hpc]; exact id) (by rw [hpc]; exact id) htxq
      exact putc_advances h₁ ha₁ hmode₁ hsound hadv (hcalls h₁.puts (by simp)) hret

theorem init_poll_spec (h : Linked s) (hok : init_poll s = .ok s') :
    Linked s' ∧ s'.mode = .POLL := by
  obtain ⟨_, hmode, hret⟩ := Outcome.bind_eq_ok.mp hok
  obtain rfl := Outcome.ok.inj hret
  rw [Outcome.assert_eq_ok] at hmode
  obtain ⟨hremoved, -, -⟩ := h.unused (by rw [hmode]; decide)
  have hsent := h.sent
  rw [hremoved] at hsent
  refine ⟨⟨init_sound _, h.buffer, fun t c hc => ?_, h.gets, hsent, h.received,
    fun _ => ⟨rfl, rfl, fun _ => rfl⟩⟩, rfl⟩
  cases hc

/-- In front of the queue mode, the first use initializes the port. -/
theorem init_poll_once_spec (h : Linked s) (hmode : s.mode ≠ .QUEUE)
    (hok : init_poll_once s = .ok s') : Linked s' ∧ s'.mode = .POLL := by
  unfold init_poll_once at hok
  split at hok
  · exact init_poll_spec h hok
  · rename_i hne
    obtain rfl := Outcome.ok.inj hok
    refine ⟨h, ?_⟩
    cases hm : s.mode with
    | UNINIT => exact absurd hm hne
    | POLL => rfl
    | QUEUE => exact absurd hm hmode

theorem serial_putc_spec (h : Linked s) (ha : Asks s) (hidle : Idle s.txq who) {on : Bool}
    {byte : UInt8} (hok : serial_putc s who on byte = .ok s') : Linked s' ∧ Asks s' := by
  unfold serial_putc at hok
  by_cases hmode : s.mode = .QUEUE
  · rw [if_pos hmode] at hok
    exact serial_putc_queue_spec h ha hmode hidle hok
  · rw [if_neg hmode] at hok
    obtain ⟨s₁, hs₁, hret⟩ := Outcome.bind_eq_ok.mp hok
    obtain ⟨h₁, hmode₁⟩ := init_poll_once_spec h hmode hs₁
    obtain rfl := Outcome.ok.inj hret
    have hnot : s₁.mode ≠ .QUEUE := by rw [hmode₁]; decide
    obtain ⟨hremoved, -, -⟩ := h₁.unused hnot
    refine ⟨⟨h₁.txq, h₁.buffer, h₁.puts, h₁.gets, ?_, h₁.received, h₁.unused⟩,
      ⟨fun hq => absurd hq hnot, fun hq => absurd hq hnot⟩⟩
    show s₁.sent ++ [byte] = (s₁.polled ++ [byte]) ++ s₁.txq.removed.map Prod.snd
    rw [h₁.sent, hremoved]
    simp

/-- **One step.** -/
theorem serial_step_spec (h : Linked s) (ha : Asks s) {e : serial_event} (he : serial_enabled s e)
    (hok : serial_step s e = .ok s') : Linked s' ∧ Asks s' := by
  cases e with
  | serial_init_queue =>
      obtain ⟨s₁, hs₁, hrest⟩ := Outcome.bind_eq_ok.mp hok
      obtain ⟨_, hpoll, hret⟩ := Outcome.bind_eq_ok.mp hrest
      obtain rfl := Outcome.ok.inj hret
      have hmode : s.mode ≠ .QUEUE := by
        intro hq
        rw [init_poll_once, hq, if_neg (by decide)] at hs₁
        obtain rfl := Outcome.ok.inj hs₁
        rw [Outcome.assert_eq_ok, hq] at hpoll
        cases hpoll
      obtain ⟨h₁, -⟩ := init_poll_once_spec h hmode hs₁
      exact ⟨Linked.write_ier ⟨h₁.txq, h₁.buffer, h₁.puts, h₁.gets, h₁.sent, h₁.received,
        fun hne => absurd rfl hne⟩, write_ier_asks _⟩
  | serial_putc t on byte =>
      refine serial_putc_spec h ha (fun u hu => ?_) hok
      obtain rfl := Option.some.inj hu
      exact he.1
  | handler_putc byte => exact serial_putc_spec h ha (fun u hu => by cases hu) hok
  | putc_resume t =>
      obtain ⟨txq, htxq, hret⟩ := Outcome.bind_eq_ok.mp hok
      have hready : Ready s.txq t := he
      obtain ⟨c, hc, hsound, hadv, hcalls⟩ :=
        resume_advances (p := fun c => c ≠ .intq_getc) h.txq hready htxq
      have hmode : s.mode = .QUEUE := by
        by_contra hne
        rw [(h.unused hne).2.2 t] at hc
        cases hc
      cases c with
      | intq_getc => exact absurd rfl (h.puts t _ hc)
      | intq_putc byte => exact putc_advances h ha hmode hsound hadv (hcalls h.puts) hret
  | serial_flush t =>
      have hidle : Idle s.txq (some t) := by
        intro u hu
        obtain rfl := Option.some.inj hu
        exact he.1
      have hlen : s.txq.bytes.length < INTQ_BUFSIZE := RingBuffer.length_contents_lt
      obtain ⟨s₁, hs₁, h₁, ha₁, -⟩ := serial_flush_spec h ha hidle hlen.le
      rw [show serial_flush (some t) INTQ_BUFSIZE s = .ok s' from hok] at hs₁
      obtain rfl := Outcome.ok.inj hs₁
      exact ⟨h₁, ha₁⟩
  | input_getc t =>
      obtain ⟨buffer, hbuffer, hret⟩ := Outcome.bind_eq_ok.mp hok
      have hpc : s.buffer.pc t = .outside := he.2
      obtain ⟨hsound, hadv, hcalls⟩ := thread_call_advances (p := fun c => c = .intq_getc) h.buffer
        (by rw [hpc]; exact id) (by rw [hpc]; exact id) hbuffer
      exact getc_advances h ha hsound hadv (hcalls h.gets rfl) hret
  | getc_resume t =>
      obtain ⟨buffer, hbuffer, hret⟩ := Outcome.bind_eq_ok.mp hok
      have hready : Ready s.buffer t := he
      obtain ⟨c, hc, hsound, hadv, hcalls⟩ :=
        resume_advances (p := fun c => c = .intq_getc) h.buffer hready hbuffer
      obtain rfl := h.gets t c hc
      exact getc_advances h ha hsound hadv (hcalls h.gets) hret
  | serial_interrupt rbr ready =>
      obtain ⟨s₁, hs₁, hrest⟩ := Outcome.bind_eq_ok.mp hok
      obtain ⟨s₂, hs₂, hret⟩ := Outcome.bind_eq_ok.mp hrest
      obtain rfl := Outcome.ok.inj hret
      obtain ⟨h₁, ha₁, hmode₁⟩ := receive_spec h ha hs₁
      obtain ⟨h₂, -⟩ := transmit_spec h₁ ha₁ (hmode₁.trans he) hs₂
      exact ⟨h₂.write_ier, write_ier_asks s₂⟩
  | keyboard_interrupt key =>
      have hkey : keyboard_interrupt s key = .ok s' := hok
      unfold keyboard_interrupt at hkey
      split at hkey
      · obtain rfl := Outcome.ok.inj hkey
        exact ⟨h, ha⟩
      · obtain ⟨h', ha', -⟩ := input_putc_spec h hkey
        exact ⟨h', ha'⟩

/-! ## Schedules -/

variable {priority : ℕ → ℤ} {es : List serial_event}

/-- **Every schedule.** -/
theorem serial_run_spec (hrun : serial_run es (serial_boot priority) = some s) :
    Linked s ∧ Asks s := by
  refine Runs.invariant (I := fun s => Linked s ∧ Asks s) (fun s e s' h hstep => ?_)
    ⟨boot_linked priority, boot_asks priority⟩ hrun
  obtain ⟨he, hok⟩ := Option.ite_none_right_eq_some.mp hstep
  rw [Outcome.toOption_eq_some] at hok
  exact serial_step_spec h.1 h.2 he hok

/-- **Console bytes under every schedule**: what has been sent, and then what is in the queue, is
what was printed, in order; what has been read, and then what is in the buffer, is what was
received. -/
theorem serial_bytes_along (hrun : serial_run es (serial_boot priority) = some s) :
    s.sent ++ s.txq.bytes = s.polled ++ s.txq.added.map Prod.snd
    ∧ s.buffer.removed.map Prod.snd ++ s.buffer.bytes = s.received := by
  obtain ⟨h, -⟩ := serial_run_spec hrun
  constructor
  · rw [h.sent, List.append_assoc]
    exact congrArg (s.polled ++ ·) h.txq.fifo
  · rw [← h.received]
    exact h.buffer.fifo

/-- A thread prints, reads a key, and the port sends one byte and gets another. -/
theorem serial_bytes_example : ∃ s, serial_run [.serial_init_queue, .serial_putc 1 true 65,
      .serial_putc 1 true 66, .keyboard_interrupt 97, .input_getc 1, .serial_interrupt [98] 1]
      (serial_boot fun _ => PRI_DEFAULT) = some s
    ∧ s.sent = [65] ∧ s.buffer.removed = [(some 1, 97)]
    ∧ s.sent ++ s.txq.bytes = s.polled ++ s.txq.added.map Prod.snd
    ∧ s.buffer.removed.map Prod.snd ++ s.buffer.bytes = s.received := by
  refine ⟨_, rfl, rfl, rfl, ?_⟩
  exact @serial_bytes_along _ (fun _ => PRI_DEFAULT) [.serial_init_queue, .serial_putc 1 true 65,
    .serial_putc 1 true 66, .keyboard_interrupt 97, .input_getc 1, .serial_interrupt [98] 1] rfl

/-- **The register asks for every interrupt that is needed**: for the transmitter while there is
something to send, so in particular while a thread sleeps for room in the queue, and for the
receiver exactly while there is room in the buffer. -/
theorem serial_interrupts_along (hrun : serial_run es (serial_boot priority) = some s)
    (hmode : s.mode = .QUEUE) :
    (¬ intq_empty s.txq → s.ier.xmit = true)
    ∧ (∀ t c, s.txq.pc t = .waiting c → s.ier.xmit = true)
    ∧ (s.ier.recv = true ↔ ¬ intq_full s.buffer) := by
  obtain ⟨h, ha⟩ := serial_run_spec hrun
  refine ⟨ha.xmit hmode, fun t c hc => ha.xmit hmode fun he => ?_, ha.recv hmode⟩
  -- whoever sleeps here sleeps for room
  cases c with
  | intq_getc => exact h.puts t _ (by rw [hc]; rfl) rfl
  | intq_putc byte => exact not_empty_of_full (not_not.mp (h.txq.asleep t _ hc)) he

/-- One byte waits to be sent, and the buffer has room. -/
theorem serial_interrupts_example : ∃ s, serial_run [.serial_init_queue, .serial_putc 1 true 65]
      (serial_boot fun _ => PRI_DEFAULT) = some s ∧ s.ier.xmit = true ∧ s.ier.recv = true := by
  refine ⟨_, rfl, ?_⟩
  have h := @serial_interrupts_along _ (fun _ => PRI_DEFAULT)
    [.serial_init_queue, .serial_putc 1 true 65] rfl rfl
  exact ⟨h.1 (by decide), h.2.2.mpr (by decide)⟩

end Pintos.devices
