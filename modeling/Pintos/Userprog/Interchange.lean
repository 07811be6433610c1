/-
`userprog/syscall.c`: using a descriptor and its duplicate.

After `sys_dup2` both slots hold the same pointer. The calls on a file look at the slot, and
some of them at the number: `process_get_file` turns 0 and 1 away whatever they hold. So the
two descriptors can be exchanged if `process_get_file` treats the numbers alike, or is not
asked.
-/
import Pintos.Userprog.CallSafety

set_option autoImplicit false

namespace Pintos

/-! ## Sequences of calls -/

/-- The calls that use a descriptor and leave the table alone. -/
inductive io_call
  | read (fd : ℤ) (buffer size : ℕ)
  | write (fd : ℤ) (buffer size : ℕ)
  | seek (fd : ℤ) (position : ℕ)
  | tell (fd : ℤ)
  | filesize (fd : ℤ)

namespace io_call

/-- The descriptor. -/
def fd : io_call → ℤ
  | .read fd _ _ | .write fd _ _ | .seek fd _ | .tell fd | .filesize fd => fd

/-- The same call on another descriptor. -/
def set_fd (fd : ℤ) : io_call → io_call
  | .read _ buffer size => .read fd buffer size
  | .write _ buffer size => .write fd buffer size
  | .seek _ position => .seek fd position
  | .tell _ => .tell fd
  | .filesize _ => .filesize fd

end io_call

/-- One call. -/
def io_step (p : io_process) : io_call → Outcome (reply × io_process)
  | .read fd buffer size => (sys_read p fd buffer size).result
  | .write fd buffer size => (sys_write p fd buffer size).result
  | .seek fd position => (sys_seek p fd position).result
  | .tell fd => do
      let pos ← (sys_tell p.proc fd).result
      return (.returned pos, p)
  | .filesize fd => do
      let size ← (sys_filesize p.proc fd).result
      return (.returned size, p)

/-- The calls in order, until one ends the process. -/
def io_run : List io_call → io_process → Outcome (List reply × io_process)
  | [], p => .ok ([], p)
  | c :: cs, p => do
      let (r, p) ← io_step p c
      if r = .exited then return ([r], p)
      else
        let (rs, p) ← io_run cs p
        return (r :: rs, p)

/-- `c'` is `c`, or `c` with `newfd` for `oldfd`. -/
def Replaced (oldfd newfd : ℤ) (c c' : io_call) : Prop :=
  c' = c ∨ c.fd = oldfd ∧ c' = c.set_fd newfd

/-- **Interchangeable**: no sequence of calls tells `newfd` from `oldfd`. -/
def Interchangeable (p : io_process) (oldfd newfd : ℤ) : Prop :=
  ∀ cs cs', List.Forall₂ (Replaced oldfd newfd) cs cs' → io_run cs' p = io_run cs p

/-! ## What the calls keep -/

/-- The table and its counters. -/
structure SameTable (p p' : io_process) : Prop where
  fd_table : p'.proc.fd_table = p.proc.fd_table
  stdout_count : p'.proc.stdout_count = p.proc.stdout_count

/-- The call returns with the table it found. -/
def Keeps (p : io_process) (o : Outcome (reply × io_process)) : Prop :=
  ∀ r p', o = .ok (r, p') → SameTable p p'

section Keeps

variable {p p' : io_process} {r : reply}

theorem keeps_pure (h : SameTable p p') : Keeps p (.ok (r, p')) := by
  rintro _ _ ⟨⟩
  exact h

theorem keeps_bind {α : Type} {x : Outcome α} {f : α → Outcome (reply × io_process)}
    (h : ∀ a, Keeps p (f a)) : Keeps p (x >>= f) := by
  intro r p' hrun
  obtain ⟨a, -, hrun⟩ := Outcome.bind_eq_ok.mp hrun
  exact h a r p' hrun

theorem keeps_ite {c : Prop} [Decidable c] {x y : Traced touch (reply × io_process)}
    (hx : Keeps p x.result) (hy : Keeps p y.result) : Keeps p (if c then x else y).result := by
  by_cases hc : c
  · rw [if_pos hc]
    exact hx
  · rw [if_neg hc]
    exact hy

theorem keeps_traced_bind {α : Type} {x : Traced touch α}
    {f : α → Traced touch (reply × io_process)}
    (h : ∀ a, Keeps p (f a).result) : Keeps p (x >>= f).result := by
  rw [Traced.bind_result]
  exact keeps_bind h

theorem SameTable.refl (p : io_process) : SameTable p p := ⟨rfl, rfl⟩

theorem keeps_return (r : reply) (h : SameTable p p') :
    Keeps p (pure (r, p') : Traced touch (reply × io_process)).result := keeps_pure h

theorem keeps_self (r : reply) :
    Keeps p (pure (r, p) : Traced touch (reply × io_process)).result :=
      keeps_pure (SameTable.refl p)

theorem sys_read_keeps (p : io_process) (fd : ℤ) (buffer size : ℕ) :
    Keeps p (sys_read p fd buffer size).result := by
  unfold sys_read
  apply keeps_ite (keeps_self _)
  apply keeps_ite (keeps_self _)
  apply keeps_ite (keeps_self _)
  apply keeps_traced_bind
  intro slot
  apply keeps_ite
  · apply keeps_ite
    · exact keeps_return _ ⟨rfl, rfl⟩
    · exact keeps_self _
  apply keeps_traced_bind
  intro file_obj
  apply keeps_ite (keeps_self _)
  apply keeps_traced_bind
  intro f
  apply keeps_traced_bind
  rintro ⟨n, b, s⟩
  exact keeps_return _ ⟨rfl, rfl⟩

theorem sys_write_keeps (p : io_process) (fd : ℤ) (buffer size : ℕ) :
    Keeps p (sys_write p fd buffer size).result := by
  unfold sys_write
  apply keeps_ite (keeps_self _)
  apply keeps_ite (keeps_self _)
  apply keeps_traced_bind
  intro slot
  apply keeps_ite
  · exact keeps_return _ ⟨rfl, rfl⟩
  apply keeps_traced_bind
  intro f
  apply keeps_ite (keeps_self _)
  apply keeps_traced_bind
  intro isdir
  apply keeps_ite (keeps_self _)
  apply keeps_traced_bind
  intro f
  apply keeps_traced_bind
  rintro ⟨n, s⟩
  exact keeps_return _ ⟨rfl, rfl⟩

theorem sys_seek_keeps (p : io_process) (fd : ℤ) (position : ℕ) :
    Keeps p (sys_seek p fd position).result := by
  unfold sys_seek
  apply keeps_ite (keeps_self _)
  apply keeps_traced_bind
  intro slot
  apply keeps_ite (keeps_self _)
  apply keeps_traced_bind
  intro file_obj
  apply keeps_ite (keeps_self _)
  apply keeps_traced_bind
  intro f
  apply keeps_traced_bind
  intro s
  exact keeps_return _ ⟨rfl, rfl⟩

/-- **The five calls leave the table alone.** -/
theorem io_step_keeps (p : io_process) (c : io_call) : Keeps p (io_step p c) := by
  cases c with
  | read fd buffer size => exact sys_read_keeps p fd buffer size
  | write fd buffer size => exact sys_write_keeps p fd buffer size
  | seek fd position => exact sys_seek_keeps p fd position
  | tell fd => exact keeps_bind fun pos => keeps_pure (SameTable.refl p)
  | filesize fd => exact keeps_bind fun size => keeps_pure (SameTable.refl p)

end Keeps

/-! ## Two descriptors that no call tells apart -/

/-- The same slot behind two numbers, and `process_get_file` is not in the way. -/
structure Twins (x : fd_process) (a b : ℤ) : Prop where
  left : 0 ≤ a ∧ a < MAX_FD
  right : 0 ≤ b ∧ b < MAX_FD
  slot : x.fd_table b.toNat = x.fd_table a.toNat
  low : (a < 2 ↔ b < 2) ∨ x.fd_table a.toNat = .stdout ∧ x.stdout_count ≠ 0

section Twins

variable {p p' : io_process} {x : fd_process} {a b : ℤ}

theorem Twins.keep (h : Twins p.proc a b) (hsame : SameTable p p') : Twins p'.proc a b := by
  refine ⟨h.left, h.right, ?_, ?_⟩
  · rw [hsame.fd_table]
    exact h.slot
  · rw [hsame.fd_table, hsame.stdout_count]
    exact h.low

theorem fd_at_bind_result {β : Type} {fd : ℤ} {f : fd_slot → Traced touch β}
    (h : 0 ≤ fd ∧ fd < MAX_FD) : (fd_at x fd >>= f).result = (f (x.fd_table fd.toNat)).result := by
  rw [Traced.bind_result, fd_at_result h, Outcome.ok_bind]

theorem not_out {fd : ℤ} (h : 0 ≤ fd ∧ fd < MAX_FD) : ¬ (fd < 0 ∨ MAX_FD ≤ fd) := by omega

/-- `process_get_file` within the table. -/
theorem process_get_file_result {fd : ℤ} (h : 0 ≤ fd ∧ fd < MAX_FD) :
    (process_get_file x fd).result = .ok (if fd < 2 then .null else x.fd_table fd.toNat) := by
  unfold process_get_file
  by_cases hlow : fd < 2
  · rw [if_pos (Or.inl hlow), if_pos hlow]
    rfl
  · rw [if_neg (by omega), if_neg hlow, fd_at_result h]

/-- **One call** does not tell twins apart. -/
theorem io_step_twins (h : Twins p.proc a b) (c : io_call) :
    io_step p (c.set_fd b) = io_step p (c.set_fd a) := by
  have ha := not_out h.left
  have hb := not_out h.right
  cases c with
  | read fd buffer size =>
      change (sys_read p b buffer size).result = (sys_read p a buffer size).result
      simp only [sys_read, if_neg ha, if_neg hb, apply_ite Traced.result,
        fd_at_bind_result h.left, fd_at_bind_result h.right, h.slot]
  | write fd buffer size =>
      change (sys_write p b buffer size).result = (sys_write p a buffer size).result
      simp only [sys_write, if_neg ha, if_neg hb]
      by_cases hbuf : ¬ check_read_buffer p.mem buffer size
      · rw [if_pos hbuf, if_pos hbuf]
      rw [if_neg hbuf, if_neg hbuf, fd_at_bind_result h.left, fd_at_bind_result h.right, h.slot]
      by_cases hout : p.proc.fd_table a.toNat = .stdout ∧ p.proc.stdout_count ≠ 0
      · rw [if_pos hout, if_pos hout]
      · -- The numbers are looked at, and they are on the same side of 2.
        have hlow : a < 2 ↔ b < 2 := h.low.resolve_right hout
        rw [if_neg hout, if_neg hout, Traced.bind_result, Traced.bind_result,
          process_get_file_result h.left, process_get_file_result h.right, h.slot]
        simp only [hlow]
  | seek fd position =>
      simp only [io_call.set_fd, io_step, sys_seek, if_neg ha, if_neg hb,
        fd_at_bind_result h.left, fd_at_bind_result h.right, apply_ite Traced.result, h.slot]
  | tell fd =>
      simp only [io_call.set_fd, io_step, sys_tell, if_neg ha, if_neg hb,
        fd_at_bind_result h.left, fd_at_bind_result h.right, h.slot]
  | filesize fd =>
      simp only [io_call.set_fd, io_step, sys_filesize, if_neg ha, if_neg hb,
        fd_at_bind_result h.left, fd_at_bind_result h.right, h.slot]

theorem io_call.set_fd_fd (c : io_call) : c.set_fd c.fd = c := by
  cases c <;> rfl

theorem io_step_replaced {c c' : io_call} (h : Twins p.proc a b) (hc : Replaced a b c c') :
    io_step p c' = io_step p c := by
  rcases hc with rfl | ⟨hfd, rfl⟩
  · rfl
  · rw [io_step_twins h, ← hfd, c.set_fd_fd]

/-- **Twins are interchangeable.** -/
theorem Twins.interchangeable (h : Twins p.proc a b) : Interchangeable p a b := by
  intro cs cs' hcs
  induction hcs generalizing p with
  | nil => rfl
  | cons hc _ ih =>
      unfold io_run
      rw [io_step_replaced h hc]
      -- The rest is run in the process that the call leaves, and the twins are still there.
      apply Outcome.bind_congr
      rintro ⟨r, p'⟩ hrun
      have h' : Twins p'.proc a b := h.keep (io_step_keeps p _ r p' hrun)
      by_cases hexit : r = .exited
      · simp only [if_pos hexit]
      · simp only [if_neg hexit, ih h']

end Twins

/-! ## The call that tells 0 and 1 from the others -/

section Empty

variable {p p' : io_process} {a b : ℤ}

/-- An empty buffer passes the check in every memory. -/
theorem check_empty_buffer (m : user_memory) : check_read_buffer m PGSIZE 0 = true := by
  have hpages : buffer_pages PGSIZE 0 = [] := by decide
  unfold check_read_buffer check_buffer
  rw [hpages]
  change (decide (PGSIZE < KERN_BASE ∧ buffer_end PGSIZE 0 < KERN_BASE) && true) = true
  decide

/-- Writing no byte writes no byte. -/
theorem file_write_empty {s s' : filesys} {f : ℕ} {buffer : Bytes} {n : ℤ}
    (h : file_write s f buffer (i32 (0 : ℕ)) = .ok (n, s')) : n = 0 := by
  obtain ⟨fl, -, h⟩ := Outcome.bind_eq_ok.mp h
  obtain ⟨⟨written, s₁⟩, hat, h⟩ := Outcome.bind_eq_ok.mp h
  obtain ⟨fl', -, hat⟩ := Outcome.bind_eq_ok.mp hat
  obtain ⟨ino, -, hat⟩ := Outcome.bind_eq_ok.mp hat
  obtain ⟨⟨w, d, fs, ino'⟩, hino, hat⟩ := Outcome.bind_eq_ok.mp hat
  cases Outcome.ok.inj h
  cases Outcome.ok.inj hat
  unfold inode_write_at at hino
  by_cases hdeny : ino.deny_write_cnt ≠ 0
  · rw [if_pos hdeny] at hino
    cases Outcome.ok.inj hino
    rfl
  rw [if_neg hdeny] at hino
  dsimp only at hino
  split at hino
  all_goals
    obtain ⟨⟨d₁, fs₁, ino₁⟩, -, hino⟩ := Outcome.bind_eq_ok.mp hino
    obtain ⟨⟨bytes, d₂⟩, hloop, hino⟩ := Outcome.bind_eq_ok.mp hino
    obtain ⟨d₃, -, hino⟩ := Outcome.bind_eq_ok.mp hino
    cases Outcome.ok.inj hino
    -- The copy loop stops before its first pass.
    cases Outcome.ok.inj hloop
    rfl

/-- Below 2 `sys_write` returns -1. -/
theorem write_empty_low (ha : 0 ≤ a ∧ a < MAX_FD) (hlow : a < 2)
    (hout : p.proc.fd_table a.toNat ≠ .stdout) :
    io_step p (.write a PGSIZE 0) = .ok (.returned (-1), p) := by
  change (sys_write p a PGSIZE 0).result = _
  unfold sys_write
  rw [if_neg (not_not.mpr (check_empty_buffer p.mem)), if_neg (not_out ha), fd_at_bind_result ha,
    if_neg (fun h => hout h.1), Traced.bind_result, process_get_file_result ha, if_pos hlow]
  rfl

/-- From 2 on it does not, whatever is in the slot. -/
theorem write_empty_high (ha : 0 ≤ a ∧ a < MAX_FD) (hhigh : 2 ≤ a)
    (hnull : p.proc.fd_table a.toNat ≠ .null) (hout : p.proc.fd_table a.toNat ≠ .stdout) :
    io_step p (.write a PGSIZE 0) ≠ .ok (.returned (-1), p') := by
  intro h
  change (sys_write p a PGSIZE 0).result = _ at h
  unfold sys_write at h
  rw [if_neg (not_not.mpr (check_empty_buffer p.mem)), if_neg (not_out ha), fd_at_bind_result ha,
    if_neg (fun h => hout h.1), Traced.bind_result, process_get_file_result ha,
    if_neg (show ¬ a < 2 by omega), Outcome.ok_bind, if_neg hnull, Traced.bind_result] at h
  obtain ⟨isdir, -, h⟩ := Outcome.bind_eq_ok.mp h
  by_cases hdir : isdir = true
  · rw [if_pos hdir] at h
    cases Outcome.ok.inj h
  rw [if_neg hdir, Traced.bind_result] at h
  obtain ⟨f, -, h⟩ := Outcome.bind_eq_ok.mp h
  rw [Traced.bind_result] at h
  obtain ⟨⟨n, s⟩, hwrite, h⟩ := Outcome.bind_eq_ok.mp h
  have hzero : n = 0 := file_write_empty hwrite
  rw [hzero] at h
  cases Outcome.ok.inj h

/-- A sequence of one call. -/
theorem io_run_single (p : io_process) (c : io_call) :
    io_run [c] p = io_step p c >>= fun v => .ok ([v.1], v.2) := by
  unfold io_run
  apply Outcome.bind_congr
  rintro ⟨r, p'⟩ -
  by_cases hexit : r = .exited
  · simp only [if_pos hexit]
    rfl
  · simp only [if_neg hexit]
    rfl

/-- **A number below 2 and one from 2 on** are told apart. -/
theorem not_interchangeable (h : Interchangeable p a b) (ha : 0 ≤ a ∧ a < MAX_FD)
    (hb : 0 ≤ b ∧ b < MAX_FD) (hslot : p.proc.fd_table b.toNat = p.proc.fd_table a.toNat)
    (hnull : p.proc.fd_table a.toNat ≠ .null) (hout : p.proc.fd_table a.toNat ≠ .stdout) :
    a < 2 ↔ b < 2 := by
  have hsame := h [.write a PGSIZE 0] [.write b PGSIZE 0] (.cons (.inr ⟨rfl, rfl⟩) .nil)
  rw [io_run_single, io_run_single] at hsame
  -- If one returns -1, the other one returns -1 as well.
  have hreturn : ∀ c c' : io_call, io_step p c = .ok (.returned (-1), p) →
      (io_step p c >>= fun v => (.ok ([v.1], v.2) : Outcome (List reply × io_process)))
        = (io_step p c' >>= fun v => .ok ([v.1], v.2)) →
      ∃ p', io_step p c' = .ok (.returned (-1), p') := by
    intro c c' hc heq
    rw [hc, Outcome.ok_bind] at heq
    obtain ⟨⟨r, p'⟩, hc', hr⟩ := Outcome.bind_eq_ok.mp heq.symm
    refine ⟨p', ?_⟩
    rw [hc']
    cases Outcome.ok.inj hr
    rfl
  rw [← hslot] at hnull hout
  refine ⟨fun hlow => ?_, fun hlow => ?_⟩
  · by_contra hhigh
    obtain ⟨p', hret⟩ := hreturn _ _ (write_empty_low ha hlow (hslot ▸ hout)) hsame.symm
    exact write_empty_high hb (by omega) hnull hout hret
  · by_contra hhigh
    obtain ⟨p', hret⟩ := hreturn _ _ (write_empty_low hb hlow hout) hsame
    exact write_empty_high ha (by omega) (hslot ▸ hnull) (hslot ▸ hout) hret

end Empty

/-! ## A descriptor and its duplicate -/

section Duplicate

variable {x x' : fd_process} {oldfd newfd : ℤ}

/-- **After `sys_dup2`** both slots hold what `oldfd` held. -/
theorem sys_dup2_slots (hreach : Reachable x) (hnew : 0 ≤ newfd ∧ newfd < MAX_FD)
    (h : sys_dup2 x oldfd newfd = .ok (newfd, x')) :
    (0 ≤ oldfd ∧ oldfd < MAX_FD) ∧ x.fd_table oldfd.toNat ≠ .null
      ∧ x'.fd_table oldfd.toNat = x.fd_table oldfd.toNat
      ∧ x'.fd_table newfd.toNat = x.fd_table oldfd.toNat := by
  unfold sys_dup2 at h
  by_cases hold : oldfd < 0 ∨ MAX_FD ≤ oldfd
  · rw [if_pos hold] at h
    have hret := congrArg Prod.fst (Outcome.ok.inj h)
    dsimp only at hret
    omega
  rw [if_neg hold] at h
  by_cases hnull : x.fd_table oldfd.toNat = .null
  · rw [if_pos hnull] at h
    have hret := congrArg Prod.fst (Outcome.ok.inj h)
    dsimp only at hret
    omega
  rw [if_neg hnull] at h
  refine ⟨in_range hold, hnull, ?_⟩
  by_cases hsame : oldfd = newfd
  · rw [if_pos hsame] at h
    cases Outcome.ok.inj h
    subst hsame
    exact ⟨rfl, rfl⟩
  rw [if_neg hsame] at h
  obtain ⟨y, hup, h⟩ := Outcome.bind_eq_ok.mp h
  rw [if_neg (not_out hnew)] at h
  obtain ⟨hys, htable⟩ := dup_count_up_streams hreach.streams hup
  have hne : oldfd.toNat ≠ newfd.toNat := by omega
  -- Closing `newfd` leaves the slot of `oldfd`, and then it is stored.
  have hstore : ∀ z : fd_process, z.fd_table oldfd.toNat = x.fd_table oldfd.toNat →
      (z.set_slot newfd.toNat (z.fd_table oldfd.toNat)).fd_table oldfd.toNat
      = x.fd_table oldfd.toNat
        ∧ (z.set_slot newfd.toNat (z.fd_table oldfd.toNat)).fd_table newfd.toNat
          = x.fd_table oldfd.toNat := by
    intro z hz
    simp only [fd_process.set_slot_fd_table, Function.update_of_ne hne, Function.update_self]
    exact ⟨hz, hz⟩
  by_cases hopen : y.fd_table newfd.toNat ≠ .null
  · rw [if_pos hopen] at h
    obtain ⟨z, hclose, h⟩ := Outcome.bind_eq_ok.mp h
    cases Outcome.ok.inj h
    apply hstore
    rw [(sys_close_streams hys hclose).2.others _ (by omega), htable]
  · rw [if_neg hopen] at h
    cases Outcome.ok.inj h
    apply hstore
    rw [htable]

/-- **When a duplicate is interchangeable with its source.** -/
theorem duplicate_interchangeable_iff {p : io_process} (hreach : Reachable x)
    (hnew : 0 ≤ newfd ∧ newfd < MAX_FD) (hdup : sys_dup2 x oldfd newfd = .ok (newfd, p.proc)) :
    Interchangeable p oldfd newfd ↔ (oldfd < 2 ↔ newfd < 2) ∨ x.fd_table oldfd.toNat = .stdout := by
  obtain ⟨hold, hnull, holds, hnews⟩ := sys_dup2_slots hreach hnew hdup
  have hslot : p.proc.fd_table newfd.toNat = p.proc.fd_table oldfd.toNat := hnews.trans holds.symm
  refine ⟨fun h => ?_, fun h => ?_⟩
  · by_contra hnot
    obtain ⟨hlow, hout⟩ := not_or.mp hnot
    rw [← holds] at hnull hout
    exact hlow (not_interchangeable h hold hnew hslot hnull hout)
  · apply Twins.interchangeable
    refine ⟨hold, hnew, hslot, h.imp_right fun hout => ?_⟩
    rw [holds]
    -- The stream has been counted, and `sys_write` takes its branch.
    have hstep : fd_step x (.dup2 oldfd newfd) = .ok p.proc := by
      change (sys_dup2 x oldfd newfd >>= fun v => pure v.2) = _
      rw [hdup]
      rfl
    exact ⟨hout, (Reachable.call hreach hstep).stdout_count_ne (by omega) (holds.trans hout)⟩

end Duplicate

/-- `/a` is opened in a new process, and its descriptor 2 duplicated. -/
def duplicated (newfd : ℤ) : Outcome (fd_process × fd_process) := do
  let x ← fd_step (process_init_fds rooted (some 0)) (.open [SLASH, 97])
  let (r, x') ← sys_dup2 x 2 newfd
  if r = newfd then return (x, x') else .undefined

theorem duplicated_eq_ok {newfd : ℤ} {x x' : fd_process} (h : duplicated newfd = .ok (x, x')) :
    Reachable x ∧ sys_dup2 x 2 newfd = .ok (newfd, x') := by
  obtain ⟨y, hopen, h⟩ := Outcome.bind_eq_ok.mp h
  obtain ⟨⟨r, y'⟩, hdup, h⟩ := Outcome.bind_eq_ok.mp h
  by_cases hr : r = newfd
  · simp only [if_pos hr] at h
    cases Outcome.ok.inj h
    rw [hr] at hdup
    exact ⟨Reachable.call (.init rooted (some 0)) hopen, hdup⟩
  · simp only [if_neg hr] at h
    cases h

/-- Descriptor 3 does what descriptor 2 does. -/
theorem duplicate_at_three : ∃ (p : io_process) (x : fd_process), Reachable x
    ∧ sys_dup2 x 2 3 = .ok (3, p.proc) ∧ Interchangeable p 2 3 := by
  have hrun : (duplicated 3).satisfies (fun _ => true) = true := by
    decide +kernel
  obtain ⟨⟨x, x'⟩, hret, -⟩ := Outcome.satisfies_iff.mp hrun
  obtain ⟨hreach, hdup⟩ := duplicated_eq_ok hret
  refine ⟨{ fresh_process with proc := x' }, x, hreach, hdup, ?_⟩
  rw [duplicate_interchangeable_iff hreach (by decide) hdup]
  exact .inl (by decide)

/-- Descriptor 1 does not: nothing is written to the file. -/
theorem duplicate_at_one : ∃ (p : io_process) (x : fd_process), Reachable x
    ∧ sys_dup2 x 2 1 = .ok (1, p.proc) ∧ ¬ Interchangeable p 2 1 := by
  have hrun : (duplicated 1).satisfies (fun (x, _) => decide (x.fd_table 2 = .file 0)) = true := by
    decide +kernel
  obtain ⟨⟨x, x'⟩, hret, hsat⟩ := Outcome.satisfies_iff.mp hrun
  have hfile : x.fd_table (2 : ℤ).toNat = .file 0 := of_decide_eq_true hsat
  obtain ⟨hreach, hdup⟩ := duplicated_eq_ok hret
  refine ⟨{ fresh_process with proc := x' }, x, hreach, hdup, fun h => ?_⟩
  obtain ⟨hold, hnull, holds, hnews⟩ := sys_dup2_slots hreach (by decide) hdup
  have hout : x'.fd_table (2 : ℤ).toNat ≠ .stdout := by
    rw [holds, hfile]
    decide
  have hlow := not_interchangeable h hold (by decide) (hnews.trans holds.symm) (holds ▸ hnull) hout
  exact absurd (hlow.mpr (by decide)) (by decide)

end Pintos
