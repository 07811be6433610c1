/-
`userprog/syscall.c`: what the descriptor calls do with a descriptor that is not a file.

`sys_dup2` moves the sentinels of the standard streams to any slot, and every call has its own
subset of the checks. Three of the eleven calls are safe for every argument; for the others
the condition is exact.
-/
import Pintos.Userprog.DescriptorCalls

set_option autoImplicit false

namespace Pintos

/-! ## Tables that can come up -/

/-- The descriptor table of a process, by the calls that change it, and by `fork`. Everything
else, the calls of other processes included, changes the file system. -/
inductive Reachable : fd_process → Prop
  | init (s : filesys) (cwd : Option ℕ) : Reachable (process_init_fds s cwd)
  | call {x x' : fd_process} {c : fd_call} : Reachable x → fd_step x c = .ok x' → Reachable x'
  | fork {x parent child : fd_process} :
      Reachable x → do_fork_fds x = .ok (parent, some child) → Reachable child
  | others {x : fd_process} (s : filesys) (cwd : Option ℕ) :
      Reachable x → Reachable { x with fs := s, cwd := cwd }

/-- The stream counters, `a` and `b` ahead of the table. -/
structure fd_process.Streams (x : fd_process) (a b : ℤ) : Prop where
  stdin : x.stdin_count = x.slots .stdin + a
  stdout : x.stdout_count = x.slots .stdout + b

section Streams

variable {x x' : fd_process} {a b : ℤ} {fd : ℕ}

open fd_process

/-- How far the counters are ahead when `slot` is counted and not yet stored. -/
def ahead (v slot : fd_slot) : ℤ := if slot = v then 1 else 0

theorem process_init_streams (s : filesys) (cwd : Option ℕ) :
    (process_init_fds s cwd).Streams 0 0 := by
  have hin : (process_init_fds s cwd).slots .stdin = 1 := by
    apply occurrences_eq_one (i := 0) (by decide) rfl
    intro j _ hj
    simp only [process_init_fds] at hj
    split_ifs at hj with h0
    exact h0
  have hout : (process_init_fds s cwd).slots .stdout = 1 := by
    apply occurrences_eq_one (i := 1) (by decide) rfl
    intro j _ hj
    by_contra hne
    by_cases h0 : j = 0
    · simp [process_init_fds, h0] at hj
    · simp [process_init_fds, h0, hne] at hj
  refine ⟨?_, ?_⟩
  · rw [hin]
    rfl
  · rw [hout]
    rfl

/-- Slot `fd` gets `w`; the counters have been told. -/
theorem Streams.set_slot (h : x.Streams a b) (hfd : fd < MAX_FD) (w : fd_slot) :
    (x.set_slot fd w).Streams (a + ahead .stdin (x.fd_table fd) - ahead .stdin w)
      (b + ahead .stdout (x.fd_table fd) - ahead .stdout w) := by
  have hin := slots_set_slot (x := x) hfd w .stdin
  have hout := slots_set_slot (x := x) hfd w .stdout
  refine ⟨?_, ?_⟩
  · have hcount := h.stdin
    unfold ahead
    rw [set_slot_stdin_count, hcount]
    split_ifs at hin ⊢ <;> omega
  · have hcount := h.stdout
    unfold ahead
    rw [set_slot_stdout_count, hcount]
    split_ifs at hout ⊢ <;> omega

/-- What closing slot `fd` leaves of the table. -/
structure ClosedSlot (x : fd_process) (fd : ℤ) (x' : fd_process) : Prop where
  others : ∀ k : ℕ, (k : ℤ) ≠ fd → x'.fd_table k = x.fd_table k
  empty : 0 ≤ fd → fd < MAX_FD → x'.fd_table fd.toNat = .null

theorem closedSlot_of_table {fd : ℤ} (h0 : 0 ≤ fd)
    (htable : x'.fd_table = Function.update x.fd_table fd.toNat .null) : ClosedSlot x fd x' := by
  refine ⟨fun k hk => ?_, fun _ _ => ?_⟩
  · rw [htable, Function.update_of_ne]
    rintro rfl
    exact hk (Int.toNat_of_nonneg h0)
  · rw [htable, Function.update_self]

/-- **`sys_close`** tells the counters itself, and empties the slot. -/
theorem sys_close_streams {fd : ℤ} (h : x.Streams a b) (hclose : sys_close x fd = .ok x') :
    x'.Streams a b ∧ ClosedSlot x fd x' := by
  unfold sys_close at hclose
  by_cases hfd : fd < 0 ∨ MAX_FD ≤ fd
  · rw [if_pos hfd] at hclose
    obtain rfl := Outcome.ok.inj hclose
    exact ⟨h, fun _ _ => rfl, fun _ _ => by omega⟩
  rw [if_neg hfd] at hclose
  have h0 : 0 ≤ fd := by omega
  have hset := Streams.set_slot h (show fd.toNat < MAX_FD by omega) .null
  -- The slot that goes has been counted, or is none of the two.
  cases hslot : x.fd_table fd.toNat with
  | null =>
      rw [hslot] at hclose hset
      obtain rfl := Outcome.ok.inj hclose
      simp only [ahead, reduceCtorEq, if_false, add_zero, sub_zero] at hset
      exact ⟨hset, closedSlot_of_table h0 rfl⟩
  | stdin =>
      rw [hslot] at hclose hset
      obtain rfl := Outcome.ok.inj hclose
      simp only [ahead, reduceCtorEq, if_false, if_true, add_zero, sub_zero] at hset
      refine ⟨⟨?_, hset.stdout⟩, closedSlot_of_table h0 rfl⟩
      have hin : x.stdin_count = (x.set_slot fd.toNat .null).slots .stdin + (a + 1) := hset.stdin
      change x.stdin_count - 1 = (x.set_slot fd.toNat .null).slots .stdin + a
      omega
  | stdout =>
      rw [hslot] at hclose hset
      obtain rfl := Outcome.ok.inj hclose
      simp only [ahead, reduceCtorEq, if_false, if_true, add_zero, sub_zero] at hset
      refine ⟨⟨hset.stdin, ?_⟩, closedSlot_of_table h0 rfl⟩
      have hout : x.stdout_count = (x.set_slot fd.toNat .null).slots
          .stdout + (b + 1) := hset.stdout
      change x.stdout_count - 1 = (x.set_slot fd.toNat .null).slots .stdout + b
      omega
  | file f =>
      rw [hslot] at hclose hset
      obtain ⟨s, -, hclose⟩ := Outcome.bind_eq_ok.mp hclose
      obtain rfl := Outcome.ok.inj hclose
      simp only [ahead, reduceCtorEq, if_false, add_zero, sub_zero] at hset
      exact ⟨⟨hset.stdin, hset.stdout⟩, closedSlot_of_table h0 rfl⟩
  | dir i =>
      rw [hslot] at hclose
      cases hclose

theorem dup_count_up_streams {slot : fd_slot} (h : x.Streams 0 0)
    (hup : dup_count_up x slot = .ok x') :
    x'.Streams (ahead .stdin slot) (ahead .stdout slot) ∧ x'.fd_table = x.fd_table := by
  have hin := h.stdin
  have hout := h.stdout
  cases slot with
  | null => cases hup
  | dir i => cases hup
  | stdin =>
      obtain rfl := Outcome.ok.inj hup
      refine ⟨⟨?_, hout⟩, rfl⟩
      change x.stdin_count + 1 = x.slots .stdin + 1
      omega
  | stdout =>
      obtain rfl := Outcome.ok.inj hup
      refine ⟨⟨hin, ?_⟩, rfl⟩
      change x.stdout_count + 1 = x.slots .stdout + 1
      omega
  | file f =>
      obtain ⟨fl, -, hup⟩ := Outcome.bind_eq_ok.mp hup
      obtain rfl := Outcome.ok.inj hup
      exact ⟨⟨hin, hout⟩, rfl⟩

/-- **`sys_dup2`** counts first, and stores last. -/
theorem sys_dup2_streams {oldfd newfd r : ℤ} (h : x.Streams 0 0)
    (hdup : sys_dup2 x oldfd newfd = .ok (r, x')) : x'.Streams 0 0 := by
  unfold sys_dup2 at hdup
  by_cases hold : oldfd < 0 ∨ MAX_FD ≤ oldfd
  · rw [if_pos hold] at hdup
    cases Outcome.ok.inj hdup
    exact h
  rw [if_neg hold] at hdup
  by_cases hnull : x.fd_table oldfd.toNat = .null
  · rw [if_pos hnull] at hdup
    cases Outcome.ok.inj hdup
    exact h
  rw [if_neg hnull] at hdup
  by_cases hsame : oldfd = newfd
  · rw [if_pos hsame] at hdup
    cases Outcome.ok.inj hdup
    exact h
  rw [if_neg hsame] at hdup
  obtain ⟨y, hup, hdup⟩ := Outcome.bind_eq_ok.mp hdup
  by_cases hnew : newfd < 0 ∨ MAX_FD ≤ newfd
  · rw [if_pos hnew] at hdup
    cases hdup
  rw [if_neg hnew] at hdup
  -- The count is ahead by the slot that is going to be stored.
  have hy : y.Streams (ahead .stdin (x.fd_table oldfd.toNat))
    (ahead .stdout (x.fd_table oldfd.toNat))
      ∧ y.fd_table = x.fd_table := dup_count_up_streams h hup
  obtain ⟨hys, hyt⟩ := hy
  have hfill : ∀ z : fd_process, z.fd_table newfd.toNat = .null →
      z.fd_table oldfd.toNat = x.fd_table oldfd.toNat →
      z.Streams (ahead .stdin (x.fd_table oldfd.toNat)) (ahead .stdout (x.fd_table oldfd.toNat)) →
      (z.set_slot newfd.toNat (z.fd_table oldfd.toNat)).Streams 0 0 := by
    intro z hz hzold hzs
    have hset := Streams.set_slot hzs (show newfd.toNat < MAX_FD by omega)
      (z.fd_table oldfd.toNat)
    rw [hz, hzold] at hset
    rw [hzold]
    simpa [ahead] using hset
  by_cases hopen : y.fd_table newfd.toNat ≠ .null
  · rw [if_pos hopen] at hdup
    obtain ⟨z, hclose, hdup⟩ := Outcome.bind_eq_ok.mp hdup
    cases Outcome.ok.inj hdup
    obtain ⟨hzs, hzt⟩ := sys_close_streams hys hclose
    apply hfill z (hzt.empty (by omega) (by omega)) _ hzs
    rw [hzt.others _ (by omega), hyt]
  · rw [if_neg hopen] at hdup
    cases Outcome.ok.inj hdup
    exact hfill y (not_not.mp hopen) (by rw [hyt]) hys

theorem find_unused_fd_streams {slot : fd_slot} {r : ℤ} (h : x.Streams 0 0)
    (hin : slot ≠ .stdin) (hout : slot ≠ .stdout) (hfind : find_unused_fd x slot = .ok (r, x')) :
    x'.Streams 0 0 := by
  obtain ⟨k, hloop, hfind⟩ := Outcome.bind_eq_ok.mp hfind
  cases Outcome.ok.inj hfind
  obtain ⟨hk, hnull⟩ := find_unused_fd_loop_null hloop
  have hset := Streams.set_slot h hk slot
  rw [hnull] at hset
  simp only [ahead, reduceCtorEq, hin, hout, if_false, add_zero, sub_zero] at hset
  exact ⟨hset.stdin, hset.stdout⟩

/-- **`sys_open`** fills an empty slot with something else. -/
theorem sys_open_streams {name : c_string} {r : ℤ} (h : x.Streams 0 0)
    (hopen : sys_open x name = .ok (r, x')) : x'.Streams 0 0 := by
  unfold sys_open at hopen
  by_cases hname : name = []
  · rw [if_pos hname] at hopen
    cases Outcome.ok.inj hopen
    exact h
  rw [if_neg hname] at hopen
  obtain ⟨⟨o, s⟩, -, hopen⟩ := Outcome.bind_eq_ok.mp hopen
  have hfs : ∀ s, (x.set_fs s).Streams 0 0 := fun _ => ⟨h.stdin, h.stdout⟩
  cases o with
  | null =>
      cases Outcome.ok.inj hopen
      exact hfs s
  | file f =>
      obtain ⟨fl, -, hopen⟩ := Outcome.bind_eq_ok.mp hopen
      obtain ⟨ino, -, hopen⟩ := Outcome.bind_eq_ok.mp hopen
      split at hopen
      · exact find_unused_fd_streams (x := (x.set_fs s).set_fs (s.free_file f)) (hfs _) (by simp)
          (by simp) hopen
      · exact find_unused_fd_streams (hfs s) (by simp) (by simp) hopen
  | root_dir dir =>
      obtain ⟨ino, -, hopen⟩ := Outcome.bind_eq_ok.mp hopen
      split at hopen
      · exact find_unused_fd_streams (hfs s) (by simp) (by simp) hopen
      · cases hopen

theorem fd_step_streams {c : fd_call} (h : x.Streams 0 0) (hstep : fd_step x c = .ok x') :
    x'.Streams 0 0 := by
  cases c with
  | «open» file =>
      obtain ⟨⟨r, y⟩, hopen, hret⟩ := Outcome.bind_eq_ok.mp hstep
      cases Outcome.ok.inj hret
      exact sys_open_streams h hopen
  | close fd => exact (sys_close_streams h hstep).1
  | dup2 oldfd newfd =>
      obtain ⟨⟨r, y⟩, hdup, hret⟩ := Outcome.bind_eq_ok.mp hstep
      cases Outcome.ok.inj hret
      exact sys_dup2_streams h hdup

/-- The loop of `__do_fork` copies the sentinels where they are. -/
theorem fork_table_sentinels {parent : ℕ → fd_slot} {v : fd_slot} (hv : ∀ f, v ≠ .file f) :
    ∀ {n : ℕ} {child child' : fd_process}, fork_table parent n child = .ok child' →
      ∀ k < n, child'.fd_table k = v ↔ parent k = v
  | 0, _, _, _, k, hk => absurd hk (Nat.not_lt_zero k)
  | n + 1, child, child', h, k, hk => by
      obtain ⟨child₁, hloop, h⟩ := Outcome.bind_eq_ok.mp h
      obtain ⟨⟨slot, s⟩, hslot, h⟩ := Outcome.bind_eq_ok.mp h
      obtain rfl := Outcome.ok.inj h
      rcases Nat.lt_succ_iff_lt_or_eq.mp hk with hk | rfl
      · have hbefore := fork_table_sentinels hv hloop k hk
        simp only [set_slot_fd_table, set_fs_fd_table, Function.update_of_ne hk.ne]
        exact hbefore
      · simp only [set_slot_fd_table, Function.update_self]
        rcases fork_slot_cases hslot with ⟨rfl, -⟩ | ⟨-, f, hf, rfl, -⟩
        · rfl
        · rw [hf]
          exact iff_of_false (fun he => hv _ he.symm) (fun he => hv _ he.symm)

theorem do_fork_fds_streams {parent child : fd_process} (h : x.Streams 0 0)
    (hfork : do_fork_fds x = .ok (parent, some child)) : child.Streams 0 0 := by
  obtain ⟨⟨root, s⟩, -, hfork⟩ := Outcome.bind_eq_ok.mp hfork
  dsimp only at hfork
  by_cases hidx : x.fd_idx = MAX_FD
  · rw [if_pos hidx] at hfork
    cases Outcome.ok.inj hfork
  rw [if_neg hidx] at hfork
  obtain ⟨child₁, hloop, hfork⟩ := Outcome.bind_eq_ok.mp hfork
  cases hcwd : x.cwd with
  | none =>
      rw [hcwd] at hfork
      cases hfork
  | some dir =>
      rw [hcwd] at hfork
      obtain ⟨⟨cwd, s'⟩, -, hfork⟩ := Outcome.bind_eq_ok.mp hfork
      obtain ⟨-, hchild⟩ := Outcome.ok_pair hfork
      obtain rfl := Option.some.inj hchild
      have hsame : ∀ v, (∀ f, v ≠ .file f) →
          occurrences MAX_FD child₁.fd_table v = occurrences MAX_FD x.fd_table v :=
        fun v hv => occurrences_congr (fork_table_sentinels hv hloop)
      refine ⟨?_, ?_⟩
      · change x.stdin_count = (occurrences MAX_FD child₁.fd_table .stdin : ℤ) + 0
        rw [hsame .stdin (by simp)]
        exact h.stdin
      · change x.stdout_count = (occurrences MAX_FD child₁.fd_table .stdout : ℤ) + 0
        rw [hsame .stdout (by simp)]
        exact h.stdout

/-- **The streams are counted** in every table that can come up. -/
theorem Reachable.streams (h : Reachable x) : x.Streams 0 0 := by
  induction h with
  | init s cwd => exact process_init_streams s cwd
  | call _ hstep ih => exact fd_step_streams ih hstep
  | fork _ hfork ih => exact do_fork_fds_streams ih hfork
  | others s cwd _ ih => exact ⟨ih.stdin, ih.stdout⟩

/-- A slot with `STDOUT` is counted. -/
theorem Reachable.stdout_count_ne (h : Reachable x) (hfd : fd < MAX_FD)
    (hslot : x.fd_table fd = .stdout) : x.stdout_count ≠ 0 := by
  have hcount := h.streams.stdout
  have hpos : 0 < x.slots .stdout := occurrences_pos.mpr ⟨fd, hfd, hslot⟩
  omega

end Streams

/-! ## The eleven calls -/

/-- The calls, with their arguments. -/
inductive fd_syscall
  | read (fd : ℤ) (buffer size : ℕ)
  | write (fd : ℤ) (buffer size : ℕ)
  | filesize (fd : ℤ)
  | seek (fd : ℤ) (position : ℕ)
  | tell (fd : ℤ)
  | close (fd : ℤ)
  | dup2 (oldfd newfd : ℤ)
  | isdir (fd : ℤ)
  | inumber (fd : ℤ)
  | readdir (fd : ℤ) (name : ℕ)
  | mmap (spt : ℕ → Bool) (addr length : ℕ) (fd offset : ℤ)

/-- What a call touches. -/
def fd_syscall.log (p : io_process) : fd_syscall → List touch
  | .read fd buffer size => (sys_read p fd buffer size).log
  | .write fd buffer size => (sys_write p fd buffer size).log
  | .filesize fd => (sys_filesize p.proc fd).log
  | .seek fd position => (sys_seek p fd position).log
  | .tell fd => (sys_tell p.proc fd).log
  | .close fd => (sys_close_traced p.proc fd).log
  | .dup2 oldfd newfd => (sys_dup2_traced p.proc oldfd newfd).log
  | .isdir fd => (sys_isdir p.proc fd).log
  | .inumber fd => (sys_inumber p.proc fd).log
  | .readdir fd name => (sys_readdir p fd name).log
  | .mmap spt addr length fd offset => (sys_mmap_file p.proc spt addr length fd offset).log

/-- **A safe touch**: within the table, and of a file. -/
def touch.Ok : touch → Prop
  | .index fd => 0 ≤ fd ∧ fd < MAX_FD
  | .deref slot => ∃ f, slot = .file f

/-- `sys_mmap` fails before it looks at the descriptor again. -/
def MmapRejects (addr length : ℕ) (offset : ℤ) : Prop :=
  length = 0 ∨ addr < length ∨ addr = 0 ∨ addr % PGSIZE ≠ 0 ∨ offset.tmod PGSIZE ≠ 0
    ∨ KERN_BASE ≤ addr

/-- **When a call is safe.** -/
def fd_syscall.Good (p : io_process) : fd_syscall → Prop
  | .read _ _ _ | .seek _ _ | .close _ => True
  | .write fd buffer size => check_read_buffer p.mem buffer size → 2 ≤ fd → fd < MAX_FD →
      p.proc.fd_table fd.toNat ≠ .stdin
  | .filesize fd | .tell fd => 0 ≤ fd → fd < MAX_FD →
      p.proc.fd_table fd.toNat ≠ .stdin ∧ p.proc.fd_table fd.toNat ≠ .stdout
  | .dup2 oldfd newfd => 0 ≤ oldfd → oldfd < MAX_FD → p.proc.fd_table oldfd.toNat ≠ .null →
      oldfd ≠ newfd → 0 ≤ newfd ∧ newfd < MAX_FD
  | .isdir fd | .inumber fd | .readdir fd _ => 2 ≤ fd →
      fd < MAX_FD ∧ ∃ f, p.proc.fd_table fd.toNat = .file f
  | .mmap _ addr length fd offset => 2 ≤ fd →
      (fd < MAX_FD → p.proc.fd_table fd.toNat ≠ .stdin ∧ p.proc.fd_table fd.toNat ≠ .stdout)
      ∧ (MAX_FD ≤ fd → MmapRejects addr length offset)

section Safety

variable {x : fd_process} {p : io_process} {fd : ℤ} {slot : fd_slot}

/-- Every slot is null, a sentinel or a file. -/
def FileSlots (x : fd_process) : Prop :=
  ∀ fd < MAX_FD, x.fd_table fd = .null ∨ x.fd_table fd = .stdin ∨ x.fd_table fd = .stdout
    ∨ ∃ f fl, x.fd_table fd = .file f ∧ x.fs.file f = some fl

open Traced

@[simp] theorem safe_fd_at : Safe touch.Ok (fd_at x fd) ↔ 0 ≤ fd ∧ fd < MAX_FD := by
  simp [Safe, fd_at, touch.Ok]

@[simp] theorem safe_fd_set : Safe touch.Ok (fd_set x fd slot) ↔ 0 ≤ fd ∧ fd < MAX_FD := by
  simp [Safe, fd_set, touch.Ok]

@[simp] theorem safe_file_of : Safe touch.Ok (file_of slot) ↔ ∃ f, slot = .file f := by
  simp [Safe, file_of, touch.Ok]

@[simp] theorem safe_inode_of {s : filesys} : Safe touch.Ok (inode_of s slot) ↔ ∃ f,
    slot = .file f := by
  simp [Safe, inode_of, touch.Ok]

@[simp] theorem safe_is_file_dir {s : filesys} :
    Safe touch.Ok (is_file_dir s slot) ↔ ∃ f, slot = .file f := by
  simp [is_file_dir, safe_bind]

/-- An access within the table gives the slot, and the rest goes on with it. -/
theorem safe_fd_at_bind {β : Type} {f : fd_slot → Traced touch β} (h : 0 ≤ fd ∧ fd < MAX_FD) :
    Safe touch.Ok (fd_at x fd >>= f) ↔ Safe touch.Ok (f (x.fd_table fd.toNat)) := by
  rw [safe_bind, safe_fd_at, fd_at_result h]
  simp [h]

/-- An access outside of it is not safe. -/
theorem not_safe_fd_at_bind {β : Type} {f : fd_slot → Traced touch β} (h : MAX_FD ≤ fd) :
    ¬ Safe touch.Ok (fd_at x fd >>= f) := by
  rw [safe_bind, safe_fd_at]
  omega

/-- A null pointer apart, only a sentinel is not a file. -/
theorem FileSlots.file_iff (h : FileSlots x) (hfd : 0 ≤ fd ∧ fd < MAX_FD) :
    (x.fd_table fd.toNat ≠ .null → ∃ f, x.fd_table fd.toNat = .file f) ↔
      x.fd_table fd.toNat ≠ .stdin ∧ x.fd_table fd.toNat ≠ .stdout := by
  rcases h fd.toNat (by omega) with h | h | h | ⟨f, fl, h, -⟩ <;> simp [h]

/-- **`sys_filesize`** follows everything but null. -/
theorem safe_filesize_iff (hslots : FileSlots x) : Safe touch.Ok (sys_filesize x fd) ↔
    (0 ≤ fd → fd < MAX_FD → x.fd_table fd.toNat ≠ .stdin ∧ x.fd_table fd.toNat ≠ .stdout) := by
  unfold sys_filesize
  by_cases hfd : fd < 0 ∨ MAX_FD ≤ fd
  · rw [if_pos hfd]
    exact iff_of_true (safe_pure _) (by omega)
  · have hin := in_range hfd
    rw [if_neg hfd, safe_fd_at_bind hin, safe_ite, safe_bind, safe_inode_of]
    simp only [safe_pure, implies_true, and_true, true_and, hin.1, hin.2, true_implies]
    exact hslots.file_iff hin

theorem safe_tell_iff (hslots : FileSlots x) : Safe touch.Ok (sys_tell x fd) ↔
    (0 ≤ fd → fd < MAX_FD → x.fd_table fd.toNat ≠ .stdin ∧ x.fd_table fd.toNat ≠ .stdout) := by
  unfold sys_tell
  by_cases hfd : fd < 0 ∨ MAX_FD ≤ fd
  · rw [if_pos hfd]
    exact iff_of_true (safe_pure _) (by omega)
  · have hin := in_range hfd
    rw [if_neg hfd, safe_fd_at_bind hin, safe_ite, safe_bind, safe_file_of]
    simp only [safe_pure, safe_bind, safe_lift, implies_true, and_true, true_and, hin.1, hin.2,
      true_implies]
    exact hslots.file_iff hin

/-- **`sys_read`** has every check. -/
theorem safe_read (hslots : FileSlots p.proc) (fd : ℤ) (buffer size : ℕ) :
    Safe touch.Ok (sys_read p fd buffer size) := by
  unfold sys_read
  by_cases hsize : size = 0
  · rw [if_pos hsize]
    exact safe_pure _
  rw [if_neg hsize]
  by_cases hbuf : ¬ check_write_buffer p.mem buffer size
  · rw [if_pos hbuf]
    exact safe_pure _
  rw [if_neg hbuf]
  by_cases hfd : fd < 0 ∨ MAX_FD ≤ fd
  · rw [if_pos hfd]
    exact safe_pure _
  have hin := in_range hfd
  rw [if_neg hfd, safe_fd_at_bind hin]
  by_cases hstdin : p.proc.fd_table fd.toNat = .stdin
  · rw [if_pos hstdin]
    split_ifs
    · exact safe_pure _
    · exact safe_pure _
  rw [if_neg hstdin, safe_fd_at_bind hin]
  by_cases hfile : p.proc.fd_table fd.toNat = .null ∨ p.proc.fd_table fd.toNat = .stdin
      ∨ p.proc.fd_table fd.toNat = .stdout
  · rw [if_pos hfile]
    exact safe_pure _
  rw [if_neg hfile, safe_bind, safe_file_of]
  obtain ⟨hnull, -, hstdout⟩ : _ ≠ _ ∧ _ ≠ _ ∧ _ ≠ _ := by simpa only [not_or] using hfile
  refine ⟨(hslots.file_iff hin).mpr ⟨hstdin, hstdout⟩ hnull, fun f _ => ?_⟩
  simp [safe_bind]

/-- **`sys_seek`** too. -/
theorem safe_seek (hslots : FileSlots p.proc) (fd : ℤ) (position : ℕ) :
    Safe touch.Ok (sys_seek p fd position) := by
  unfold sys_seek
  by_cases hfd : fd < 0 ∨ MAX_FD ≤ fd
  · rw [if_pos hfd]
    exact safe_pure _
  have hin := in_range hfd
  rw [if_neg hfd, safe_fd_at_bind hin]
  by_cases hstream : p.proc.fd_table fd.toNat = .stdin ∨ p.proc.fd_table fd.toNat = .stdout
  · rw [if_pos hstream]
    exact safe_pure _
  rw [if_neg hstream, safe_fd_at_bind hin, safe_ite, safe_bind, safe_file_of]
  refine ⟨fun _ => safe_pure _, fun hnull => ⟨?_, fun f _ => ?_⟩⟩
  · exact (hslots.file_iff hin).mpr (not_or.mp hstream) hnull
  · simp [safe_bind]

/-- **`sys_close`** follows only what is none of the others. -/
theorem safe_close (hslots : ∀ fd < MAX_FD, ∀ i, x.fd_table fd ≠ .dir i) (fd : ℤ) :
    Safe touch.Ok (sys_close_traced x fd) := by
  unfold sys_close_traced
  by_cases hfd : fd < 0 ∨ MAX_FD ≤ fd
  · rw [if_pos hfd]
    exact safe_pure _
  have hin := in_range hfd
  rw [if_neg hfd, safe_fd_at_bind hin]
  cases hslot : x.fd_table fd.toNat with
  | dir i => exact absurd hslot (hslots _ (by omega) i)
  | file f => simp [safe_bind, hin]
  | _ => exact safe_fd_set.mpr hin

theorem FileSlots.no_dirs (h : FileSlots x) : ∀ fd < MAX_FD, ∀ i, x.fd_table fd ≠ .dir i := by
  intro fd hfd i
  rcases h fd hfd with h | h | h | ⟨f, fl, h, -⟩ <;> simp [h]

/-- **`sys_write`** looks for `STDIN` nowhere; the numbers 0 and 1 are turned away. -/
theorem safe_write_iff (hslots : FileSlots p.proc) (buffer size : ℕ)
    (hstdout : ∀ fd < MAX_FD, p.proc.fd_table fd = .stdout → p.proc.stdout_count ≠ 0) :
    Safe touch.Ok (sys_write p fd buffer size) ↔
      (check_read_buffer p.mem buffer size → 2 ≤ fd → fd < MAX_FD →
        p.proc.fd_table fd.toNat ≠ .stdin) := by
  unfold sys_write
  by_cases hbuf : check_read_buffer p.mem buffer size
  case neg =>
    rw [if_pos hbuf]
    exact iff_of_true (safe_pure _) (fun h => absurd h hbuf)
  rw [if_neg (not_not.mpr hbuf)]
  by_cases hfd : fd < 0 ∨ MAX_FD ≤ fd
  · rw [if_pos hfd]
    exact iff_of_true (safe_pure _) (by omega)
  have hin := in_range hfd
  rw [if_neg hfd, safe_fd_at_bind hin]
  by_cases hout : p.proc.fd_table fd.toNat = .stdout
  · rw [if_pos ⟨hout, hstdout _ (by omega) hout⟩]
    exact iff_of_true (safe_pure _) (by simp [hout])
  rw [if_neg (fun h => hout h.1)]
  unfold process_get_file
  by_cases hlow : fd < 2
  · rw [if_pos (Or.inl hlow), safe_bind]
    refine iff_of_true ⟨safe_pure _, fun f hf => ?_⟩ (by omega)
    obtain rfl := Outcome.ok.inj hf
    exact safe_pure _
  · rw [if_neg (by omega), safe_fd_at_bind hin, safe_ite, safe_bind, safe_is_file_dir]
    -- Behind the check for a directory the pointer is followed once more.
    have hrest : (p.proc.fd_table fd.toNat ≠ .null → ∃ f, p.proc.fd_table fd.toNat = .file f) ↔
        p.proc.fd_table fd.toNat ≠ .stdin := by
      rw [hslots.file_iff hin]
      exact and_iff_left hout
    simp only [hbuf, safe_pure, implies_true, true_and, true_implies, hin.2, show 2 ≤ fd by omega]
    rw [← hrest]
    refine ⟨fun h hnull => (h hnull).1, fun h hnull => ⟨h hnull, fun isdir _ => ?_⟩⟩
    rw [safe_ite]
    refine ⟨fun _ => safe_pure _, fun _ => ?_⟩
    rw [safe_bind, safe_file_of]
    refine ⟨h hnull, fun f _ => ?_⟩
    simp [safe_bind]

/-- The counter goes up, and nothing else changes but the file. -/
theorem dup_count_up_traced_safe (hslots : FileSlots x) (hfd : 0 ≤ fd ∧ fd < MAX_FD)
    (hnull : x.fd_table fd.toNat ≠ .null) :
    Safe touch.Ok (dup_count_up_traced x (x.fd_table fd.toNat))
      ∧ ∃ y, (dup_count_up_traced x (x.fd_table fd.toNat)).result = .ok y
        ∧ y.fd_table = x.fd_table := by
  rcases hslots fd.toNat (by omega) with h | h | h | ⟨f, fl, h, hfile⟩
  · exact absurd h hnull
  · rw [h]
    exact ⟨safe_pure _, _, rfl, rfl⟩
  · rw [h]
    exact ⟨safe_pure _, _, rfl, rfl⟩
  · rw [h]
    have hget : x.fs.get_file f = .ok fl := filesys.get_file_eq_ok.mpr hfile
    refine ⟨?_, x.set_fs (x.fs.set_file f { fl with dup_count := fl.dup_count + 1 }), ?_, rfl⟩
    · simp [dup_count_up_traced, safe_bind]
    · simp [dup_count_up_traced, file_of, hget]

/-- **`sys_dup2`** does not check `newfd`. -/
theorem safe_dup2_iff (hslots : FileSlots x) (oldfd newfd : ℤ) :
    Safe touch.Ok (sys_dup2_traced x oldfd newfd) ↔
      (0 ≤ oldfd → oldfd < MAX_FD → x.fd_table oldfd.toNat ≠ .null → oldfd ≠ newfd →
        0 ≤ newfd ∧ newfd < MAX_FD) := by
  unfold sys_dup2_traced
  by_cases hold : oldfd < 0 ∨ MAX_FD ≤ oldfd
  · rw [if_pos hold]
    exact iff_of_true (safe_pure _) (by omega)
  have hin := in_range hold
  rw [if_neg hold, safe_fd_at_bind hin]
  by_cases hnull : x.fd_table oldfd.toNat = .null
  · rw [if_pos hnull]
    exact iff_of_true (safe_pure _) (fun _ _ h => absurd hnull h)
  rw [if_neg hnull]
  by_cases hsame : oldfd = newfd
  · rw [if_pos hsame]
    exact iff_of_true (safe_pure _) (fun _ _ _ h => absurd hsame h)
  rw [if_neg hsame, safe_bind]
  obtain ⟨hup, y, hy, htable⟩ := dup_count_up_traced_safe hslots hin hnull
  refine ⟨fun h _ _ _ _ => ?_, fun h => ⟨hup, fun y' hy' => ?_⟩⟩
  · have hnew := (safe_bind.mp (h.2 y hy)).1
    exact safe_fd_at.mp hnew
  · have hnew := h hin.1 hin.2 hnull hsame
    obtain rfl := Outcome.ok.inj (hy.symm.trans hy')
    have hstore : ∀ z, Safe touch.Ok (do
        let slot ← fd_at z oldfd
        let z ← fd_set z newfd slot
        return (newfd, z)) := by
      intro z
      rw [safe_fd_at_bind hin, safe_bind, safe_fd_set]
      exact ⟨hnew, fun _ _ => safe_pure _⟩
    rw [safe_fd_at_bind hnew]
    by_cases hopen : y.fd_table newfd.toNat ≠ .null
    · simp only [if_pos hopen]
      rw [safe_bind]
      exact ⟨safe_close (htable ▸ hslots.no_dirs) newfd, fun z _ => hstore z⟩
    · simp only [if_neg hopen]
      exact hstore y

/-- A descriptor that is followed unchecked, from 2 on. -/
theorem safe_follow_iff {β : Type} {f : fd_slot → Traced touch β}
    (hf : ∀ slot, Safe touch.Ok (f slot) ↔ ∃ g, slot = .file g) (hfd : 2 ≤ fd) :
    Safe touch.Ok (fd_at x fd >>= f) ↔ fd < MAX_FD ∧ ∃ g, x.fd_table fd.toNat = .file g := by
  by_cases hmax : fd < MAX_FD
  · rw [safe_fd_at_bind ⟨by omega, hmax⟩, hf]
    simp [hmax]
  · exact iff_of_false (not_safe_fd_at_bind (by omega)) (fun h => hmax h.1)

theorem safe_isdir_iff : Safe touch.Ok (sys_isdir x fd) ↔
    (2 ≤ fd → fd < MAX_FD ∧ ∃ f, x.fd_table fd.toNat = .file f) := by
  unfold sys_isdir
  by_cases hlow : fd < 2
  · rw [if_pos hlow]
    exact iff_of_true (safe_pure _) (by omega)
  · rw [if_neg hlow, safe_follow_iff (fun _ => safe_is_file_dir) (by omega)]
    simp [show 2 ≤ fd by omega]

theorem safe_inumber_iff : Safe touch.Ok (sys_inumber x fd) ↔
    (2 ≤ fd → fd < MAX_FD ∧ ∃ f, x.fd_table fd.toNat = .file f) := by
  unfold sys_inumber
  by_cases hlow : fd < 2
  · rw [if_pos hlow]
    exact iff_of_true (safe_pure _) (by omega)
  · rw [if_neg hlow, safe_follow_iff (fun slot => by simp [safe_bind]) (by omega)]
    simp [show 2 ≤ fd by omega]

theorem safe_readdir_iff (name : ℕ) : Safe touch.Ok (sys_readdir p fd name) ↔
    (2 ≤ fd → fd < MAX_FD ∧ ∃ f, p.proc.fd_table fd.toNat = .file f) := by
  unfold sys_readdir
  by_cases hlow : fd < 2
  · rw [if_pos hlow]
    exact iff_of_true (safe_pure _) (by omega)
  rw [if_neg hlow, safe_follow_iff ?follow (by omega)]
  case follow =>
    -- Behind the check for a directory the inode is used once more.
    intro slot
    rw [safe_bind, safe_is_file_dir]
    refine and_iff_left_of_imp fun hfile isdir _ => ?_
    rw [safe_ite]
    refine ⟨fun _ => safe_pure _, fun _ => ?_⟩
    rw [safe_bind, safe_inode_of]
    exact ⟨hfile, fun ino _ => by simp [safe_bind]⟩
  simp [show 2 ≤ fd by omega]

/-- The checks of `sys_mmap`, which look at no slot. -/
theorem safe_mmap_checks {filesize offset : ℤ} {addr length : ℕ} {y : Traced touch (Option ℕ)} :
    Safe touch.Ok (if filesize = 0 ∨ length = 0 then pure none
      else if addr < length then pure none
      else if addr = 0 ∨ addr % PGSIZE ≠ 0 ∨ offset.tmod PGSIZE ≠ 0
        ∨ KERN_BASE ≤ addr then pure none
      else y) ↔ (filesize ≠ 0 → ¬ MmapRejects addr length offset → Safe touch.Ok y) := by
  unfold MmapRejects
  split_ifs with hlen hwrap haddr
  · exact iff_of_true (safe_pure _) (by tauto)
  · exact iff_of_true (safe_pure _) (by tauto)
  · exact iff_of_true (safe_pure _) (by tauto)
  · tauto

/-- **`sys_mmap`** leaves the check to `sys_filesize`, and goes on when that returns -1. -/
theorem safe_mmap_iff (hslots : FileSlots x) (spt : ℕ → Bool) (addr length : ℕ) (offset : ℤ) :
    Safe touch.Ok (sys_mmap_file x spt addr length fd offset) ↔ (2 ≤ fd →
      (fd < MAX_FD → x.fd_table fd.toNat ≠ .stdin ∧ x.fd_table fd.toNat ≠ .stdout)
        ∧ (MAX_FD ≤ fd → MmapRejects addr length offset)) := by
  unfold sys_mmap_file
  by_cases hlow : fd < 2
  · rw [if_pos hlow]
    exact iff_of_true (safe_pure _) (by omega)
  rw [if_neg hlow, safe_bind, safe_filesize_iff hslots]
  by_cases hmax : fd < MAX_FD
  · have hin : 0 ≤ fd ∧ fd < MAX_FD := ⟨by omega, hmax⟩
    simp only [hin.1, hmax, true_implies, show 2 ≤ fd by omega, show ¬ MAX_FD ≤ fd by omega,
      false_implies, and_true]
    refine and_iff_left_of_imp fun hsentinel filesize _ => ?_
    rw [safe_mmap_checks]
    intro _ _
    rw [safe_fd_at_bind hin, safe_ite]
    refine ⟨fun _ => safe_pure _, fun hnull => ?_⟩
    rw [safe_ite]
    refine ⟨fun _ => safe_pure _, fun _ => ?_⟩
    rw [safe_bind, safe_file_of]
    exact ⟨(hslots.file_iff hin).mpr hsentinel hnull, fun _ _ => safe_pure _⟩
  · -- Out of the table `sys_filesize` returns -1, and the access is made.
    have hsize : (sys_filesize x fd).result = .ok (-1) := by
      unfold sys_filesize
      rw [if_pos (Or.inr (by omega))]
      rfl
    simp only [hmax, false_implies, implies_true, true_and, show 2 ≤ fd by omega,
      show (MAX_FD : ℤ) ≤ fd by omega, true_implies]
    refine ⟨fun h => ?_, fun hrej filesize _ => ?_⟩
    · have hcall := safe_mmap_checks.mp (h (-1) hsize) (by decide)
      by_contra hrej
      exact not_safe_fd_at_bind (by omega) (hcall hrej)
    · exact safe_mmap_checks.mpr fun _ h => absurd hrej h

end Safety

/-! ## All of them -/

/-- **Which calls are safe**, in a table that can come up. -/
theorem descriptor_call_safe_iff {p : io_process} (hreach : Reachable p.proc)
    (hslots : FileSlots p.proc) (c : fd_syscall) : (∀ t ∈ c.log p, t.Ok) ↔ c.Good p := by
  have hstdout : ∀ fd < MAX_FD, p.proc.fd_table fd = .stdout → p.proc.stdout_count ≠ 0 :=
    fun fd hfd hslot => hreach.stdout_count_ne hfd hslot
  cases c with
  | read fd buffer size => exact iff_of_true (safe_read hslots fd buffer size) trivial
  | write fd buffer size => exact safe_write_iff hslots buffer size hstdout
  | filesize fd => exact safe_filesize_iff hslots
  | seek fd position => exact iff_of_true (safe_seek hslots fd position) trivial
  | tell fd => exact safe_tell_iff hslots
  | close fd => exact iff_of_true (safe_close hslots.no_dirs fd) trivial
  | dup2 oldfd newfd => exact safe_dup2_iff hslots oldfd newfd
  | isdir fd => exact safe_isdir_iff
  | inumber fd => exact safe_inumber_iff
  | readdir fd name => exact safe_readdir_iff name
  | mmap spt addr length fd offset => exact safe_mmap_iff hslots spt addr length offset

/-- A process that has opened nothing, and has no memory. -/
def fresh_process : io_process where
  proc := process_init_fds file_a none
  mem := ⟨fun _ => none, zeros⟩
  input := zeros
  output := []

theorem fresh_process_slots : FileSlots fresh_process.proc := by
  intro fd hfd
  by_cases h0 : fd = 0
  · exact .inr (.inl (if_pos h0))
  by_cases h1 : fd = 1
  · exact .inr (.inr (.inl ((if_neg h0).trans (if_pos h1))))
  · exact .inl ((if_neg h0).trans (if_neg h1))

/-- `filesize (1)` in a new process is not safe, and `filesize (2)` is. -/
theorem fresh_filesize : Reachable fresh_process.proc ∧ FileSlots fresh_process.proc
    ∧ (¬ ∀ t ∈ (fd_syscall.filesize 1).log fresh_process, t.Ok)
    ∧ ∀ t ∈ (fd_syscall.filesize 2).log fresh_process, t.Ok := by
  have hreach : Reachable fresh_process.proc := .init file_a none
  refine ⟨hreach, fresh_process_slots, ?_, ?_⟩
  · rw [descriptor_call_safe_iff hreach fresh_process_slots]
    exact fun h => (h (by decide) (by decide)).2 rfl
  · rw [descriptor_call_safe_iff hreach fresh_process_slots]
    exact fun _ _ => ⟨by decide, by decide⟩

/-- `isdir (2)` in a new process follows a null pointer. -/
theorem isdir_follows_null : Reachable fresh_process.proc ∧ FileSlots fresh_process.proc
    ∧ touch.deref .null ∈ (fd_syscall.isdir 2).log fresh_process ∧ ¬ touch.Ok (.deref .null) :=
  ⟨.init file_a none, fresh_process_slots, by decide, nofun⟩

end Pintos
