/-
`userprog/syscall.c`: the calls that take a file descriptor.

Every call looks at its descriptor in its own way, so the code is kept as it is, with a log
of what it touches: the index of every access to `fd_table`, and every pointer from it that
is followed as a `struct file`. An index out of the table is undefined, and so is a
`struct dir` behind a `struct file *` where more than its inode is used; a null pointer or a
sentinel that is followed is a kernel fault.

Demand paging is not the subject here: a page of user memory is there if a fault on it is
handled, and it is writable or not.
-/
import Pintos.Lib.Traced
import Pintos.Userprog.ForkTable
import Pintos.Vm.Process

set_option autoImplicit false

namespace Pintos

/-! ## User memory -/

/-- The memory of a process. -/
structure user_memory where
  /-- `page->writable`, at multiples of `PGSIZE`. -/
  page : ℕ → Option Bool
  bytes : Bytes

namespace user_memory

/-- A buffer in user memory. -/
def load (m : user_memory) (buffer : ℕ) : Bytes := fun k => m.bytes (buffer + k)

/-- `size` bytes are stored at `buffer`. -/
def store (m : user_memory) (buffer : ℕ) (b : Bytes) (size : ℕ) : user_memory :=
  { m with bytes := memcpy m.bytes buffer b size }

end user_memory

/-- `buffer + size - 1`, which wraps for an empty buffer at 0. -/
def buffer_end (buffer size : ℕ) : ℕ := (buffer + size + (2 ^ 64 - 1)) % 2 ^ 64

/-- The pages from the first to the last byte of a buffer. -/
def buffer_pages (buffer size : ℕ) : List ℕ :=
  let start := pg_round_down buffer
  let last := pg_round_down (buffer_end buffer size)
  if start ≤ last then (List.range ((last - start) / PGSIZE + 1)).map fun i => start + PGSIZE * i
  else []

/-- `check_buffer`; `false` is `sys_exit (-1)`. -/
def check_buffer (m : user_memory) (buffer size : ℕ) : Bool :=
  decide (buffer ≠ 0)
    && (buffer_pages buffer size).all fun addr => decide (addr < KERN_BASE) && (m.page addr).isSome

/-- `check_read_buffer`. -/
def check_read_buffer (m : user_memory) (buffer size : ℕ) : Bool :=
  decide (buffer < KERN_BASE ∧ buffer_end buffer size < KERN_BASE) && check_buffer m buffer size

/-- `check_write_buffer`. -/
def check_write_buffer (m : user_memory) (buffer size : ℕ) : Bool :=
  check_read_buffer m buffer size
    && (buffer_pages buffer size).all fun addr =>
      decide (addr < KERN_BASE) && decide (m.page addr = some true)

/-! ## Files -/

/-- `file_read`. -/
def file_read (s : filesys) (f : ℕ) (buffer : Bytes) (size : ℤ) :
    Outcome (ℤ × Bytes × filesys) := do
  let fl ← s.get_file f
  let (bytes_read, buffer) ← file_read_at s f buffer size fl.pos
  return (bytes_read, buffer, s.set_file f { fl with pos := i32 (fl.pos + bytes_read) })

/-- `file_write`. -/
def file_write (s : filesys) (f : ℕ) (buffer : Bytes) (size : ℤ) : Outcome (ℤ × filesys) := do
  let fl ← s.get_file f
  let (bytes_written, s) ← file_write_at s f buffer size fl.pos
  return (bytes_written, s.set_file f { fl with pos := i32 (fl.pos + bytes_written) })

/-- `file_seek`. -/
def file_seek (s : filesys) (f : ℕ) (new_pos : ℤ) : Outcome filesys := do
  Outcome.assert (0 ≤ new_pos)
  let fl ← s.get_file f
  return s.set_file f { fl with pos := new_pos }

/-- `file_tell`. -/
def file_tell (s : filesys) (f : ℕ) : Outcome ℤ := do
  let fl ← s.get_file f
  return fl.pos

/-! ## Touching the table -/

/-- What a call touches. -/
inductive touch
  /-- `fd_table[fd]`, read or written. -/
  | index (fd : ℤ)
  /-- A pointer out of the table is followed. -/
  | deref (slot : fd_slot)
  deriving DecidableEq, Repr

/-- `fd_table[fd]`. -/
def fd_at (x : fd_process) (fd : ℤ) : Traced touch fd_slot where
  log := [.index fd]
  result := if 0 ≤ fd ∧ fd < MAX_FD then .ok (x.fd_table fd.toNat) else .undefined

/-- `fd_table[fd] = slot`. -/
def fd_set (x : fd_process) (fd : ℤ) (slot : fd_slot) : Traced touch fd_process where
  log := [.index fd]
  result := if 0 ≤ fd ∧ fd < MAX_FD then .ok (x.set_slot fd.toNat slot) else .undefined

/-- A pointer is followed as a `struct file`. -/
def file_of (slot : fd_slot) : Traced touch ℕ where
  log := [.deref slot]
  result :=
    match slot with
    | .file f => .ok f
    | .dir _ => .undefined
    | _ => .panic

/-- `file->inode`. A `struct dir` has its inode in the same place. -/
def inode_of (s : filesys) (slot : fd_slot) : Traced touch inode where
  log := [.deref slot]
  result :=
    match slot with
    | .file f => do
        let fl ← s.get_file f
        s.get_inode fl.inode
    | .dir i => s.get_inode i
    | _ => .panic

/-- `is_file_dir`. -/
def is_file_dir (s : filesys) (slot : fd_slot) : Traced touch Bool := do
  let ino ← inode_of s slot
  return ino.data.isdir

/-- `process_get_file`. -/
def process_get_file (x : fd_process) (fd : ℤ) : Traced touch fd_slot :=
  if fd < 2 ∨ MAX_FD < fd then pure .null else fd_at x fd

/-! ## The calls -/

/-- A process and what its calls reach. -/
structure io_process where
  proc : fd_process
  mem : user_memory
  /-- What the keyboard will deliver. -/
  input : Bytes
  /-- What the console has got. -/
  output : List UInt8

namespace io_process

/-- The process with another file system. -/
def set_fs (p : io_process) (s : filesys) : io_process := { p with proc := p.proc.set_fs s }

end io_process

/-- How a call ends for the caller. -/
inductive reply
  | void
  | returned (value : ℤ)
  /-- `sys_exit (-1)`. -/
  | exited
  deriving DecidableEq, Repr

/-- `sys_filesize`. -/
def sys_filesize (x : fd_process) (fd : ℤ) : Traced touch ℤ :=
  if fd < 0 ∨ MAX_FD ≤ fd then pure (-1)
  else do
    let file_obj ← fd_at x fd
    if file_obj = .null then return -1
    else
      let ino ← inode_of x.fs file_obj
      return inode_length ino

/-- `sys_read`. -/
def sys_read (p : io_process) (fd : ℤ) (buffer size : ℕ) : Traced touch (reply × io_process) :=
  if size = 0 then pure (.returned 0, p)
  else if ¬ check_write_buffer p.mem buffer size then pure (.exited, p)
  else if fd < 0 ∨ MAX_FD ≤ fd then pure (.returned (-1), p)
  else do
    let slot ← fd_at p.proc fd
    if slot = .stdin then
      if p.proc.stdin_count ≠ 0 then
        return (.returned (i32 size), { p with
          mem := p.mem.store buffer p.input size
          input := fun k => p.input (k + size) })
      else return (.returned (-1), p)
    else
      let file_obj ← fd_at p.proc fd
      if file_obj = .null ∨ file_obj = .stdin ∨ file_obj = .stdout then return (.returned (-1), p)
      else
        let f ← file_of file_obj
        let (n, b, s) ← Traced.lift (file_read p.proc.fs f (p.mem.load buffer) (i32 size))
        return (.returned n, { p.set_fs s with mem := p.mem.store buffer b size })

/-- `sys_write`. -/
def sys_write (p : io_process) (fd : ℤ) (buffer size : ℕ) : Traced touch (reply × io_process) :=
  if ¬ check_read_buffer p.mem buffer size then pure (.exited, p)
  else if fd < 0 ∨ MAX_FD ≤ fd then pure (.returned (-1), p)
  else do
    let slot ← fd_at p.proc fd
    if slot = .stdout ∧ p.proc.stdout_count ≠ 0 then
      return (.returned (i32 size), { p with
        output := p.output ++ (List.range size).map (p.mem.load buffer) })
    else
      let f ← process_get_file p.proc fd
      if f = .null then return (.returned (-1), p)
      else
        let isdir ← is_file_dir p.proc.fs f
        if isdir then return (.exited, p)
        else
          let f ← file_of f
          let (n, s) ← Traced.lift (file_write p.proc.fs f (p.mem.load buffer) (i32 size))
          return (.returned n, p.set_fs s)

/-- `sys_seek`. -/
def sys_seek (p : io_process) (fd : ℤ) (position : ℕ) : Traced touch (reply × io_process) :=
  if fd < 0 ∨ MAX_FD ≤ fd then pure (.void, p)
  else do
    let slot ← fd_at p.proc fd
    if slot = .stdin ∨ slot = .stdout then return (.void, p)
    else
      let file_obj ← fd_at p.proc fd
      if file_obj = .null then return (.void, p)
      else
        let f ← file_of file_obj
        let s ← Traced.lift (file_seek p.proc.fs f (i32 position))
        return (.void, p.set_fs s)

/-- `sys_tell`, which returns an `unsigned`. -/
def sys_tell (x : fd_process) (fd : ℤ) : Traced touch ℤ :=
  if fd < 0 ∨ MAX_FD ≤ fd then pure ((-1) % 2 ^ 32)
  else do
    let file_obj ← fd_at x fd
    if file_obj = .null then return (-1) % 2 ^ 32
    else
      let f ← file_of file_obj
      let pos ← Traced.lift (file_tell x.fs f)
      return pos % 2 ^ 32

/-- `sys_close`, with its log. -/
def sys_close_traced (x : fd_process) (fd : ℤ) : Traced touch fd_process :=
  if fd < 0 ∨ MAX_FD ≤ fd then pure x
  else do
    let slot ← fd_at x fd
    match slot with
    | .null => fd_set x fd .null
    | .stdin => fd_set { x with stdin_count := x.stdin_count - 1 } fd .null
    | .stdout => fd_set { x with stdout_count := x.stdout_count - 1 } fd .null
    | slot =>
        let f ← file_of slot
        let s ← Traced.lift (drop_file x.fs f)
        fd_set (x.set_fs s) fd .null

/-- The counter of what `oldfd` holds goes up, in `sys_dup2`. -/
def dup_count_up_traced (x : fd_process) (slot : fd_slot) : Traced touch fd_process :=
  match slot with
  | .stdin => pure { x with stdin_count := x.stdin_count + 1 }
  | .stdout => pure { x with stdout_count := x.stdout_count + 1 }
  | slot => do
      let f ← file_of slot
      let fl ← Traced.lift (x.fs.get_file f)
      return x.set_fs (x.fs.set_file f { fl with dup_count := fl.dup_count + 1 })

/-- `sys_dup2`, with its log. -/
def sys_dup2_traced (x : fd_process) (oldfd newfd : ℤ) : Traced touch (ℤ × fd_process) :=
  if oldfd < 0 ∨ MAX_FD ≤ oldfd then pure (-1, x)
  else do
    let slot ← fd_at x oldfd
    if slot = .null then return (-1, x)
    else if oldfd = newfd then return (newfd, x)
    else
      let x ← dup_count_up_traced x slot
      let old ← fd_at x newfd
      let x ← if old ≠ .null then sys_close_traced x newfd else pure x
      let slot ← fd_at x oldfd
      let x ← fd_set x newfd slot
      return (newfd, x)

/-- `sys_isdir`. -/
def sys_isdir (x : fd_process) (fd : ℤ) : Traced touch Bool :=
  if fd < 2 then pure false
  else do
    let slot ← fd_at x fd
    is_file_dir x.fs slot

/-- `sys_inumber`. -/
def sys_inumber (x : fd_process) (fd : ℤ) : Traced touch ℤ :=
  if fd < 2 then pure (-1)
  else do
    let slot ← fd_at x fd
    let ino ← inode_of x.fs slot
    return i32 ino.sector

/-- `strlcpy (name, e.name, NAME_MAX + 1)` to where the user says, which nobody has checked. -/
def store_name (m : user_memory) (name : ℕ) (e : c_string) : Outcome user_memory :=
  if KERN_BASE ≤ name + e.length then .undefined
  else if (buffer_pages name (e.length + 1)).all fun addr => decide (m.page addr = some true) then
    .ok (m.store name (fun k => e.getD k 0) (e.length + 1))
  else .panic

/-- The loops of `sys_readdir` and `dir_readdir`, from `pos` on. -/
def readdir_loop (s : filesys) (ino : inode) (name : ℕ) :
    ℕ → ℕ → user_memory → Outcome (Bool × user_memory)
  | 0, _, _ => .diverge
  | fuel + 1, pos, m => do
      let (n, e) ← inode_read_at s.disk s.fat ino zeros DIR_ENTRY_SIZE pos
      if n ≠ DIR_ENTRY_SIZE then return (false, m)
      else if !dir_entry.in_use e then readdir_loop s ino name fuel (pos + DIR_ENTRY_SIZE) m
      else
        let m ← store_name m name (dir_entry.name e)
        -- `.` and `..` are skipped.
        if dir_entry.name e = [46] ∨ dir_entry.name e = [46, 46] then
          readdir_loop s ino name fuel (pos + DIR_ENTRY_SIZE) m
        else return (true, m)

/-- `sys_readdir`. It makes a new `struct dir` for every call, so it starts at the front. -/
def sys_readdir (p : io_process) (fd : ℤ) (name : ℕ) : Traced touch (Bool × io_process) :=
  if fd < 2 then pure (false, p)
  else do
    let file ← fd_at p.proc fd
    let isdir ← is_file_dir p.proc.fs file
    if !isdir then return (false, p)
    else
      let ino ← inode_of p.proc.fs file
      let fuel := ino.data.length.toNat / DIR_ENTRY_SIZE + 2
      let (found, m) ← Traced.lift (readdir_loop p.proc.fs ino name fuel 0 p.mem)
      return (found, { p with mem := m })

/-- `sys_mmap` up to `do_mmap`: the file that is mapped, or none for `MAP_FAILED`. `spt` has
the pages the process has. -/
def sys_mmap_file (x : fd_process) (spt : ℕ → Bool) (addr length : ℕ) (fd offset : ℤ) :
    Traced touch (Option ℕ) :=
  if fd < 2 then pure none
  else do
    let filesize ← sys_filesize x fd
    if filesize = 0 ∨ length = 0 then return none
    else if addr < length then return none
    else if addr = 0 ∨ addr % PGSIZE ≠ 0 ∨ offset.tmod PGSIZE ≠ 0
      ∨ KERN_BASE ≤ addr then return none
    else
      let target_file ← fd_at x fd
      if target_file = .null then return none
      else if (List.range ((pg_round_up (addr + length) - addr) / PGSIZE)).any fun i =>
          spt (addr + i * PGSIZE) then return none
      else
        let f ← file_of target_file
        return some f

/-! ## The two calls without the log -/

section Erase

variable {x : fd_process} {fd : ℤ}

theorem fd_at_result (h : 0 ≤ fd ∧ fd < MAX_FD) :
    (fd_at x fd).result = .ok (x.fd_table fd.toNat) := if_pos h

theorem fd_set_result (h : 0 ≤ fd ∧ fd < MAX_FD) (slot : fd_slot) :
    (fd_set x fd slot).result = .ok (x.set_slot fd.toNat slot) := if_pos h

theorem in_range (h : ¬ (fd < 0 ∨ MAX_FD ≤ fd)) : 0 ≤ fd ∧ fd < MAX_FD := by omega

/-- `sys_close` of the other calls is this one without its log. -/
theorem sys_close_traced_result (x : fd_process) (fd : ℤ) :
    (sys_close_traced x fd).result = sys_close x fd := by
  unfold sys_close_traced sys_close
  by_cases hfd : fd < 0 ∨ MAX_FD ≤ fd
  · rw [if_pos hfd, if_pos hfd]
    rfl
  · have hin := in_range hfd
    rw [if_neg hfd, if_neg hfd, Traced.bind_result, fd_at_result hin, Outcome.ok_bind]
    cases hslot : x.fd_table fd.toNat with
    | null => exact fd_set_result hin _
    | stdin => exact fd_set_result hin _
    | stdout => exact fd_set_result hin _
    | file f =>
        simp only [Traced.bind_result, file_of, Traced.lift_result, Outcome.ok_bind]
        apply congrArg
        funext s
        exact fd_set_result hin _
    | dir i => rfl

theorem dup_count_up_traced_result (x : fd_process) (slot : fd_slot) :
    (dup_count_up_traced x slot).result =
      if slot = .null then .panic else dup_count_up x slot := by
  cases slot with
  | null => rfl
  | stdin => rfl
  | stdout => rfl
  | file f =>
      simp only [dup_count_up_traced, dup_count_up, Traced.bind_result, file_of, Traced.lift_result,
        Outcome.ok_bind, reduceCtorEq, if_false]
      rfl
  | dir i => rfl

theorem sys_dup2_traced_result (x : fd_process) (oldfd newfd : ℤ) :
    (sys_dup2_traced x oldfd newfd).result = sys_dup2 x oldfd newfd := by
  unfold sys_dup2_traced sys_dup2
  by_cases hold : oldfd < 0 ∨ MAX_FD ≤ oldfd
  · rw [if_pos hold, if_pos hold]
    rfl
  rw [if_neg hold, if_neg hold, Traced.bind_result, fd_at_result (in_range hold), Outcome.ok_bind]
  by_cases hnull : x.fd_table oldfd.toNat = .null
  · rw [if_pos hnull, if_pos hnull]
    rfl
  rw [if_neg hnull, if_neg hnull]
  by_cases hsame : oldfd = newfd
  · rw [if_pos hsame, if_pos hsame]
    rfl
  rw [if_neg hsame, if_neg hsame, Traced.bind_result, dup_count_up_traced_result, if_neg hnull]
  unfold dup_slot
  apply congrArg
  funext y
  by_cases hnew : newfd < 0 ∨ MAX_FD ≤ newfd
  · have hout : ¬ (0 ≤ newfd ∧ newfd < MAX_FD) := by omega
    rw [if_pos hnew, Traced.bind_result]
    simp only [fd_at, hout, if_false, Outcome.undefined_bind]
  · rw [if_neg hnew, Traced.bind_result, fd_at_result (in_range hnew), Outcome.ok_bind]
    have hrest : ∀ z : fd_process, (do
        let slot ← fd_at z oldfd
        let z ← fd_set z newfd slot
        return (newfd, z) : Traced touch (ℤ × fd_process)).result =
          .ok (newfd, z.set_slot newfd.toNat (z.fd_table oldfd.toNat)) := by
      intro z
      rw [Traced.bind_result, fd_at_result (in_range hold), Outcome.ok_bind, Traced.bind_result,
        fd_set_result (in_range hnew), Outcome.ok_bind]
      rfl
    by_cases hopen : y.fd_table newfd.toNat ≠ .null
    · simp only [if_pos hopen]
      rw [Traced.bind_result, sys_close_traced_result]
      apply congrArg
      funext z
      exact hrest z
    · simp only [if_neg hopen]
      exact hrest y

end Erase

end Pintos
