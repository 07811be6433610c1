/-
`userprog/syscall.c`: the numbers a user passes, and what the file system does with them.

A position, a size or an initial size is an `unsigned` in the call and an `off_t` behind it.
The code is logged once more, with what it does with such a number: the two assertions that it
is not negative, and the two sums that are made of it in `int` arithmetic. Without the log
every function is the one it is a copy of. The entry that `filesys_create` writes into a
directory goes through `inode_write_at` too, at no number of a user's, and is not logged.
-/
import Pintos.Filesys.Remove
import Pintos.Userprog.Interchange
import Pintos.Userprog.Offsets

set_option autoImplicit false

namespace Pintos

open Traced

/-! ## The code, with its numbers -/

/-- What happens to a number. -/
inductive off_use
  /-- `ASSERT (new_pos >= 0)` in `file_seek`. -/
  | new_pos (n : ℤ)
  /-- `ASSERT (length >= 0)` in `inode_create`. -/
  | length (n : ℤ)
  /-- An addition of `int`s: `offset + size`, or what `DIV_ROUND_UP` starts with. -/
  | sum (a b : ℤ)
  deriving DecidableEq, Repr

/-- **A number that does no harm.** -/
def off_use.Ok : off_use → Prop
  | .new_pos n | .length n => 0 ≤ n
  | .sum a b => IsI32 (a + b)

/-- `inode_create`. -/
def inode_create_numbers (d : disk) (fs : fat_fs) (sector : ℕ) (length : ℤ) (is_dir : Bool) :
    Traced off_use (Bool × disk × fat_fs) := do
  note (.length length)
  lift (Outcome.assert (0 ≤ length))
  note (.sum length 512)
  lift (inode_create d fs sector length is_dir)

/-- `create_in`. -/
def create_in_numbers (s : filesys) (cur_dir : ℕ) (name : c_string) (initial_size : ℤ) :
    Traced off_use (Bool × filesys) := do
  let (allocated, inode_clst, fs) ← lift (fat_allocate s.fat 1 0)
  if allocated then
    let sector := cluster_to_sector fs inode_clst
    let (created, d, fs) ← inode_create_numbers s.disk fs sector initial_size false
    if created then lift (dir_add { s with disk := d, fat := fs } cur_dir name sector)
    else return (false, { s with disk := d, fat := fs })
  else return (false, { s with fat := fs })

/-- `create_at`. -/
def create_at_numbers (s : filesys) (cur_dir : Option ℕ) (name : c_string) (initial_size : ℤ) :
    Traced off_use (Bool × filesys) :=
  match cur_dir with
  | none => pure (false, s)
  | some dir =>
      if name.length ≤ 14 then create_in_numbers s dir name initial_size else pure (false, s)

/-- `filesys_create`. -/
def filesys_create_numbers (s : filesys) (cwd : Option ℕ) (name : c_string) (initial_size : ℤ) :
    Traced off_use (Bool × filesys) := do
  let path_lst ← lift (parse_path name)
  match path_lst.getLast? with
  | none => pure (false, s)
  | some last => do
      let (cur_dir, s) ← lift (start_dir_checked s cwd (is_root_path name))
      let (cur_dir, s) ← lift (dir_walk path_lst.dropLast s cur_dir)
      create_at_numbers s cur_dir last initial_size

/-- `sys_create`. -/
def sys_create (p : io_process) (file : c_string) (initial_size : ℕ) :
    Traced off_use (reply × io_process) :=
  if file = [] then pure (.exited, p)
  else do
    let (success, s) ← filesys_create_numbers p.proc.fs p.proc.cwd file (i32 initial_size)
    return (.returned (if success then 1 else 0), p.set_fs s)

/-- `inode_write_at`. -/
def inode_write_at_numbers (d : disk) (fs : fat_fs) (ino : inode) (buffer : Bytes)
    (size offset : ℤ) : Traced off_use (ℤ × disk × fat_fs × inode) :=
  if ino.deny_write_cnt ≠ 0 then pure (0, d, fs, ino)
  else do
    note (.sum offset size)
    lift (inode_write_at d fs ino buffer size offset)

/-- `file_write`, with `file_write_at` for the same position. -/
def file_write_numbers (s : filesys) (f : ℕ) (buffer : Bytes) (size : ℤ) :
    Traced off_use (ℤ × filesys) := do
  let fl ← lift (s.get_file f)
  let ino ← lift (s.get_inode fl.inode)
  let (bytes_written, d, fs, ino) ← inode_write_at_numbers s.disk s.fat ino buffer size fl.pos
  let s := s.write_back fl.inode d fs ino
  return (bytes_written, s.set_file f { fl with pos := i32 (fl.pos + bytes_written) })

/-- `sys_write`. -/
def sys_write_numbers (p : io_process) (fd : ℤ) (buffer size : ℕ) :
    Traced off_use (reply × io_process) :=
  if ¬ check_read_buffer p.mem buffer size then pure (.exited, p)
  else if fd < 0 ∨ MAX_FD ≤ fd then pure (.returned (-1), p)
  else do
    let slot ← lift (fd_at p.proc fd).result
    if slot = .stdout ∧ p.proc.stdout_count ≠ 0 then
      return (.returned (i32 size), { p with
        output := p.output ++ (List.range size).map (p.mem.load buffer) })
    else
      let f ← lift (process_get_file p.proc fd).result
      if f = .null then return (.returned (-1), p)
      else
        let isdir ← lift (is_file_dir p.proc.fs f).result
        if isdir then return (.exited, p)
        else
          let f ← lift (file_of f).result
          let (n, s) ← file_write_numbers p.proc.fs f (p.mem.load buffer) (i32 size)
          return (.returned n, p.set_fs s)

/-- `file_seek`. -/
def file_seek_numbers (s : filesys) (f : ℕ) (new_pos : ℤ) : Traced off_use filesys := do
  note (.new_pos new_pos)
  lift (file_seek s f new_pos)

/-- `sys_seek`. -/
def sys_seek_numbers (p : io_process) (fd : ℤ) (position : ℕ) :
    Traced off_use (reply × io_process) :=
  if fd < 0 ∨ MAX_FD ≤ fd then pure (.void, p)
  else do
    let slot ← lift (fd_at p.proc fd).result
    if slot = .stdin ∨ slot = .stdout then return (.void, p)
    else
      let file_obj ← lift (fd_at p.proc fd).result
      if file_obj = .null then return (.void, p)
      else
        let f ← lift (file_of file_obj).result
        let s ← file_seek_numbers p.proc.fs f (i32 position)
        return (.void, p.set_fs s)

/-! ### Without the log -/

/-- The calls with a number, and `open`, which makes the descriptors. -/
inductive numeric_call
  | open (file : c_string)
  | create (file : c_string) (initial_size : Fin (2 ^ 32))
  | seek (fd : ℤ) (position : Fin (2 ^ 32))
  | read (fd : ℤ) (buffer : ℕ) (size : Fin (2 ^ 32))
  | write (fd : ℤ) (buffer : ℕ) (size : Fin (2 ^ 32))

/-- One call. -/
def numeric_call.step (p : io_process) : numeric_call → Traced off_use (reply × io_process)
  | .open file => do
      let (fd, x) ← lift (sys_open p.proc file)
      return (.returned fd, { p with proc := x })
  | .create file initial_size => sys_create p file initial_size
  | .seek fd position => sys_seek_numbers p fd position
  | .read fd buffer size => lift (sys_read p fd buffer size).result
  | .write fd buffer size => sys_write_numbers p fd buffer size

/-- A file that cannot be had is not created, and a transfer moves no more than it should. -/
def numeric_call.Short (r : reply) : numeric_call → Prop
  | .open _ | .seek _ _ => True
  | .create _ initial_size =>
      2 ^ 31 ≤ (initial_size : ℕ) + 512 → r = .exited ∨ r = .returned 0
  | .read _ _ size | .write _ _ size => ∀ n, r = .returned n → n ≤ (size : ℕ)

/-- **The property**: no number does harm, and the call fails or falls short instead. -/
def numeric_call.Good (p : io_process) (c : numeric_call) : Prop :=
  Safe off_use.Ok (c.step p) ∧ ∀ r p', (c.step p).result = .ok (r, p') → c.Short r

/-! ## The condition -/

/-- `filesys_create` gets as far as `inode_create`: every directory of the path exists, the last
component is not too long, and a cluster is free. -/
def CreateReaches (s : filesys) (cwd : Option ℕ) (name : c_string) : Prop :=
  ∃ path_lst last start s₁ dir s₂ clst fs, parse_path name = .ok path_lst
    ∧ path_lst.getLast? = some last ∧ start_dir_checked s cwd (is_root_path name) = .ok (start, s₁)
    ∧ dir_walk path_lst.dropLast s₁ start = .ok (some dir, s₂) ∧ last.length ≤ 14
    ∧ fat_allocate s₂.fat 1 0 = .ok (true, clst, fs)

/-- `sys_write` gets as far as the sum, with this position. -/
def WriteReaches (p : io_process) (fd : ℤ) (buffer size : ℕ) (pos : ℤ) : Prop :=
  check_read_buffer p.mem buffer size ∧ 2 ≤ fd ∧ fd < MAX_FD
    ∧ ∃ f fl ino, p.proc.fd_table fd.toNat = .file f ∧ p.proc.fs.file f = some fl
      ∧ p.proc.fs.inode fl.inode = some ino ∧ ino.data.isdir = false ∧ ino.deny_write_cnt = 0
      ∧ pos = fl.pos

/-- **When a call is good**: what is created is small enough to be rounded up, what is sought
is not negative as an `off_t`, and what is written ends where an `off_t` ends. A size from
`2 ^ 31` on is negative as an `off_t`, and nothing is written. -/
def numeric_call.Fits (p : io_process) : numeric_call → Prop
  | .open _ | .read _ _ _ => True
  | .create file initial_size =>
      CreateReaches p.proc.fs p.proc.cwd file → (initial_size : ℕ) + 512 < 2 ^ 31
  | .seek fd position => 0 ≤ fd → fd < MAX_FD → (∃ f, p.proc.fd_table fd.toNat = .file f) →
      (position : ℕ) < 2 ^ 31
  | .write fd buffer size => ∀ pos, WriteReaches p fd buffer size pos →
      2 ^ 31 ≤ (size : ℕ) ∨ pos + (size : ℕ) < 2 ^ 31

/-! ### Numbers -/

section Safety

variable {p : io_process} {s : filesys} {name : c_string} {n : ℤ}

@[simp] theorem safe_inode_create {d : disk} {fs : fat_fs} {sector : ℕ} {is_dir : Bool} :
    Safe off_use.Ok (inode_create_numbers d fs sector n is_dir) ↔ 0 ≤ n ∧ IsI32 (n + 512) := by
  unfold inode_create_numbers
  simp only [safe_bind, safe_note, safe_lift, note_result, lift_result, Outcome.assert_eq_ok,
    off_use.Ok, true_and, and_true, implies_true, true_implies]
  constructor
  · rintro ⟨hpos, hsum⟩
    exact ⟨hpos, hsum ⟨⟩ ⟨⟩ hpos⟩
  · rintro ⟨hpos, hsum⟩
    exact ⟨hpos, fun _ _ _ => hsum⟩

theorem safe_create_in {dir : ℕ} : Safe off_use.Ok (create_in_numbers s dir name n) ↔
    ((∃ clst fs, fat_allocate s.fat 1 0 = .ok (true, clst, fs)) → 0 ≤ n ∧ IsI32 (n + 512)) := by
  unfold create_in_numbers
  rw [safe_bind, lift_result]
  refine ⟨?_, fun h => ⟨safe_lift _, ?_⟩⟩
  · rintro ⟨-, h⟩ ⟨clst, fs, halloc⟩
    have hrest := h _ halloc
    simp only [if_true, safe_bind] at hrest
    exact safe_inode_create.mp hrest.1
  · rintro ⟨allocated, clst, fs⟩ halloc
    cases allocated with
    | false => exact safe_pure _
    | true =>
        simp only [if_true, safe_bind]
        refine ⟨safe_inode_create.mpr (h ⟨clst, fs, halloc⟩), ?_⟩
        rintro ⟨created, d, fs'⟩ -
        simp only [safe_ite, safe_lift, safe_pure, implies_true, and_self]

/-- **`filesys_create`** is safe unless it gets to `inode_create` with a bad length. -/
theorem safe_filesys_create {cwd : Option ℕ} :
    Safe off_use.Ok (filesys_create_numbers s cwd name n) ↔
      (CreateReaches s cwd name → 0 ≤ n ∧ IsI32 (n + 512)) := by
  unfold filesys_create_numbers
  rw [safe_bind, lift_result]
  refine ⟨?_, fun h => ⟨safe_lift _, ?_⟩⟩
  · rintro ⟨-, h⟩ ⟨path_lst, last, start, s₁, dir, s₂, clst, fs, hpath, hlast, hstart, hwalk, hlen,
      halloc⟩
    have hrest := h _ hpath
    simp only [hlast, safe_bind, lift_result] at hrest
    have hat := (hrest.2 _ hstart).2 _ hwalk
    simp only [create_at_numbers, if_pos hlen] at hat
    exact safe_create_in.mp hat ⟨clst, fs, halloc⟩
  · intro path_lst hpath
    cases hlast : path_lst.getLast? with
    | none => exact safe_pure _
    | some last =>
        simp only [safe_bind, safe_lift, lift_result, true_and]
        rintro ⟨start, s₁⟩ hstart ⟨found, s₂⟩ hwalk
        cases found with
        | none => exact safe_pure _
        | some dir =>
            simp only [create_at_numbers]
            rw [safe_ite]
            refine ⟨fun hlen => safe_create_in.mpr ?_, fun _ => safe_pure _⟩
            rintro ⟨clst, fs, halloc⟩
            exact h ⟨path_lst, last, start, s₁, dir, s₂, clst, fs, hpath, hlast,
              hstart, hwalk, hlen, halloc⟩

end Safety

/-! ### What a call leaves -/

section Effects

variable {p p' : io_process} {r : reply} {fd : ℤ} {buffer size : ℕ} {name : c_string}

end Effects

/-! ## Every call of every run -/

section Run

variable {p : io_process} {c : numeric_call}

end Run

end Pintos
