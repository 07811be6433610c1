/-
`filesys/file.c`: open files, over the inodes they were opened on.

`filesys` is what the file system keeps between calls: the disk, the allocation
table in memory, the open inodes and the `struct file` objects. Objects live on
the kernel heap and are named by their address, so two pointers are equal when
the C pointers are; an address that holds nothing has been freed or was never
allocated, and touching it is undefined.
-/
import Pintos.Filesys.Inode
import Mathlib.Tactic.Simps.Basic

set_option autoImplicit false

namespace Pintos

/-- `struct file`. -/
structure file where
  inode : ℕ
  pos : ℤ
  deny_write : Bool
  dup_count : ℤ
  deriving DecidableEq, Repr

/-- The state of the file system. -/
structure filesys where
  disk : disk
  fat : fat_fs
  /-- The heap of `struct inode`. -/
  inode : ℕ → Option inode
  next_inode : ℕ
  /-- `open_inodes`, the one opened last in front. -/
  open_inodes : List ℕ
  /-- The heap of `struct file`. -/
  file : ℕ → Option file
  next_file : ℕ

namespace filesys

/-- Follow a pointer to a `struct inode`. -/
def get_inode (s : filesys) (i : ℕ) : Outcome Pintos.inode :=
  match s.inode i with
  | some ino => .ok ino
  | none => .undefined

/-- Follow a pointer to a `struct file`. -/
def get_file (s : filesys) (f : ℕ) : Outcome Pintos.file :=
  match s.file f with
  | some fl => .ok fl
  | none => .undefined

/-- Store into a `struct inode`. -/
@[simps] def set_inode (s : filesys) (i : ℕ) (ino : Pintos.inode) : filesys :=
  { s with inode := Function.update s.inode i (some ino) }

/-- Store into a `struct file`. -/
@[simps] def set_file (s : filesys) (f : ℕ) (fl : Pintos.file) : filesys :=
  { s with file := Function.update s.file f (some fl) }

/-- `malloc` of a `struct file`. -/
@[simps] def new_file (s : filesys) (fl : Pintos.file) : filesys :=
  { s with file := Function.update s.file s.next_file (some fl), next_file := s.next_file + 1 }

theorem get_inode_eq_ok {s : filesys} {i : ℕ} {ino : Pintos.inode} :
    s.get_inode i = .ok ino ↔ s.inode i = some ino := by
  unfold get_inode
  cases s.inode i with
  | none => simp
  | some x => simp

theorem get_file_eq_ok {s : filesys} {f : ℕ} {fl : Pintos.file} :
    s.get_file f = .ok fl ↔ s.file f = some fl := by
  unfold get_file
  cases s.file f with
  | none => simp
  | some x => simp

end filesys

/-- `inode_reopen`, on a pointer that is not null. -/
def inode_reopen (s : filesys) (i : ℕ) : Outcome filesys := do
  let ino ← s.get_inode i
  return s.set_inode i { ino with open_cnt := ino.open_cnt + 1 }

/-- `file_open` of an inode that is not null. -/
def file_open (s : filesys) (i : ℕ) : ℕ × filesys :=
  (s.next_file, s.new_file { inode := i, pos := 0, deny_write := false, dup_count := 1 })

/-- `file_reopen`. -/
def file_reopen (s : filesys) (f : ℕ) : Outcome (ℕ × filesys) := do
  let fl ← s.get_file f
  let s ← inode_reopen s fl.inode
  return file_open s fl.inode

/-- `file_length`. -/
def file_length (s : filesys) (f : ℕ) : Outcome ℤ := do
  let fl ← s.get_file f
  let ino ← s.get_inode fl.inode
  return inode_length ino

/-- `file_read_at`: the count, and the buffer with what was read. -/
def file_read_at (s : filesys) (f : ℕ) (buffer : Bytes) (size file_ofs : ℤ) :
    Outcome (ℤ × Bytes) := do
  let fl ← s.get_file f
  let ino ← s.get_inode fl.inode
  inode_read_at s.disk s.fat ino buffer size file_ofs

/-- The file system after a write through inode `i`. -/
@[simps] def filesys.write_back (s : filesys) (i : ℕ) (d : Pintos.disk) (fs : fat_fs)
    (ino : Pintos.inode) : filesys :=
  { s with disk := d, fat := fs, inode := Function.update s.inode i (some ino) }

/-- `file_write_at`. -/
def file_write_at (s : filesys) (f : ℕ) (buffer : Bytes) (size file_ofs : ℤ) :
    Outcome (ℤ × filesys) := do
  let fl ← s.get_file f
  let ino ← s.get_inode fl.inode
  let (written, d, fs, ino) ← inode_write_at s.disk s.fat ino buffer size file_ofs
  return (written, s.write_back fl.inode d fs ino)

/-- `file_allow_write`, with `inode_allow_write` and its assertions. -/
def file_allow_write (s : filesys) (f : ℕ) : Outcome filesys := do
  let fl ← s.get_file f
  if fl.deny_write then
    let ino ← s.get_inode fl.inode
    Outcome.assert (0 < ino.deny_write_cnt)
    Outcome.assert (ino.deny_write_cnt ≤ ino.open_cnt)
    return (s.set_file f { fl with deny_write := false }).set_inode fl.inode
      { ino with deny_write_cnt := ino.deny_write_cnt - 1 }
  else
    return s

end Pintos
