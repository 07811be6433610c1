/-
`filesys/directory.c`: directories are files of 20-byte entries.

A `struct dir` is an inode pointer and a position; only `dir_readdir` uses the
position. Here a directory is its inode, `dir_open` takes the inode over, and
`dir_close` is `inode_close`.

The scans read one entry after the other until a read comes back short. They
have no other end than that of the file, so a scan of a directory of `n` bytes
takes at most `n / 20 + 1` reads.
-/
import Pintos.Filesys.OpenInode

set_option autoImplicit false

namespace Pintos

/-- `ROOT_DIR_SECTOR`. -/
def ROOT_DIR_SECTOR : ℕ := 1

/-- `NAME_MAX`. -/
def NAME_MAX : ℕ := 14

/-- `sizeof (struct dir_entry)`: a sector number, a name with its terminator, a flag. -/
def DIR_ENTRY_SIZE : ℕ := 20

/-- A C string, without its terminator. -/
abbrev c_string := List UInt8

/-! ## Entries -/

namespace dir_entry

/-- `e.inode_sector`. -/
def inode_sector (e : Bytes) : ℕ := wordAt e 0

/-- `e.in_use`. -/
def in_use (e : Bytes) : Bool := e 19 ≠ 0

/-- `e.name`, up to its terminator. -/
def name (e : Bytes) : c_string := ((List.range NAME_MAX).map fun i => e (4 + i)).takeWhile (· ≠ 0)

/-- `!strcmp (name, e.name)`: the characters agree up to and with the terminator. -/
def has_name (e : Bytes) (name : c_string) : Bool :=
  (List.range (name.length + 1)).all fun i => e (4 + i) = name.getD i 0

/-- The entry after the three assignments of `dir_add`. `strlcpy` leaves alone
what is behind the terminator. -/
def fill (e : Bytes) (name : c_string) (sector : ℕ) : Bytes := fun k =>
  if k < 4 then byteOf sector k
  else if k < 4 + name.length + 1 ∧ k < 19 then name.getD (k - 4) 0
  else if k = 19 then 1
  else e k

/-- The entry after `e.in_use = false`. -/
def clear (e : Bytes) : Bytes := Function.update e 19 0

end dir_entry

/-! ## Scanning -/

/-- Where a scan stopped. -/
structure dir_scan_end where
  /-- An entry was found; otherwise the file ended. -/
  found : Bool
  ofs : ℕ
  e : Bytes

/-- `for (ofs = 0; inode_read_at (..., ofs) == sizeof e; ofs += sizeof e)`, up to
the first entry with `p`. -/
def dir_scan (s : filesys) (ino : inode) (p : Bytes → Bool) :
    ℕ → ℕ → Bytes → Outcome dir_scan_end
  | 0, _, _ => .diverge
  | fuel + 1, ofs, e => do
      let (n, e) ← inode_read_at s.disk s.fat ino e DIR_ENTRY_SIZE ofs
      if n ≠ DIR_ENTRY_SIZE then return { found := false, ofs, e }
      else if p e then return { found := true, ofs, e }
      else dir_scan s ino p fuel (ofs + DIR_ENTRY_SIZE) e

/-- A scan of directory `dir` from its beginning. -/
def dir_find (s : filesys) (dir : ℕ) (p : Bytes → Bool) : Outcome dir_scan_end := do
  let ino ← s.get_inode dir
  dir_scan s ino p (ino.data.length.toNat / DIR_ENTRY_SIZE + 2) 0 zeros

/-- `lookup`: the offset of the entry and the entry. -/
def lookup (s : filesys) (dir : ℕ) (name : c_string) : Outcome (Option (ℕ × Bytes)) := do
  let r ← dir_find s dir fun e => dir_entry.in_use e && dir_entry.has_name e name
  return if r.found then some (r.ofs, r.e) else none

/-! ## Operations -/

/-- The open inode behind a found entry. -/
def open_entry (s : filesys) : Option (ℕ × Bytes) → Outcome (Option ℕ × filesys)
  | none => .ok (none, s)
  | some (_, e) => do
      let (i, s) ← inode_open s (dir_entry.inode_sector e)
      return (some i, s)

/-- `dir_lookup`: the inode, opened, or null. -/
def dir_lookup (s : filesys) (dir : ℕ) (name : c_string) : Outcome (Option ℕ × filesys) := do
  let entry ← lookup s dir name
  open_entry s entry

/-- `inode_write_at (dir->inode, &e, sizeof e, ofs) == sizeof e`. -/
def write_entry (s : filesys) (dir : ℕ) (e : Bytes) (ofs : ℕ) : Outcome (Bool × filesys) := do
  let ino ← s.get_inode dir
  let (n, d, fs, ino) ← inode_write_at s.disk s.fat ino e DIR_ENTRY_SIZE ofs
  return (n = DIR_ENTRY_SIZE, s.write_back dir d fs ino)

/-- `dir_add`. -/
def dir_add (s : filesys) (dir : ℕ) (name : c_string) (inode_sector : ℕ) :
    Outcome (Bool × filesys) := do
  if name = [] ∨ NAME_MAX < name.length then return (false, s)
  else
    let entry ← lookup s dir name
    if entry.isSome then return (false, s)
    else
      let r ← dir_find s dir fun e => !dir_entry.in_use e
      write_entry s dir (dir_entry.fill r.e name inode_sector) r.ofs

/-- The part of `dir_remove` behind `inode_open`. -/
def remove_entry (s : filesys) (dir i ofs : ℕ) (e : Bytes) : Outcome (Bool × filesys) := do
  let (done, s) ← write_entry s dir (dir_entry.clear e) ofs
  if done then
    let s ← inode_remove s i
    let s ← inode_close s i
    return (true, s)
  else
    let s ← inode_close s i
    return (false, s)

/-- `dir_remove`. -/
def dir_remove (s : filesys) (dir : ℕ) (name : c_string) : Outcome (Bool × filesys) := do
  let entry ← lookup s dir name
  match entry with
  | none => .ok (false, s)
  | some (ofs, e) => do
      let (i, s) ← inode_open s (dir_entry.inode_sector e)
      remove_entry s dir i ofs e

/-- `dir_readdir` of a `struct dir` at `pos`, where `e` is what is on the stack: the name, or none
at the end, and the new position. -/
def dir_readdir (s : filesys) (dir pos : ℕ) (e : Bytes) : Outcome (Option c_string × ℕ) := do
  let ino ← s.get_inode dir
  let r ← dir_scan s ino dir_entry.in_use (ino.data.length.toNat / DIR_ENTRY_SIZE + 2) pos e
  if r.found then return (some (dir_entry.name r.e), r.ofs + DIR_ENTRY_SIZE)
  else return (none, r.ofs)

/-- `dir_create`. -/
def dir_create (s : filesys) (sector entry_cnt : ℕ) : Outcome (Bool × filesys) := do
  let (done, d, fs) ← inode_create s.disk s.fat sector (entry_cnt * DIR_ENTRY_SIZE) true
  return (done, { s with disk := d, fat := fs })

end Pintos
