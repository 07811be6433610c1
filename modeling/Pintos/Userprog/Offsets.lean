/-
`filesys/inode.c` and `filesys/file.c`: how far a file position gets.

An `off_t` is signed, and `inode_write_at` adds a position and a size in it. What keeps a
position from turning negative is that a transfer moves no more bytes than it was asked for,
a read none behind the end of the file, and that no file is longer than an `off_t` says. All
of the file system keeps that.
-/
import Pintos.Filesys.Balance
import Pintos.Filesys.InodeAccess
import Pintos.Userprog.DescriptorCalls

set_option autoImplicit false

namespace Pintos

/-! ## One transfer -/

section Transfer

variable {d d' : disk} {fs fs' : fat_fs} {ino ino' : inode} {n : ℤ}

end Transfer

/-! ## The invariant -/

/-- Positions are not negative, and positions and lengths fit an `off_t`. -/
structure filesys.Offsets (s : filesys) : Prop where
  pos : ∀ {f fl}, s.file f = some fl → 0 ≤ fl.pos ∧ fl.pos < 2 ^ 31
  length : ∀ {i ino}, s.inode i = some ino → ino.data.length < 2 ^ 31

section Offsets

variable {s s' : filesys} {i f : ℕ} {ino : Pintos.inode} {fl : Pintos.file} {size : ℤ}

open filesys

/-- What changes the open inodes only, and makes none too long. -/
theorem filesys.Offsets.of_inodes (h : s.Offsets) (hfile : s'.file = s.file)
    (hinode : ∀ j jno, s'.inode j = some jno → s.inode j = some jno ∨ jno.data.length < 2 ^ 31) :
    s'.Offsets where
  pos hf := h.pos (hfile ▸ hf)
  length {j jno} hj := (hinode j jno hj).elim h.length id

/-- What leaves both heaps alone. -/
theorem filesys.Offsets.of_eq (h : s.Offsets) (hfile : s'.file = s.file)
    (hinode : s'.inode = s.inode) : s'.Offsets :=
  h.of_inodes hfile fun _ _ hj => .inl (hinode ▸ hj)

variable {name : c_string} {dir : ℕ}

end Offsets

end Pintos
