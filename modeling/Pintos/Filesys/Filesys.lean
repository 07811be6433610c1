/-
`filesys/filesys.c` and the directory calls of `userprog/syscall.c`: paths.

Each of the five functions walks the path with a loop of its own; the loops are
the same statement for statement, and `dir_walk` is that loop. What differs is
what comes before and after, in particular who closes the directory the walk
ended in, and each function keeps its own body for that.

`cwd` is the directory of the running thread, a null pointer until it is set. A
path is a C string. `parse_path` stores a pointer for every component in an array
of 128, with a null pointer behind the last one; more components leave the array.

The heap fills a block with `0xcc` when it is freed, and `filesys_remove` counts
on that: it asks `is_good_inode` of an inode it may have freed just before.
-/
import Pintos.Filesys.Directory

set_option autoImplicit false

namespace Pintos

/-! ## Paths -/

/-- The character `/`. -/
def SLASH : UInt8 := 47

/-- `is_root_path`. -/
def is_root_path (path : c_string) : Bool := path.head? = some SLASH

/-- The tokens that `strtok_r (target, "/", ..)` finds, the first one begun with
the characters `acc` in reverse. -/
def parse_path_loop : c_string → c_string → List c_string
  | acc, [] => if acc = [] then [] else [acc.reverse]
  | acc, c :: cs =>
      if c = SLASH then
        if acc = [] then parse_path_loop [] cs else acc.reverse :: parse_path_loop [] cs
      else parse_path_loop (c :: acc) cs

/-- The components of a path. -/
def path_components (path : c_string) : List c_string := parse_path_loop [] path

/-- `parse_path` into an array of 128 pointers. -/
def parse_path (path : c_string) : Outcome (List c_string) :=
  if (path_components path).length < 128 then .ok (path_components path) else .undefined

/-- `is_good_inode`; a freed inode reads as `0xcccccccc`. -/
def is_good_inode (s : filesys) (i : ℕ) : Bool :=
  match s.inode i with
  | some ino => ino.data.magic = INODE_MAGIC
  | none => false

/-- `dir_open_root`. -/
def dir_open_root (s : filesys) : Outcome (ℕ × filesys) := inode_open s ROOT_DIR_SECTOR

/-- `dir_reopen`. -/
def dir_reopen (s : filesys) (dir : ℕ) : Outcome (ℕ × filesys) := do
  let s ← inode_reopen s dir
  return (dir, s)

/-- Where `filesys_create` and `filesys_open` start their walk. -/
def start_dir_checked (s : filesys) (cwd : Option ℕ) (is_root : Bool) : Outcome (ℕ × filesys) :=
  match cwd with
  | none => dir_open_root s
  | some dir =>
      if is_root || !is_good_inode s dir then dir_open_root s else dir_reopen s dir

/-- Where the other three do. -/
def start_dir (s : filesys) (cwd : Option ℕ) (is_root : Bool) : Outcome (ℕ × filesys) :=
  match cwd with
  | none => dir_open_root s
  | some dir => if is_root then dir_open_root s else dir_reopen s dir

/-- The loop over the components of a path: the directory it ends in, or none if a
component is missing or no directory. Then the last directory is still open, and
so is an inode that is no directory. -/
def dir_walk : List c_string → filesys → ℕ → Outcome (Option ℕ × filesys)
  | [], s, cur_dir => .ok (some cur_dir, s)
  | name :: names, s, cur_dir => do
      let (inode, s) ← dir_lookup s cur_dir name
      match inode with
      | none => .ok (none, s)
      | some i => do
          let ino ← s.get_inode i
          if ino.data.isdir then do
            let s ← inode_close s cur_dir
            dir_walk names s i
          else .ok (none, s)

/-! ## `filesys_create` -/

/-- `fat_allocate (1, &inode_clst)` and what follows it. -/
def create_in (s : filesys) (cur_dir : ℕ) (name : c_string) (initial_size : ℤ) :
    Outcome (Bool × filesys) := do
  let (allocated, inode_clst, fs) ← fat_allocate s.fat 1 0
  if allocated then
    let sector := cluster_to_sector fs inode_clst
    let (created, d, fs) ← inode_create s.disk fs sector initial_size false
    if created then dir_add { s with disk := d, fat := fs } cur_dir name sector
    else return (false, { s with disk := d, fat := fs })
  else return (false, { s with fat := fs })

/-- What `filesys_create` does in the directory the walk ended in. -/
def create_at (s : filesys) (cur_dir : Option ℕ) (name : c_string) (initial_size : ℤ) :
    Outcome (Bool × filesys) :=
  match cur_dir with
  | none => .ok (false, s)
  | some dir =>
      if name.length ≤ 14 then create_in s dir name initial_size else .ok (false, s)

/-- `filesys_create`. -/
def filesys_create (s : filesys) (cwd : Option ℕ) (name : c_string) (initial_size : ℤ) :
    Outcome (Bool × filesys) := do
  let path_lst ← parse_path name
  match path_lst.getLast? with
  | none => .ok (false, s)
  | some last => do
      let (cur_dir, s) ← start_dir_checked s cwd (is_root_path name)
      let (cur_dir, s) ← dir_walk path_lst.dropLast s cur_dir
      create_at s cur_dir last initial_size

/-! ## `filesys_open` -/

/-- `file_open (inode)`, if there is one. -/
def open_found (s : filesys) : Option ℕ → Option ℕ × filesys
  | none => (none, s)
  | some i => let (f, s) := file_open s i; (some f, s)

/-- The last component. -/
def open_at (s : filesys) (cur_dir : Option ℕ) (name : c_string) : Outcome (Option ℕ × filesys) :=
  match cur_dir with
  | none => .ok (none, s)
  | some dir => do
      let (inode, s) ← dir_lookup s dir name
      return open_found s inode

/-- What `filesys_open` returns: a `struct file`, a `struct dir` behind a pointer
of the wrong type, or null. -/
inductive opened
  | file (f : ℕ)
  | root_dir (dir : ℕ)
  | null
  deriving DecidableEq, Repr

/-- A `struct file *` that may be null. -/
def opened.of_file : Option ℕ → opened
  | some f => .file f
  | none => .null

/-- `filesys_open`. The copy of the name is 128 bytes long. The empty path makes it
read the component before the first. -/
def filesys_open (s : filesys) (cwd : Option ℕ) (name : c_string) : Outcome (opened × filesys) := do
  if 128 ≤ name.length then .undefined
  else
    let path_lst ← parse_path name
    match path_lst.getLast? with
    | none =>
        if is_root_path name then do
          let (dir, s) ← dir_open_root s
          return (.root_dir dir, s)
        else .undefined
    | some last => do
        let (cur_dir, s) ← start_dir_checked s cwd (is_root_path name)
        let (cur_dir, s) ← dir_walk path_lst.dropLast s cur_dir
        let (f, s) ← open_at s cur_dir last
        return (.of_file f, s)

/-! ## `filesys_remove` -/

/-- `is_same_dir (find_dir, cur->cwd)`, which follows `cwd` without a test. -/
def is_same_dir (s : filesys) (dir : ℕ) (cwd : Option ℕ) : Outcome Bool :=
  match cwd with
  | none => .panic
  | some c => do
      let ino ← s.get_inode dir
      let cwd_ino ← s.get_inode c
      return ino.sector = cwd_ino.sector

/-- `is_good_inode (find) && is_dir (find)`. -/
def is_good_dir (s : filesys) (i : ℕ) : Bool :=
  match s.inode i with
  | some ino => ino.data.magic = INODE_MAGIC && ino.data.isdir
  | none => false

/-- From `dir_open (find)` on. -/
def remove_found (s : filesys) (cwd : Option ℕ) (cur_dir find : ℕ) (name : c_string) :
    Outcome (Bool × filesys) := do
  let same ← is_same_dir s find cwd
  let s ← inode_close s find
  if same then
    let s ← inode_close s cur_dir
    return (false, s)
  else
    let (success, s) ← dir_remove s cur_dir name
    let s ← inode_close s cur_dir
    return (if is_good_dir s find then false else success, s)

/-- The last component. -/
def remove_at (s : filesys) (cwd cur_dir : Option ℕ) (name : c_string) : Outcome (Bool × filesys) :=
  match cur_dir with
  | none => .ok (false, s)
  | some dir => do
      let (find, s) ← dir_lookup s dir name
      match find with
      | none => .ok (false, s)
      | some i => remove_found s cwd dir i name

/-- `filesys_remove`. -/
def filesys_remove (s : filesys) (cwd : Option ℕ) (name : c_string) : Outcome (Bool × filesys) := do
  let path_lst ← parse_path name
  match path_lst.getLast? with
  | none => .ok (false, s)
  | some last => do
      let (cur_dir, s) ← start_dir s cwd (is_root_path name)
      let (cur_dir, s) ← dir_walk path_lst.dropLast s cur_dir
      remove_at s cwd cur_dir last

/-! ## `sys_mkdir` -/

/-- `.` and `..`. -/
def DOT : c_string := [46]
def DOTDOT : c_string := [46, 46]

/-- The three entries of a new directory. -/
def mkdir_entries (s : filesys) (cur_dir new_dir : ℕ) (name : c_string) (sector : ℕ) :
    Outcome (Bool × filesys) := do
  let (done, s) ← dir_add s cur_dir name sector
  if done then
    let (done, s) ← dir_add s new_dir DOT sector
    if done then
      let ino ← s.get_inode cur_dir
      dir_add s new_dir DOTDOT ino.sector
    else return (false, s)
  else return (false, s)

/-- What `sys_mkdir` does in the directory the walk ended in. On the way to `fail`
from before `new_dir` has a value, that value is tested all the same. -/
def mkdir_at (s : filesys) (cur_dir : Option ℕ) (name : c_string) : Outcome (Bool × filesys) :=
  match cur_dir with
  | none => .undefined
  | some dir => do
      let (clst, fs) ← fat_create_chain s.fat 0
      let sector := cluster_to_sector fs clst
      let (created, s) ← dir_create (s.set_fat fs) sector 16
      if created then
        let (new_dir, s) ← inode_open s sector
        let (done, s) ← mkdir_entries s dir new_dir name sector
        let s ← inode_close s new_dir
        let s ← inode_close s dir
        return (done, s)
      else .undefined

/-- `sys_mkdir`. -/
def sys_mkdir (s : filesys) (cwd : Option ℕ) (dir : c_string) : Outcome (Bool × filesys) := do
  let path_lst ← parse_path dir
  match path_lst.getLast? with
  | none => .ok (false, s)
  | some last => do
      let (cur_dir, s) ← start_dir s cwd (is_root_path dir)
      let (cur_dir, s) ← dir_walk path_lst.dropLast s cur_dir
      mkdir_at s cur_dir last

/-! ## `sys_chdir` -/

/-- `dir_close` of a pointer that may be null. -/
def dir_close (s : filesys) (dir : Option ℕ) : Outcome filesys :=
  match dir with
  | none => .ok s
  | some i => inode_close s i

/-- The end of `sys_chdir`: the result, the new `cwd`. -/
def chdir_to (s : filesys) (cwd cur_dir : Option ℕ) : Outcome (Bool × Option ℕ × filesys) :=
  match cur_dir with
  | none => .ok (false, cwd, s)
  | some dir => do
      let ino ← s.get_inode dir
      if ino.removed then return (false, cwd, s)
      else
        let s ← dir_close s cwd
        return (true, some dir, s)

/-- `sys_chdir`. -/
def sys_chdir (s : filesys) (cwd : Option ℕ) (dir : c_string) :
    Outcome (Bool × Option ℕ × filesys) := do
  let path_lst ← parse_path dir
  if is_root_path dir ∧ path_lst = [] then
    let s ← dir_close s cwd
    let (root, s) ← dir_open_root s
    return (true, some root, s)
  else
    let (cur_dir, s) ← start_dir s cwd (is_root_path dir)
    let (cur_dir, s) ← dir_walk path_lst s cur_dir
    chdir_to s cwd cur_dir

end Pintos
