/-
`userprog/syscall.c`: file descriptors.

A slot of the descriptor table is a pointer that is null, one of two sentinels for
the standard streams, a `struct file`, or, behind the same type, a `struct dir`.
`sys_dup2` lets slots share a `struct file`; `dup_count` counts the slots, and the
close that brings it to zero closes the file. The two sentinels are counted in the
thread.

The table has `MAX_FD` slots. `find_unused_fd` reads a slot before it compares the
index, so a full table makes it read behind the end. A `struct dir` is two words
long and has no `dup_count`; counting on one is undefined.
-/
import Pintos.Filesys.Balance
import Pintos.Filesys.FileHandles

set_option autoImplicit false

namespace Pintos

/-! ## The table -/

/-- `MAX_FD`: three pages of pointers. -/
def MAX_FD : ℕ := 3 * 2 ^ 9

/-- What a slot of `fd_table` holds. -/
inductive fd_slot
  | null
  | stdin
  | stdout
  | file (f : ℕ)
  | dir (inode : ℕ)
  deriving DecidableEq, Repr

/-- A process as its descriptor calls see it: its part of `struct thread`, and the
file system. -/
structure fd_process where
  fs : filesys
  cwd : Option ℕ
  fd_table : ℕ → fd_slot
  fd_idx : ℕ
  stdin_count : ℤ
  stdout_count : ℤ

namespace fd_process

/-- `fd_table[fd] = v`. -/
@[simps] def set_slot (x : fd_process) (fd : ℕ) (v : fd_slot) : fd_process :=
  { x with fd_table := Function.update x.fd_table fd v }

/-- The process with another file system. -/
@[simps] def set_fs (x : fd_process) (s : filesys) : fd_process := { x with fs := s }

end fd_process

/-- The descriptors `process_init` sets up. -/
def process_init_fds (s : filesys) (cwd : Option ℕ) : fd_process where
  fs := s
  cwd := cwd
  fd_table fd := if fd = 0 then .stdin else if fd = 1 then .stdout else .null
  fd_idx := 2
  stdin_count := 1
  stdout_count := 1

/-- The loop of `find_unused_fd`. -/
def find_unused_fd_loop (fd_table : ℕ → fd_slot) : ℕ → ℕ → Outcome ℕ
  | 0, _ => .diverge
  | fuel + 1, fd_idx =>
      if MAX_FD ≤ fd_idx then .undefined
      else if fd_table fd_idx = .null then .ok fd_idx
      else find_unused_fd_loop fd_table fuel (fd_idx + 1)

/-- `find_unused_fd`: the descriptor, and the table with the slot taken. -/
def find_unused_fd (x : fd_process) (v : fd_slot) : Outcome (ℤ × fd_process) := do
  let fd ← find_unused_fd_loop x.fd_table (MAX_FD + 1) x.fd_idx
  return ((fd : ℤ), { x.set_slot fd v with fd_idx := fd })

/-- `sys_open` behind `filesys_open`. A directory is not kept as a file: the
`struct file` is freed, and a `struct dir` on its inode takes its place. -/
def open_slot (x : fd_process) (r : opened) : Outcome (ℤ × fd_process) :=
  match r with
  | .null => .ok (-1, x)
  | .file f => do
      let fl ← x.fs.get_file f
      let ino ← x.fs.get_inode fl.inode
      if ino.data.isdir then find_unused_fd (x.set_fs (x.fs.free_file f)) (.dir fl.inode)
      else find_unused_fd x (.file f)
  | .root_dir dir => do
      let ino ← x.fs.get_inode dir
      if ino.data.isdir then find_unused_fd x (.dir dir) else .undefined

/-- `sys_open`. -/
def sys_open (x : fd_process) (file : c_string) : Outcome (ℤ × fd_process) := do
  if file = [] then return (-1, x)
  else
    let (r, s) ← filesys_open x.fs x.cwd file
    open_slot (x.set_fs s) r

/-- `decrease_dup_count`, `check_dup_count` and `file_close` in `sys_close`. -/
def drop_file (s : filesys) (f : ℕ) : Outcome filesys := do
  let fl ← s.get_file f
  let s := s.set_file f { fl with dup_count := fl.dup_count - 1 }
  if fl.dup_count - 1 = 0 then file_close s f else return s

/-- `sys_close`. -/
def sys_close (x : fd_process) (fd : ℤ) : Outcome fd_process :=
  if fd < 0 ∨ MAX_FD ≤ fd then .ok x
  else
    match x.fd_table fd.toNat with
    | .null => .ok (x.set_slot fd.toNat .null)
    | .stdin => .ok { x.set_slot fd.toNat .null with stdin_count := x.stdin_count - 1 }
    | .stdout => .ok { x.set_slot fd.toNat .null with stdout_count := x.stdout_count - 1 }
    | .file f => do
        let s ← drop_file x.fs f
        return (x.set_fs s).set_slot fd.toNat .null
    | .dir _ => .undefined

/-- The counter of what `oldfd` holds goes up. -/
def dup_count_up (x : fd_process) (v : fd_slot) : Outcome fd_process :=
  match v with
  | .stdin => .ok { x with stdin_count := x.stdin_count + 1 }
  | .stdout => .ok { x with stdout_count := x.stdout_count + 1 }
  | .file f => do
      let fl ← x.fs.get_file f
      return x.set_fs (x.fs.set_file f { fl with dup_count := fl.dup_count + 1 })
  | _ => .undefined

/-- `sys_dup2` from the counting on. `newfd` is not checked. -/
def dup_slot (x : fd_process) (oldfd : ℕ) (newfd : ℤ) : Outcome (ℤ × fd_process) := do
  let x ← dup_count_up x (x.fd_table oldfd)
  if newfd < 0 ∨ MAX_FD ≤ newfd then .undefined
  else
    let x ← if x.fd_table newfd.toNat ≠ .null then sys_close x newfd else .ok x
    return (newfd, x.set_slot newfd.toNat (x.fd_table oldfd))

/-- `sys_dup2`. -/
def sys_dup2 (x : fd_process) (oldfd newfd : ℤ) : Outcome (ℤ × fd_process) :=
  if oldfd < 0 ∨ MAX_FD ≤ oldfd then .ok (-1, x)
  else if x.fd_table oldfd.toNat = .null then .ok (-1, x)
  else if oldfd = newfd then .ok (newfd, x)
  else dup_slot x oldfd.toNat newfd

/-! ## Runs -/

/-- The three calls. -/
inductive fd_call
  | open (file : c_string)
  | close (fd : ℤ)
  | dup2 (oldfd newfd : ℤ)
  deriving DecidableEq, Repr

/-- One call. -/
def fd_step (x : fd_process) : fd_call → Outcome fd_process
  | .open file => do
      let (_, x) ← sys_open x file
      return x
  | .close fd => sys_close x fd
  | .dup2 oldfd newfd => do
      let (_, x) ← sys_dup2 x oldfd newfd
      return x

/-- A sequence of calls. -/
def fd_run : List fd_call → fd_process → Outcome fd_process
  | [], x => .ok x
  | c :: cs, x => do
      let x ← fd_step x c
      fd_run cs x

/-! ## The invariant -/

/-- The number of slots that hold `v`. -/
def fd_process.slots (x : fd_process) (v : fd_slot) : ℕ := occurrences MAX_FD x.fd_table v

/-- Every counter is the number of slots with what it counts. -/
structure fd_process.TableWf (x : fd_process) : Prop where
  open_wf : x.fs.OpenWf
  fresh : ∀ {f fl}, x.fs.file f = some fl → f < x.fs.next_file
  no_dir : ∀ fd < MAX_FD, ∀ i, x.fd_table fd ≠ .dir i
  file : ∀ {fd f}, fd < MAX_FD → x.fd_table fd = .file f →
    ∃ fl, x.fs.file f = some fl ∧ fl.dup_count = x.slots (.file f)
  stdin : x.stdin_count = x.slots .stdin
  stdout : x.stdout_count = x.slots .stdout

/-- The same with counters ahead of the table: `p v` slots with `v` are still to be
filled. This is the state of `sys_dup2` between counting and storing. -/
structure fd_process.Ahead (x : fd_process) (p : fd_slot → ℕ) : Prop where
  open_wf : x.fs.OpenWf
  fresh : ∀ {f fl}, x.fs.file f = some fl → f < x.fs.next_file
  no_dir : ∀ fd < MAX_FD, ∀ i, x.fd_table fd ≠ .dir i
  file : ∀ {f}, 0 < x.slots (.file f) + p (.file f) →
    ∃ fl, x.fs.file f = some fl ∧ fl.dup_count = ((x.slots (.file f) + p (.file f) : ℕ) : ℤ)
  stdin : x.stdin_count = ((x.slots .stdin + p .stdin : ℕ) : ℤ)
  stdout : x.stdout_count = ((x.slots .stdout + p .stdout : ℕ) : ℤ)

namespace fd_process

variable {x x' : fd_process}

theorem ahead_zero : x.Ahead (fun _ => 0) ↔ x.TableWf := by
  constructor
  · intro h
    refine ⟨h.open_wf, h.fresh, h.no_dir, fun {fd f} hfd hf => ?_,
      by simpa only [Nat.add_zero] using h.stdin, by simpa only [Nat.add_zero] using h.stdout⟩
    have hpos : 0 < x.slots (.file f) := occurrences_pos.mpr ⟨fd, hfd, hf⟩
    simpa only [Nat.add_zero] using h.file (by simpa only [Nat.add_zero] using hpos)
  · intro h
    refine ⟨h.open_wf, h.fresh, h.no_dir, fun {f} hpos => ?_,
      by simpa only [Nat.add_zero] using h.stdin, by simpa only [Nat.add_zero] using h.stdout⟩
    have hpos' : 0 < x.slots (.file f) := by simpa only [Nat.add_zero] using hpos
    obtain ⟨fd, hfd, hf⟩ := occurrences_pos.mp hpos'
    simpa only [Nat.add_zero] using h.file hfd hf

/-- Slot `fd` gets `w`. -/
theorem slots_set_slot {fd : ℕ} (hfd : fd < MAX_FD) (w v : fd_slot) :
    (x.set_slot fd w).slots v + (if x.fd_table fd = v then 1 else 0)
      = x.slots v + if w = v then 1 else 0 :=
  occurrences_update hfd x.fd_table v w

end fd_process

/-! ## Closing a file -/

section CloseFile

variable {s s' : filesys} {f : ℕ} {fl : file}

/-- **One slot less** for a file: the counter goes down, and the file goes with the
last slot. -/
theorem drop_file_cases (hwf : s.OpenWf) (hf : s.file f = some fl) (h : drop_file s f = .ok s') :
    (fl.dup_count = 1 ∧ FileGone s f s')
    ∨ (fl.dup_count ≠ 1 ∧ s' = s.set_file f { fl with dup_count := fl.dup_count - 1 }) := by
  obtain ⟨fl', hf', h⟩ := Outcome.bind_eq_ok.mp h
  rw [filesys.get_file_eq_ok, hf] at hf'
  obtain rfl := Option.some.inj hf'
  by_cases hlast : fl.dup_count - 1 = 0
  · left
    simp only [if_pos hlast] at h
    have hset : (s.set_file f { fl with dup_count := fl.dup_count - 1 }).OpenWf :=
      hwf.congr rfl rfl rfl
    obtain ⟨hwf', hnext, hothers, hgone⟩ := file_close_gone hset (Function.update_self _ _ _) h
    refine ⟨by omega, hwf', hnext, fun g hg => ?_, hgone⟩
    rw [hothers g hg, filesys.set_file_file, Function.update_of_ne hg]
  · right
    simp only [if_neg hlast] at h
    exact ⟨by omega, (Outcome.ok.inj h).symm⟩

end CloseFile

/-! ## The calls -/

namespace fd_process

variable {x x' : fd_process} {p : fd_slot → ℕ} {fd : ℕ}

/-- A counter keeps up when a slot that held nothing counted gets nothing counted. -/
theorem slots_set_slot_of_ne (hfd : fd < MAX_FD) {w v : fd_slot} (hold : x.fd_table fd ≠ v)
    (hnew : w ≠ v) : (x.set_slot fd w).slots v = x.slots v := by
  have := slots_set_slot (x := x) hfd w v
  rw [if_neg hold, if_neg hnew] at this
  omega

/-- The slot that held `v` is cleared. -/
theorem slots_clear (hfd : fd < MAX_FD) {v : fd_slot} (hold : x.fd_table fd = v) (hv : v ≠ .null) :
    (x.set_slot fd .null).slots v + 1 = x.slots v := by
  have := slots_set_slot (x := x) hfd .null v
  rw [if_pos hold, if_neg (Ne.symm hv)] at this
  omega

/-- An empty slot gets `v`. -/
theorem slots_fill (hfd : fd < MAX_FD) {v : fd_slot} (hold : x.fd_table fd = .null)
    (hv : v ≠ .null) : (x.set_slot fd v).slots v = x.slots v + 1 := by
  have := slots_set_slot (x := x) hfd v v
  rw [if_neg (fun h => hv (h.symm.trans hold)), if_pos rfl] at this
  omega

theorem set_slot_no_dir (h : ∀ fd < MAX_FD, ∀ i, x.fd_table fd ≠ .dir i) {v : fd_slot}
    (hv : ∀ i, v ≠ .dir i) : ∀ k < MAX_FD, ∀ i, (x.set_slot fd v).fd_table k ≠ .dir i := by
  intro k hk i
  rw [set_slot_fd_table]
  by_cases hkf : k = fd
  · rw [hkf, Function.update_self]
    exact hv i
  · rw [Function.update_of_ne hkf]
    exact h k hk i

/-- What closing a slot does: the counters follow, a file goes when its last slot
does, and a file that is in no slot is left alone. -/
structure Follows (x : fd_process) (p : fd_slot → ℕ) (x' : fd_process) : Prop where
  ahead : x'.Ahead p
  freed : ∀ f, 0 < x.slots (.file f) + p (.file f) → x'.slots (.file f) + p (.file f) = 0 →
    x'.fs.file f = none
  other : ∀ f fl, x.fs.file f = some fl → x.slots (.file f) + p (.file f) = 0 →
    x'.fs.file f = some fl

/-- Nothing that is counted changes. -/
theorem Ahead.follows_of_slots (h : x.Ahead p) (hfs : x'.fs = x.fs)
    (hno : ∀ fd < MAX_FD, ∀ i, x'.fd_table fd ≠ .dir i)
    (hfile : ∀ f, x'.slots (.file f) = x.slots (.file f))
    (hin : x'.stdin_count = ((x'.slots .stdin + p .stdin : ℕ) : ℤ))
    (hout : x'.stdout_count = ((x'.slots .stdout + p .stdout : ℕ) : ℤ)) : x.Follows p x' := by
  refine ⟨⟨?_, ?_, hno, ?_, hin, hout⟩, ?_, ?_⟩
  · rw [hfs]
    exact h.open_wf
  · rw [hfs]
    exact h.fresh
  · intro f hpos
    rw [hfs, hfile] at *
    exact h.file hpos
  · intro f hpos hzero
    rw [hfile] at hzero
    omega
  · intro f fl hf _
    rw [hfs]
    exact hf

section Drop

variable {f : ℕ} {s : filesys}

theorem slots_drop (hfd : fd < MAX_FD) (hslot : x.fd_table fd = .file f) :
    ((x.set_fs s).set_slot fd .null).slots (.file f) + 1 = x.slots (.file f)
    ∧ ∀ v, v ≠ .null → v ≠ .file f → ((x.set_fs s).set_slot fd .null).slots v = x.slots v := by
  refine ⟨slots_clear (x := x) hfd hslot (by simp), fun v hv hv' => ?_⟩
  exact slots_set_slot_of_ne (x := x) hfd (by rw [hslot]; exact Ne.symm hv') (Ne.symm hv)

/-- The last slot of a file is cleared, and the file is closed. -/
theorem Ahead.drop_last (h : x.Ahead p) (hfd : fd < MAX_FD) (hslot : x.fd_table fd = .file f)
    (hone : x.slots (.file f) + p (.file f) = 1) (hgone : FileGone x.fs f s) :
    x.Follows p ((x.set_fs s).set_slot fd .null) := by
  obtain ⟨hself, hstd⟩ := slots_drop (s := s) hfd hslot
  have hfile : ∀ g, g ≠ f →
      ((x.set_fs s).set_slot fd .null).slots (.file g) = x.slots (.file g) := fun g hg =>
    hstd (.file g) (by simp) (by simpa using hg)
  have hzero : ((x.set_fs s).set_slot fd .null).slots (.file f) + p (.file f) = 0 := by omega
  refine ⟨⟨hgone.wf, ?_, set_slot_no_dir (x := x) h.no_dir (by simp), ?_, ?_, ?_⟩, ?_, ?_⟩
  · intro g gl hg
    show g < s.next_file
    rw [hgone.next_file]
    have hgf : g ≠ f := by
      rintro rfl
      rw [show ((x.set_fs s).set_slot fd .null).fs.file g = s.file g from rfl, hgone.gone] at hg
      cases hg
    exact h.fresh ((hgone.others g hgf).symm.trans hg)
  · intro g hpos
    have hgf : g ≠ f := by
      rintro rfl
      omega
    rw [hfile g hgf] at hpos ⊢
    obtain ⟨gl, hg, hcount⟩ := h.file hpos
    exact ⟨gl, (hgone.others g hgf).trans hg, hcount⟩
  · rw [hstd _ (by simp) (by simp)]
    exact h.stdin
  · rw [hstd _ (by simp) (by simp)]
    exact h.stdout
  · intro g hpos hz
    by_cases hgf : g = f
    · rw [hgf]
      exact hgone.gone
    · rw [hfile g hgf] at hz
      omega
  · intro g gl hg hz
    have hgf : g ≠ f := by
      rintro rfl
      omega
    exact (hgone.others g hgf).trans hg

/-- A slot of a file that has others is cleared. -/
theorem Ahead.drop_shared (h : x.Ahead p) (hfd : fd < MAX_FD) (hslot : x.fd_table fd = .file f)
    {fl : Pintos.file} (hf : x.fs.file f = some fl) (hmore : x.slots (.file f) + p (.file f) ≠ 1) :
    x.Follows p ((x.set_fs (x.fs.set_file f { fl with dup_count := fl.dup_count - 1 })).set_slot
      fd .null) := by
  obtain ⟨hself, hstd⟩ :=
    slots_drop (s := x.fs.set_file f { fl with dup_count := fl.dup_count - 1 }) hfd hslot
  have hfile : ∀ g, g ≠ f →
      ((x.set_fs (x.fs.set_file f { fl with dup_count := fl.dup_count - 1 })).set_slot
        fd .null).slots (.file g) = x.slots (.file g) := fun g hg =>
    hstd (.file g) (by simp) (by simpa using hg)
  have hupdate : ∀ g, g ≠ f →
      (x.fs.set_file f { fl with dup_count := fl.dup_count - 1 }).file g = x.fs.file g :=
    fun g hg => Function.update_of_ne hg _ _
  have hmine : (x.fs.set_file f { fl with dup_count := fl.dup_count - 1 }).file f
      = some { fl with dup_count := fl.dup_count - 1 } := Function.update_self _ _ _
  refine ⟨⟨h.open_wf.congr rfl rfl rfl, ?_,
    set_slot_no_dir (x := x) h.no_dir (by simp), ?_, ?_, ?_⟩, ?_, ?_⟩
  · intro g gl hg
    show g < x.fs.next_file
    by_cases hgf : g = f
    · rw [hgf]
      exact h.fresh hf
    · exact h.fresh ((hupdate g hgf).symm.trans hg)
  · intro g hpos
    by_cases hgf : g = f
    · subst hgf
      obtain ⟨fl', hf', hcount⟩ := h.file (by omega : 0 < x.slots (.file g) + p (.file g))
      rw [hf] at hf'
      obtain rfl := Option.some.inj hf'
      refine ⟨_, hmine, ?_⟩
      show fl.dup_count - 1 = _
      omega
    · rw [hfile g hgf] at hpos ⊢
      obtain ⟨gl, hg, hcount⟩ := h.file hpos
      exact ⟨gl, (hupdate g hgf).trans hg, hcount⟩
  · rw [hstd _ (by simp) (by simp)]
    exact h.stdin
  · rw [hstd _ (by simp) (by simp)]
    exact h.stdout
  · intro g hpos hz
    by_cases hgf : g = f
    · subst hgf
      omega
    · rw [hfile g hgf] at hz
      omega
  · intro g gl hg hz
    have hgf : g ≠ f := by
      rintro rfl
      omega
    exact (hupdate g hgf).trans hg

end Drop

end fd_process

section Close

variable {x x' : fd_process} {p : fd_slot → ℕ}

open fd_process in
/-- **`sys_close`**, also in the middle of `sys_dup2`. -/
theorem sys_close_follows (h : x.Ahead p) {fd : ℕ} (hfd : fd < MAX_FD)
    (hrun : sys_close x fd = .ok x') :
    x.Follows p x' ∧ x'.fd_table = Function.update x.fd_table fd .null := by
  have hin : ¬ ((fd : ℤ) < 0 ∨ (MAX_FD : ℤ) ≤ fd) := by omega
  unfold sys_close at hrun
  rw [if_neg hin, Int.toNat_natCast] at hrun
  have hno : ∀ k < MAX_FD, ∀ i, (x.set_slot fd .null).fd_table k ≠ .dir i :=
    set_slot_no_dir h.no_dir (by simp)
  cases hslot : x.fd_table fd with
  | null =>
      rw [hslot] at hrun
      obtain rfl := Outcome.ok.inj hrun
      have hsame : ∀ v, v ≠ .null → (x.set_slot fd .null).slots v = x.slots v := fun v hv =>
        slots_set_slot_of_ne hfd (by rw [hslot]; exact Ne.symm hv) (Ne.symm hv)
      refine ⟨h.follows_of_slots rfl hno (fun f => hsame _ (by simp)) ?_ ?_, rfl⟩
      · rw [hsame _ (by simp)]
        exact h.stdin
      · rw [hsame _ (by simp)]
        exact h.stdout
  | stdin =>
      rw [hslot] at hrun
      obtain rfl := Outcome.ok.inj hrun
      have hsame : ∀ v, v ≠ .null → v ≠ .stdin → (x.set_slot fd .null).slots v = x.slots v :=
        fun v hv hv' => slots_set_slot_of_ne hfd (by rw [hslot]; exact Ne.symm hv') (Ne.symm hv)
      have hless := slots_clear hfd hslot (by simp)
      refine ⟨h.follows_of_slots rfl hno (fun f => hsame _ (by simp) (by simp)) ?_ ?_, rfl⟩
      · have hold := h.stdin
        show x.stdin_count - 1 = (((x.set_slot fd .null).slots .stdin + p .stdin : ℕ) : ℤ)
        omega
      · have hkeep := hsame .stdout (by simp) (by simp)
        have hold := h.stdout
        show x.stdout_count = (((x.set_slot fd .null).slots .stdout + p .stdout : ℕ) : ℤ)
        omega
  | stdout =>
      rw [hslot] at hrun
      obtain rfl := Outcome.ok.inj hrun
      have hsame : ∀ v, v ≠ .null → v ≠ .stdout → (x.set_slot fd .null).slots v = x.slots v :=
        fun v hv hv' => slots_set_slot_of_ne hfd (by rw [hslot]; exact Ne.symm hv') (Ne.symm hv)
      have hless := slots_clear hfd hslot (by simp)
      refine ⟨h.follows_of_slots rfl hno (fun f => hsame _ (by simp) (by simp)) ?_ ?_, rfl⟩
      · have hkeep := hsame .stdin (by simp) (by simp)
        have hold := h.stdin
        show x.stdin_count = (((x.set_slot fd .null).slots .stdin + p .stdin : ℕ) : ℤ)
        omega
      · have hold := h.stdout
        show x.stdout_count - 1 = (((x.set_slot fd .null).slots .stdout + p .stdout : ℕ) : ℤ)
        omega
  | dir i => exact absurd hslot (h.no_dir fd hfd i)
  | file f =>
      rw [hslot] at hrun
      obtain ⟨s, hdrop, hret⟩ := Outcome.bind_eq_ok.mp hrun
      obtain rfl := Outcome.ok.inj hret
      have hpos : 0 < x.slots (.file f) := occurrences_pos.mpr ⟨fd, hfd, hslot⟩
      obtain ⟨fl, hf, hcount⟩ := h.file (by omega : 0 < x.slots (.file f) + p (.file f))
      refine ⟨?_, rfl⟩
      rcases drop_file_cases h.open_wf hf hdrop with ⟨hone, hgone⟩ | ⟨hmore, rfl⟩
      · exact h.drop_last hfd hslot (by omega) hgone
      · exact h.drop_shared hfd hslot hf (by omega)

end Close

section Dup

variable {x x' : fd_process} {v : fd_slot}

open fd_process in
/-- The counter of `v` goes ahead of the table. -/
theorem dup_count_up_ahead (h : x.TableWf) {fd : ℕ} (hfd : fd < MAX_FD) (hslot : x.fd_table fd = v)
    (hrun : dup_count_up x v = .ok x') :
    x'.Ahead (fun w => if w = v then 1 else 0) ∧ x'.fd_table = x.fd_table ∧ v ≠ .null
      ∧ (∀ i, v ≠ .dir i) ∧ ∀ f, v ≠ .file f → x'.fs.file f = x.fs.file f := by
  have h₀ := ahead_zero.mpr h
  cases v with
  | null => cases hrun
  | dir i => cases hrun
  | stdin =>
      obtain rfl := Outcome.ok.inj hrun
      refine ⟨⟨h.open_wf, h.fresh, h.no_dir, fun {f} hpos => ?_, ?_, ?_⟩, rfl, by simp, by simp,
        fun _ _ => rfl⟩
      · change 0 < x.slots (.file f) + 0 at hpos
        exact h₀.file hpos
      · have := h.stdin
        show x.stdin_count + 1 = ((x.slots .stdin + 1 : ℕ) : ℤ)
        omega
      · have := h.stdout
        show x.stdout_count = ((x.slots .stdout + 0 : ℕ) : ℤ)
        omega
  | stdout =>
      obtain rfl := Outcome.ok.inj hrun
      refine ⟨⟨h.open_wf, h.fresh, h.no_dir, fun {f} hpos => ?_, ?_, ?_⟩, rfl, by simp, by simp,
        fun _ _ => rfl⟩
      · change 0 < x.slots (.file f) + 0 at hpos
        exact h₀.file hpos
      · have := h.stdin
        show x.stdin_count = ((x.slots .stdin + 0 : ℕ) : ℤ)
        omega
      · have := h.stdout
        show x.stdout_count + 1 = ((x.slots .stdout + 1 : ℕ) : ℤ)
        omega
  | file f =>
      obtain ⟨fl, hf, hret⟩ := Outcome.bind_eq_ok.mp hrun
      obtain rfl := Outcome.ok.inj hret
      rw [filesys.get_file_eq_ok] at hf
      have hupdate : ∀ g, g ≠ f →
          (x.fs.set_file f { fl with dup_count := fl.dup_count + 1 }).file g = x.fs.file g :=
        fun g hg => Function.update_of_ne hg _ _
      refine ⟨⟨h.open_wf.congr rfl rfl rfl, fun {g gl} hg => ?_, h.no_dir,
        fun {g} hpos => ?_, ?_, ?_⟩,
        rfl, by simp, by simp, fun g hg => hupdate g fun heq => hg (by rw [heq])⟩
      · show g < x.fs.next_file
        by_cases hgf : g = f
        · rw [hgf]
          exact h.fresh hf
        · exact h.fresh ((hupdate g hgf).symm.trans hg)
      · by_cases hgf : g = f
        · subst hgf
          obtain ⟨fl', hf', hcount⟩ := h.file hfd hslot
          rw [hf] at hf'
          obtain rfl := Option.some.inj hf'
          refine ⟨_, Function.update_self _ _ _, ?_⟩
          show fl.dup_count + 1
            = ((x.slots (.file g) + if fd_slot.file g = .file g then 1 else 0 : ℕ) : ℤ)
          rw [if_pos rfl]
          omega
        · have hne : fd_slot.file g ≠ .file f := by simpa using hgf
          have hslots : (x.set_fs (x.fs.set_file f { fl with dup_count := fl.dup_count + 1 })).slots
              (.file g) = x.slots (.file g) := rfl
          rw [hslots, if_neg hne] at hpos
          obtain ⟨gl, hg, hcount⟩ := h₀.file hpos
          refine ⟨gl, (hupdate g hgf).trans hg, ?_⟩
          rw [hslots, if_neg hne]
          exact hcount
      · have := h.stdin
        show x.stdin_count = ((x.slots .stdin + 0 : ℕ) : ℤ)
        omega
      · have := h.stdout
        show x.stdout_count = ((x.slots .stdout + 0 : ℕ) : ℤ)
        omega

end Dup

namespace fd_process

variable {x x' : fd_process} {v : fd_slot}

/-- The table catches up with the counter of `v`. -/
theorem Ahead.fill (h : x.Ahead fun w => if w = v then 1 else 0) {fd : ℕ} (hfd : fd < MAX_FD)
    (hslot : x.fd_table fd = .null) (hv : v ≠ .null) (hdir : ∀ i, v ≠ .dir i) :
    (x.set_slot fd v).TableWf := by
  have hslots : ∀ w, w ≠ .null →
      (x.set_slot fd v).slots w = x.slots w + if w = v then 1 else 0 := by
    intro w hw
    by_cases hwv : w = v
    · subst hwv
      rw [if_pos rfl, slots_fill hfd hslot hw]
    · rw [if_neg hwv, add_zero]
      exact slots_set_slot_of_ne hfd (by rw [hslot]; exact Ne.symm hw) (Ne.symm hwv)
  refine ⟨h.open_wf, h.fresh, set_slot_no_dir h.no_dir hdir, fun {k f} hk hf => ?_, ?_, ?_⟩
  · have hpos : 0 < (x.set_slot fd v).slots (.file f) := occurrences_pos.mpr ⟨k, hk, hf⟩
    rw [hslots _ (by simp)] at hpos ⊢
    exact h.file hpos
  · rw [hslots _ (by simp)]
    exact h.stdin
  · rw [hslots _ (by simp)]
    exact h.stdout

/-- A file that was in the table is closed if and only if it has left it, and no
other file is. -/
structure ClosesLast (x x' : fd_process) : Prop where
  last : ∀ f, 0 < x.slots (.file f) → (x'.fs.file f = none ↔ x'.slots (.file f) = 0)
  other : ∀ f fl, x.fs.file f = some fl → x.slots (.file f) = 0 → x'.fs.file f = some fl

/-- Where the invariant holds, only one direction is left to show. -/
theorem TableWf.closesLast (h' : x'.TableWf)
    (hfreed : ∀ f, 0 < x.slots (.file f) → x'.slots (.file f) = 0 → x'.fs.file f = none)
    (hother : ∀ f fl, x.fs.file f = some fl → x.slots (.file f) = 0 → x'.fs.file f = some fl) :
    ClosesLast x x' := by
  refine ⟨fun f hpos => ⟨fun hnone => ?_, hfreed f hpos⟩, hother⟩
  by_contra hne
  obtain ⟨k, hk, hf⟩ := occurrences_pos.mp (Nat.pos_of_ne_zero hne)
  obtain ⟨fl, hfl, -⟩ := h'.file hk hf
  rw [hnone] at hfl
  cases hfl

theorem ClosesLast.refl (h : x.TableWf) : ClosesLast x x :=
  h.closesLast (fun f hpos hzero => by omega) fun _ _ hf _ => hf

end fd_process

section Steps

variable {x x' : fd_process}

open fd_process

/-- **`sys_close`** keeps the invariant. -/
theorem sys_close_tableWf (h : x.TableWf) {fd : ℤ} (hrun : sys_close x fd = .ok x') :
    x'.TableWf ∧ ClosesLast x x' := by
  by_cases hin : fd < 0 ∨ (MAX_FD : ℤ) ≤ fd
  · unfold sys_close at hrun
    rw [if_pos hin] at hrun
    obtain rfl := Outcome.ok.inj hrun
    exact ⟨h, .refl h⟩
  · obtain ⟨k, rfl⟩ : ∃ k : ℕ, fd = k := ⟨fd.toNat, by omega⟩
    obtain ⟨hfollows, -⟩ := sys_close_follows (ahead_zero.mpr h) (by omega) hrun
    have h' := ahead_zero.mp hfollows.ahead
    refine ⟨h', h'.closesLast (fun f hpos hzero => ?_) fun f fl hf hzero => ?_⟩
    · exact hfollows.freed f (by simpa using hpos) (by simpa using hzero)
    · exact hfollows.other f fl hf (by simpa using hzero)

/-- **`sys_dup2`** keeps it: between counting and storing the counter of the old
descriptor is one ahead, and the close in the middle does not see the difference. -/
theorem dup_slot_tableWf (h : x.TableWf) {oldfd newfd : ℕ} (hold : oldfd < MAX_FD)
    (hne : oldfd ≠ newfd) {r : ℤ} (hrun : dup_slot x oldfd newfd = .ok (r, x')) :
    x'.TableWf ∧ ClosesLast x x' := by
  obtain ⟨x₁, hup, hrun⟩ := Outcome.bind_eq_ok.mp hrun
  obtain ⟨hahead, htable₁, hnull, hdir, hfiles⟩ := dup_count_up_ahead h hold rfl hup
  obtain ⟨v, hv⟩ : ∃ v, v = x.fd_table oldfd := ⟨_, rfl⟩
  rw [← hv] at hahead hnull hdir hfiles
  by_cases hin : (newfd : ℤ) < 0 ∨ (MAX_FD : ℤ) ≤ newfd
  · rw [if_pos hin] at hrun
    cases hrun
  · rw [if_neg hin, Int.toNat_natCast] at hrun
    have hnew : newfd < MAX_FD := by omega
    -- the state in which slot `newfd` is empty
    have hmid : ∃ x₂, x₁.Follows (fun w => if w = v then 1 else 0) x₂
        ∧ x₂.fd_table newfd = .null ∧ x₂.fd_table oldfd = v
        ∧ x' = x₂.set_slot newfd (x₂.fd_table oldfd) := by
      by_cases hempty : x₁.fd_table newfd ≠ .null
      · simp only [if_pos hempty] at hrun
        obtain ⟨x₂, hclose, hret⟩ := Outcome.bind_eq_ok.mp hrun
        obtain ⟨hfollows, htable⟩ := sys_close_follows hahead hnew hclose
        refine ⟨x₂, hfollows, ?_, ?_, ?_⟩
        · rw [htable, Function.update_self]
        · rw [htable, Function.update_of_ne hne, htable₁, hv]
        · cases Outcome.ok.inj hret
          rfl
      · simp only [if_neg hempty, Outcome.ok_bind] at hrun
        refine ⟨x₁, ?_, not_not.mp hempty, by rw [htable₁, hv], ?_⟩
        · exact hahead.follows_of_slots rfl hahead.no_dir (fun _ => rfl) hahead.stdin hahead.stdout
        · cases Outcome.ok.inj hrun
          rfl
    obtain ⟨x₂, hfollows, hslot₂, hold₂, rfl⟩ := hmid
    rw [hold₂]
    have h' := hfollows.ahead.fill hnew hslot₂ hnull hdir
    have hslots : ∀ f, (x₂.set_slot newfd v).slots (.file f)
        = x₂.slots (.file f) + if fd_slot.file f = v then 1 else 0 := by
      intro f
      have := slots_set_slot (x := x₂) hnew v (.file f)
      rw [hslot₂, if_neg (by simp)] at this
      simp only [eq_comm] at this ⊢
      omega
    refine ⟨h', h'.closesLast (fun f hpos hzero => ?_) fun f fl hf hzero => ?_⟩
    · rw [hslots] at hzero
      refine hfollows.freed f ?_ hzero
      have hsame : x₁.slots (.file f) = x.slots (.file f) := by
        unfold fd_process.slots
        rw [htable₁]
      omega
    · have hvf : v ≠ .file f := by
        rintro rfl
        exact occurrences_eq_zero.mp hzero oldfd hold hv.symm
      have hsame : x₁.slots (.file f) = x.slots (.file f) := by
        unfold fd_process.slots
        rw [htable₁]
      refine hfollows.other f fl ((hfiles f hvf).trans hf) ?_
      rw [hsame, hzero, if_neg (Ne.symm hvf)]

theorem sys_dup2_tableWf (h : x.TableWf) {oldfd newfd r : ℤ} (hnew : 0 ≤ newfd)
    (hrun : sys_dup2 x oldfd newfd = .ok (r, x')) : x'.TableWf ∧ ClosesLast x x' := by
  unfold sys_dup2 at hrun
  by_cases hin : oldfd < 0 ∨ (MAX_FD : ℤ) ≤ oldfd
  · rw [if_pos hin] at hrun
    cases Outcome.ok.inj hrun
    exact ⟨h, .refl h⟩
  · rw [if_neg hin] at hrun
    by_cases hnull : x.fd_table oldfd.toNat = .null
    · rw [if_pos hnull] at hrun
      cases Outcome.ok.inj hrun
      exact ⟨h, .refl h⟩
    · rw [if_neg hnull] at hrun
      by_cases hsame : oldfd = newfd
      · rw [if_pos hsame] at hrun
        cases Outcome.ok.inj hrun
        exact ⟨h, .refl h⟩
      · rw [if_neg hsame] at hrun
        obtain ⟨k, rfl⟩ : ∃ k : ℕ, newfd = k := ⟨newfd.toNat, by omega⟩
        exact dup_slot_tableWf h (by omega) (by omega) hrun

end Steps

/-! ## `sys_open` -/

/-- What `filesys_open` found is not a directory. -/
def opened.regular (s : filesys) : opened → Prop
  | .null => True
  | .file f => ∀ fl ino, s.file f = some fl → s.inode fl.inode = some ino → ino.data.isdir = false
  | .root_dir _ => False

section Open

variable {s s' : filesys} {x x' : fd_process} {cwd : Option ℕ} {name : c_string} {r : opened}

/-- `filesys_open` leaves the files that are there alone; the one it opens is new,
and in no slot yet. -/
theorem filesys_open_files (hwf : s.OpenWf) (hreg : r.regular s')
    (h : filesys_open s cwd name = .ok (r, s')) :
    s'.OpenWf ∧ ((r = .null ∧ s'.file = s.file ∧ s'.next_file = s.next_file)
      ∨ ∃ fl, r = .file s.next_file ∧ fl.dup_count = 1 ∧ s'.next_file = s.next_file + 1
        ∧ s'.file = Function.update s.file s.next_file (some fl)) := by
  by_cases hne : path_components name = []
  · exfalso
    unfold filesys_open at h
    split at h
    case isTrue => cases h
    case isFalse =>
      obtain ⟨path_lst, hparse, h⟩ := Outcome.bind_eq_ok.mp h
      obtain rfl := parse_path_eq_ok hparse
      rw [hne] at h
      change (if is_root_path name then _ else _) = _ at h
      split at h
      case isTrue =>
        obtain ⟨⟨dir, s₁⟩, -, h⟩ := Outcome.bind_eq_ok.mp h
        cases Outcome.ok.inj h
        exact hreg
      case isFalse => cases h
  · rcases filesys_open_walk hwf hne h with
      ⟨rfl, extra, -, hx⟩ | ⟨t, z, left, k, kno, s₁, hx, -, -, rfl, rfl⟩
    · exact ⟨hx.wf, .inl ⟨rfl, hx.file, hx.next_file⟩⟩
    · refine ⟨hx.wf.congr rfl rfl rfl, .inr
        ⟨{ inode := k, pos := 0, deny_write := false, dup_count := 1 }, by rw [hx.next_file], rfl, ?_, ?_⟩⟩
      · show s₁.next_file + 1 = s.next_file + 1
        rw [hx.next_file]
      · show Function.update s₁.file s₁.next_file _ = _
        rw [hx.file, hx.next_file]

theorem find_unused_fd_loop_null {t : ℕ → fd_slot} {fuel fd_idx fd : ℕ}
    (h : find_unused_fd_loop t fuel fd_idx = .ok fd) : fd < MAX_FD ∧ t fd = .null := by
  induction fuel generalizing fd_idx with
  | zero => cases h
  | succ fuel ih =>
      unfold find_unused_fd_loop at h
      split at h
      · cases h
      · rename_i hlt
        split at h
        · rename_i hnull
          obtain rfl := Outcome.ok.inj h
          exact ⟨by omega, hnull⟩
        · exact ih h

namespace fd_process

theorem TableWf.set_fd_idx (h : x.TableWf) (n : ℕ) : { x with fd_idx := n }.TableWf :=
  ⟨h.open_wf, h.fresh, h.no_dir, h.file, h.stdin, h.stdout⟩

/-- A file that is not allocated yet is in no slot. -/
theorem TableWf.slots_new (h : x.TableWf) : x.slots (.file x.fs.next_file) = 0 := by
  apply occurrences_eq_zero.mpr
  intro fd hfd hslot
  obtain ⟨fl, hf, -⟩ := h.file hfd hslot
  exact lt_irrefl _ (h.fresh hf)

/-- The new file is counted before it is stored. -/
theorem TableWf.ahead_new (h : x.TableWf) (hwf : s.OpenWf) {fl : Pintos.file}
    (hone : fl.dup_count = 1) (hnext : s.next_file = x.fs.next_file + 1)
    (hfile : s.file = Function.update x.fs.file x.fs.next_file (some fl)) :
    (x.set_fs s).Ahead fun w => if w = .file x.fs.next_file then 1 else 0 := by
  refine ⟨hwf, fun {f fl'} hf => ?_, h.no_dir, fun {f} hpos => ?_, ?_, ?_⟩
  · show f < s.next_file
    rw [hnext]
    by_cases hnew : f = x.fs.next_file
    · omega
    · have hold : x.fs.file f = some fl' := by
        rw [← Function.update_of_ne hnew (some fl) x.fs.file, ← hfile]
        exact hf
      have := h.fresh hold
      omega
  · show ∃ fl, s.file f = some fl ∧ _
    rw [hfile]
    by_cases hnew : f = x.fs.next_file
    · subst hnew
      refine ⟨fl, Function.update_self _ _ _, ?_⟩
      rw [if_pos rfl, hone]
      show (1 : ℤ) = ((x.slots (.file x.fs.next_file) + 1 : ℕ) : ℤ)
      rw [h.slots_new]
      rfl
    · have hne : fd_slot.file f ≠ .file x.fs.next_file := by simpa using hnew
      rw [if_neg hne] at hpos ⊢
      rw [Function.update_of_ne hnew]
      exact (ahead_zero.mpr h).file hpos
  · rw [if_neg (by simp)]
    exact (ahead_zero.mpr h).stdin
  · rw [if_neg (by simp)]
    exact (ahead_zero.mpr h).stdout

end fd_process

open fd_process

/-- **`sys_open`** of what is not a directory keeps the invariant, and closes nothing. -/
theorem sys_open_tableWf (h : x.TableWf) {fd : ℤ}
    (hreg : ∀ r s, filesys_open x.fs x.cwd name = .ok (r, s) → r.regular s)
    (hrun : sys_open x name = .ok (fd, x')) : x'.TableWf ∧ ClosesLast x x' := by
  unfold sys_open at hrun
  split at hrun
  case isTrue =>
    cases Outcome.ok.inj hrun
    exact ⟨h, .refl h⟩
  case isFalse =>
    obtain ⟨⟨r, s⟩, hopen, hrun⟩ := Outcome.bind_eq_ok.mp hrun
    have hregular := hreg r s hopen
    obtain ⟨hwf, ⟨rfl, hfile, hnext⟩ | ⟨fl, rfl, hone, hnext, hfile⟩⟩ :=
      filesys_open_files h.open_wf hregular hopen
    · cases Outcome.ok.inj hrun
      have h' : (x.set_fs s).TableWf := by
        refine ⟨hwf, fun {f fl} hf => ?_, h.no_dir, fun {k f} hk hslot => ?_, h.stdin, h.stdout⟩
        · show f < s.next_file
          rw [hnext]
          have hold : x.fs.file f = some fl := by
            rw [← hfile]
            exact hf
          exact h.fresh hold
        · show ∃ fl, s.file f = some fl ∧ _
          rw [hfile]
          exact h.file hk hslot
      refine ⟨h', h'.closesLast (fun f hpos hzero => ?_) fun f fl hf _ => ?_⟩
      · change x.slots (.file f) = 0 at hzero
        omega
      · show s.file f = some fl
        rw [hfile]
        exact hf
    · have hnew : s.file x.fs.next_file = some fl := by rw [hfile, Function.update_self]
      -- the directory branch is not taken
      have hunused : find_unused_fd (x.set_fs s) (.file x.fs.next_file) = .ok (fd, x') := by
        obtain ⟨fl', hf', hrun⟩ := Outcome.bind_eq_ok.mp hrun
        obtain ⟨ino, hino, hrun⟩ := Outcome.bind_eq_ok.mp hrun
        rw [filesys.get_file_eq_ok] at hf'
        rw [filesys.get_inode_eq_ok] at hino
        have hdir := hregular fl' ino hf' hino
        simpa only [hdir, Bool.false_eq_true, if_false] using hrun
      obtain ⟨k, hloop, hret⟩ := Outcome.bind_eq_ok.mp hunused
      cases Outcome.ok.inj hret
      obtain ⟨hk, hslot⟩ := find_unused_fd_loop_null hloop
      have hfill := (h.ahead_new hwf hone hnext hfile).fill hk hslot (by simp) (by simp)
      have h' := hfill.set_fd_idx k
      have hslots : ∀ f, f ≠ x.fs.next_file →
          ((x.set_fs s).set_slot k (.file x.fs.next_file)).slots (.file f) = x.slots (.file f) := by
        intro f hf
        apply slots_set_slot_of_ne (x := x.set_fs s) hk
        · rw [hslot]
          simp
        · simpa using Ne.symm hf
      refine ⟨h', h'.closesLast (fun f hpos hzero => ?_) fun f gl hf _ => ?_⟩
      · by_cases hf : f = x.fs.next_file
        · rw [hf, h.slots_new] at hpos
          omega
        · have hkeep := hslots f hf
          change ((x.set_fs s).set_slot k (.file x.fs.next_file)).slots (.file f) = 0 at hzero
          omega
      · show s.file f = some gl
        rw [hfile, Function.update_of_ne (h.fresh hf).ne]
        exact hf

end Open

/-! ## Every sequence of calls -/

/-- The calls that are meant: descriptors within the table, and no directory opened. -/
def fd_call.Regular (x : fd_process) : fd_call → Prop
  | .open file => ∀ r s, filesys_open x.fs x.cwd file = .ok (r, s) → r.regular s
  | .close fd => 0 ≤ fd ∧ fd < MAX_FD
  | .dup2 oldfd newfd => (0 ≤ oldfd ∧ oldfd < MAX_FD) ∧ 0 ≤ newfd ∧ newfd < MAX_FD

/-- A sequence of such calls, each in the state it is made in. -/
def RegularRun : List fd_call → fd_process → Prop
  | [], _ => True
  | c :: cs, x => c.Regular x ∧ ∀ x', fd_step x c = .ok x' → RegularRun cs x'

section Runs

variable {x x' y z : fd_process}

open fd_process

theorem fd_step_tableWf (h : x.TableWf) {c : fd_call} (hreg : c.Regular x)
    (hstep : fd_step x c = .ok x') : x'.TableWf ∧ ClosesLast x x' := by
  cases c with
  | «open» file =>
      obtain ⟨⟨fd, x₁⟩, hopen, hret⟩ := Outcome.bind_eq_ok.mp hstep
      cases Outcome.ok.inj hret
      exact sys_open_tableWf h hreg hopen
  | close fd => exact sys_close_tableWf h hstep
  | dup2 oldfd newfd =>
      obtain ⟨⟨fd, x₁⟩, hdup, hret⟩ := Outcome.bind_eq_ok.mp hstep
      cases Outcome.ok.inj hret
      exact sys_dup2_tableWf h hreg.2.1 hdup

theorem fd_run_tableWf (h : x.TableWf) {pre post : List fd_call} (hreg : RegularRun (pre ++ post) x)
    (hrun : fd_run pre x = .ok y) : y.TableWf ∧ RegularRun post y := by
  induction pre generalizing x with
  | nil =>
      obtain rfl := Outcome.ok.inj hrun
      exact ⟨h, hreg⟩
  | cons c pre ih =>
      obtain ⟨x₁, hstep, hrun⟩ := Outcome.bind_eq_ok.mp hrun
      obtain ⟨hc, hrest⟩ := hreg
      exact ih (fd_step_tableWf h hc hstep).1 (hrest x₁ hstep) hrun

/-- A new process has one slot for each of the two streams, and no file. -/
theorem process_init_fds_tableWf {s : filesys} (hwf : s.OpenWf)
    (hfresh : ∀ {f fl}, s.file f = some fl → f < s.next_file) (cwd : Option ℕ) :
    (process_init_fds s cwd).TableWf := by
  have hempty : ∀ v, occurrences MAX_FD (fun _ => fd_slot.null) v = if v
      = .null then MAX_FD else 0 := by
    intro v
    by_cases hv : v = .null
    · rw [if_pos hv, hv]
      simp [occurrences]
    · rw [if_neg hv]
      apply occurrences_eq_zero.mpr
      intro _ _ h
      exact hv h.symm
  have htable : (process_init_fds s cwd).fd_table
      = Function.update (Function.update (fun _ => fd_slot.null) 1 .stdout) 0 .stdin := by
    funext fd
    show (if fd = 0 then _ else if fd = 1 then _ else _) = _
    rw [Function.update_apply, Function.update_apply]
  have hone : 1 < MAX_FD := by decide
  have hslots : ∀ v, v ≠ .null → (process_init_fds s cwd).slots v
      = (if fd_slot.stdin = v then 1 else 0) + if fd_slot.stdout = v then 1 else 0 := by
    intro v hv
    have hout := occurrences_update hone (fun _ => fd_slot.null) v .stdout
    have hin := occurrences_update (by omega : 0 < MAX_FD)
      (Function.update (fun _ => fd_slot.null) 1 .stdout) v .stdin
    rw [hempty, if_neg hv, if_neg (Ne.symm hv)] at hout
    rw [Function.update_of_ne (by omega), if_neg (Ne.symm hv)] at hin
    unfold fd_process.slots
    rw [htable]
    omega
  refine ⟨hwf, hfresh, fun fd _ i => ?_, fun {fd f} hfd hslot => ?_, ?_, ?_⟩
  · show (if fd = 0 then _ else if fd = 1 then _ else _) ≠ _
    split_ifs <;> simp
  · have hpos : 0 < (process_init_fds s cwd).slots (.file f) := occurrences_pos.mpr ⟨fd, hfd, hslot⟩
    rw [hslots _ (by simp)] at hpos
    simp at hpos
  · rw [hslots _ (by simp)]
    rfl
  · rw [hslots _ (by simp)]
    rfl

/-- **Descriptors are counted.** After every sequence of calls of a process, `dup_count`
of every file in the table is the number of its slots, the two stream counters are
the numbers of theirs, and each call closes exactly the files whose last slot it
clears. -/
theorem fd_counts_along {s : filesys} (hwf : s.OpenWf)
    (hfresh : ∀ {f fl}, s.file f = some fl → f < s.next_file) (cwd : Option ℕ) {cs : List fd_call}
    (hreg : RegularRun cs (process_init_fds s cwd)) :
    (∀ pre post y, cs = pre ++ post → fd_run pre (process_init_fds s cwd) = .ok y → y.TableWf)
    ∧ ∀ pre c post y z, cs = pre ++ c :: post → fd_run pre (process_init_fds s cwd) = .ok y →
      fd_step y c = .ok z → ClosesLast y z := by
  have hinit := process_init_fds_tableWf hwf hfresh cwd
  refine ⟨fun pre post y hcs hrun => ?_, fun pre c post y z hcs hrun hstep => ?_⟩
  · rw [hcs] at hreg
    exact (fd_run_tableWf hinit hreg hrun).1
  · rw [hcs] at hreg
    obtain ⟨hy, hrest⟩ := fd_run_tableWf hinit hreg hrun
    exact (fd_step_tableWf hy hrest.1 hstep).2

/-- Opening inode 1 as file 0 opens no directory, if the inode is none. -/
theorem open_regular {x : fd_process} {path : c_string}
    (hrun : (filesys_open x.fs x.cwd path).satisfies (fun q =>
      q.1 = .file 0 ∧ ((q.2.file 0).map file.inode = some 1
        ∧ (q.2.inode 1).map (·.data.isdir) = some false)) = true) :
    (fd_call.open path).Regular x := by
  intro r s hopen
  obtain ⟨⟨r', s'⟩, hret, hsat⟩ := Outcome.satisfies_iff.mp hrun
  cases Outcome.ok.inj (hret.symm.trans hopen)
  simp only [decide_eq_true_eq] at hsat
  obtain ⟨rfl, hfile, hino⟩ := hsat
  intro fl ino hfl hi
  rw [hfl] at hfile
  rw [Option.some.inj hfile] at hi
  rw [hi] at hino
  exact Option.some.inj hino

/-- `/a` is opened, and its descriptor doubled. -/
def open_twice : List fd_call := [.open [SLASH, 97], .dup2 2 5]

theorem open_twice_regular : RegularRun open_twice (process_init_fds file_a none) :=
  ⟨open_regular (by decide +kernel), fun _ _ => ⟨⟨by decide, by decide⟩, fun _ _ => trivial⟩⟩

/-- Afterwards two slots hold the file. -/
theorem open_twice_counts : RegularRun open_twice (process_init_fds file_a none)
    ∧ ∃ y, fd_run open_twice (process_init_fds file_a none) = .ok y ∧ y.TableWf
      ∧ (y.fs.file 0).map file.dup_count = some 2 := by
  have hrun : (fd_run open_twice (process_init_fds file_a none)).satisfies (fun y =>
      (y.fs.file 0).map file.dup_count = some 2) = true := by
    decide +kernel
  obtain ⟨y, hret, hsat⟩ := Outcome.satisfies_iff.mp hrun
  have hfresh : ∀ {f fl}, file_a.file f = some fl → f < file_a.next_file := fun h => by cases h
  have hcounts := (fd_counts_along file_a_wf hfresh none open_twice_regular).1
  exact ⟨open_twice_regular, y, hret, hcounts open_twice [] y (by simp) hret,
    of_decide_eq_true hsat⟩

end Runs

end Pintos
