/-
`sys_readdir`, called again and again.

A descriptor of a directory is a `struct dir` with a position, but `sys_readdir` does not use it:
`file_to_dir` makes a new `struct dir` on the inode, whose position is 0. So every call looks for
the first name that is neither `.` nor `..`, and the calls of a row all do the same
(`sys_readdir_calls_eq`).
-/
import Pintos.Filesys.Absolute
import Pintos.Filesys.DirFile
import Pintos.Filesys.ReadDir
import Pintos.Userprog.CallSafety

set_option autoImplicit false

namespace Pintos

/-! ## The buffer -/

/-- The string that is in user memory at `name`. -/
def user_memory.name_at (m : user_memory) (name : ℕ) : c_string :=
  ((List.range NAME_MAX).map fun i => m.bytes (name + i)).takeWhile (· ≠ 0)

/-- A buffer of `NAME_MAX + 1` bytes that the process may write to. -/
structure NameBuffer (m : user_memory) (name : ℕ) : Prop where
  below : name + NAME_MAX < KERN_BASE
  writable : ∀ k ≤ NAME_MAX, m.page (pg_round_down (name + k)) = some true

section Buffer

variable {m : user_memory} {name n : ℕ}

/-- A page of a buffer is that of one of its bytes. -/
theorem mem_buffer_pages {addr : ℕ} (hlt : name + n < 2 ^ 64)
    (h : addr ∈ buffer_pages name (n + 1)) : ∃ k ≤ n, addr = pg_round_down (name + k) := by
  have hend : buffer_end name (n + 1) = name + n := by
    unfold buffer_end
    omega
  simp only [buffer_pages, hend] at h
  split at h
  · obtain ⟨i, hi, rfl⟩ := List.mem_map.mp h
    have hi' := List.mem_range.mp hi
    unfold pg_round_down PGSIZE at hi' ⊢
    rcases Nat.eq_zero_or_pos i with rfl | hpos
    · exact ⟨0, Nat.zero_le n, by rw [Nat.mul_zero]; rfl⟩
    · refine ⟨name - name % 4096 + 4096 * i - name, by omega, ?_⟩
      omega
  · cases h

theorem NameBuffer.store (h : NameBuffer m name) {e : c_string} (he : e.length ≤ NAME_MAX) :
    store_name m name e = .ok (m.store name (fun k => e.getD k 0) (e.length + 1)) := by
  have hbelow := h.below
  have hkern : KERN_BASE < 2 ^ 64 := by decide
  unfold store_name
  rw [if_neg (by omega), if_pos]
  rw [List.all_eq_true]
  intro addr haddr
  obtain ⟨k, hk, rfl⟩ := mem_buffer_pages (by omega) haddr
  exact decide_eq_true (h.writable k (by omega))

/-- The name that has been stored. -/
theorem name_at_store (m : user_memory) (name : ℕ) {e : c_string} (he : NameOk e) :
    (m.store name (fun k => e.getD k 0) (e.length + 1)).name_at name = e := by
  apply takeWhile_c_string he.length_le _ he.nonzero
  intro i hi
  show memcpy m.bytes name (fun k => e.getD k 0) (e.length + 1) (name + i) = e.getD i 0
  rw [memcpy_in (Nat.le_add_right name i) (by omega), Nat.add_sub_cancel_left]

theorem NameBuffer.congr {m' : user_memory} (h : NameBuffer m name) (hp : m'.page = m.page) :
    NameBuffer m' name where
  below := h.below
  writable k hk := by rw [hp]; exact h.writable k hk

end Buffer

/-! ## One call -/

/-- `.` and `..`, which are passed by. -/
def is_dot (n : c_string) : Bool := n = [46] ∨ n = [46, 46]

/-- The names that are to be listed. -/
def listed (names : List c_string) : List c_string := names.filter fun n => !is_dot n

section Call

variable {s : filesys} {i : ℕ} {ino : inode} {l : List ℕ} {a : List UInt8} {slots : List dir_slot}
  {name : ℕ}

/-- **The loop** stops at the first name that is to be listed, with that name in the buffer. -/
theorem readdir_loop_eq (h : DirBytes s i ino l a) (hlays : Lays a slots) (rest : List dir_slot) :
    ∀ (j fuel : ℕ) (m : user_memory), slots.drop j = rest → j ≤ slots.length → rest.length < fuel →
      NameBuffer m name → ∃ m', readdir_loop s ino name fuel (20 * j) m
          = .ok ((listed (slot_keys rest)).head?.isSome, m') ∧ m'.page = m.page
        ∧ ∀ n, (listed (slot_keys rest)).head? = some n → m'.name_at name = n := by
  induction rest with
  | nil =>
      intro j fuel m hdrop hj hf _
      obtain ⟨fuel, rfl⟩ : ∃ k, fuel = k + 1 := ⟨fuel - 1, by simp at hf; omega⟩
      have hend : j = slots.length := by
        have := List.drop_eq_nil_iff.mp hdrop
        omega
      refine ⟨m, ?_, rfl, fun n hn => by cases hn⟩
      rw [readdir_loop, hend, h.read_entry, hlays.reads_slots.stop]
      rfl
  | cons x rest ih =>
      intro j fuel m hdrop hj hf hbuf
      obtain ⟨fuel, rfl⟩ : ∃ k, fuel = k + 1 := ⟨fuel - 1, by omega⟩
      have hx : slots[j]? = some x := by
        rw [← List.head?_drop, hdrop]
        rfl
      have hnext : slots.drop (j + 1) = rest := by
        rw [← List.drop_drop, hdrop]
        rfl
      obtain ⟨hlt, -⟩ := List.getElem?_eq_some_iff.mp hx
      obtain ⟨e', hread, hslot⟩ := hlays.reads_slots.slot j x hx zeros
      have hgo := fun m hm => ih (j + 1) fuel m hnext hlt (by simpa using hf) hm
      rw [readdir_loop, h.read_entry, hread]
      simp only [Outcome.ok_bind, ne_eq, not_true_eq_false, if_false, hslot.in_use]
      cases x with
      | none => exact hgo m hbuf
      | some e =>
          have hok : NameOk e.1 := hslot.2.2.2
          have hkeys : slot_keys (some e :: rest) = e.1 :: slot_keys rest := rfl
          rw [hslot.name_eq, hkeys]
          simp only [Option.isSome_some, Bool.not_true, Bool.false_eq_true, if_false]
          rw [hbuf.store hok.length_le, Outcome.ok_bind]
          by_cases hdot : e.1 = [46] ∨ e.1 = [46, 46]
          · have hd : is_dot e.1 = true := decide_eq_true hdot
            rw [if_pos hdot, listed, List.filter_cons_of_neg (by simp [hd])]
            exact hgo _ (hbuf.congr rfl)
          · have hd : is_dot e.1 = false := decide_eq_false hdot
            rw [if_neg hdot, listed, List.filter_cons_of_pos (by simp [hd])]
            refine ⟨_, rfl, rfl, fun n hn => ?_⟩
            rw [← Option.some.inj hn]
            exact name_at_store m name hok

variable {p : io_process} {fd : ℤ}

/-- The descriptor is one of this open directory. -/
structure DirSlot (p : io_process) (fd : ℤ) (i : ℕ) (ino : inode) (l : List ℕ)
    (a : List UInt8) : Prop where
  ge_two : 2 ≤ fd
  lt : fd < MAX_FD
  slot : p.proc.fd_table fd.toNat = .dir i
  isdir : ino.data.isdir = true
  bytes : DirBytes p.proc.fs i ino l a

/-- **`sys_readdir`** on a directory delivers its first name that is to be listed. -/
theorem sys_readdir_eq (h : DirSlot p fd i ino l a) (hok : DirOk a) (hbuf : NameBuffer p.mem name) :
    ∃ m', (sys_readdir p fd name).result
        = .ok ((listed (dir_names a)).head?.isSome, { p with mem := m' }) ∧ m'.page = p.mem.page
      ∧ ∀ n, (listed (dir_names a)).head? = some n → m'.name_at name = n := by
  obtain ⟨slots, hlays, -⟩ := hok.lays
  have hlen : ino.data.length.toNat = a.length := h.bytes.length_eq.symm
  have hcount := hlays.length
  obtain ⟨m', hloop, hpage, hname⟩ := readdir_loop_eq h.bytes hlays slots 0
    (ino.data.length.toNat / DIR_ENTRY_SIZE + 2) p.mem rfl (Nat.zero_le _)
    (by rw [hlen]; unfold DIR_ENTRY_SIZE; omega) hbuf
  rw [← hlays.dir_names_eq] at hloop hname
  refine ⟨m', ?_, hpage, hname⟩
  have hin : 0 ≤ fd ∧ fd < MAX_FD := ⟨by have := h.ge_two; omega, h.lt⟩
  have hino : (inode_of p.proc.fs (.dir i)).result = .ok ino :=
    filesys.get_inode_eq_ok.mpr h.bytes.is_open
  have h2 := h.ge_two
  unfold sys_readdir is_file_dir
  rw [if_neg (by omega)]
  simp only [Traced.bind_result, fd_at_result hin, h.slot, Outcome.ok_bind, hino,
    Traced.pure_result, h.isdir, Bool.not_true, Bool.false_eq_true, if_false, Traced.lift_result]
  rw [Nat.mul_zero] at hloop
  rw [hloop]
  rfl

end Call

/-! ## A row of calls -/

/-- `sys_readdir (fd, name)`, `n` times: what was in the buffer after each call, or none where it
returned false. -/
def sys_readdir_calls (fd : ℤ) (name : ℕ) :
    ℕ → io_process → Outcome (List (Option c_string) × io_process)
  | 0, p => .ok ([], p)
  | n + 1, p => do
      let (found, p) ← (sys_readdir p fd name).result
      let (rest, q) ← sys_readdir_calls fd name n p
      return ((if found then some (p.mem.name_at name) else none) :: rest, q)

/-- **The calls enumerate the directory**: they return true once for each of these names, with the
name in the buffer, and then false. -/
def Enumerates (p : io_process) (fd : ℤ) (name : ℕ) (names : List c_string) : Prop :=
  ∃ (order : List c_string) (q : io_process), order.Perm names
    ∧ sys_readdir_calls fd name (names.length + 1) p = .ok (order.map some ++ [none], q)

section Calls

variable {p : io_process} {fd : ℤ} {name i : ℕ} {ino : inode} {l : List ℕ} {a : List UInt8}

/-- **Every call does the same.** -/
theorem sys_readdir_calls_eq (h : DirSlot p fd i ino l a) (hok : DirOk a)
    (hbuf : NameBuffer p.mem name) (n : ℕ) : ∃ q, sys_readdir_calls fd name n p
      = .ok (List.replicate n (listed (dir_names a)).head?, q) := by
  induction n generalizing p with
  | zero => exact ⟨p, rfl⟩
  | succ n ih =>
      obtain ⟨m', hrun, hpage, hname⟩ := sys_readdir_eq h hok hbuf
      have h' : DirSlot { p with mem := m' } fd i ino l a :=
        ⟨h.ge_two, h.lt, h.slot, h.isdir, h.bytes⟩
      obtain ⟨q, hq⟩ := ih h' (hbuf.congr hpage)
      refine ⟨q, ?_⟩
      rw [sys_readdir_calls, hrun, Outcome.ok_bind]
      dsimp only
      rw [hq, Outcome.ok_bind, List.replicate_succ]
      cases hhead : (listed (dir_names a)).head? with
      | none => rfl
      | some first =>
          have hbuffer : m'.name_at name = first := hname first hhead
          simp only [Option.isSome_some, if_true, hbuffer]
          rfl

/-- The calls enumerate the directory exactly when there is nothing to be listed. -/
theorem enumerates_iff (h : DirSlot p fd i ino l a) (hok : DirOk a) (hbuf : NameBuffer p.mem name) :
    Enumerates p fd name (listed (dir_names a)) ↔ listed (dir_names a) = [] := by
  obtain ⟨q, hq⟩ := sys_readdir_calls_eq h hok hbuf ((listed (dir_names a)).length + 1)
  constructor
  · rintro ⟨order, q', -, hrun⟩
    rw [hq] at hrun
    have hlist := (Outcome.ok_pair hrun).1
    -- the last call returns false, as all the others do
    have hlast : none ∈ List.replicate ((listed (dir_names a)).length + 1)
        (listed (dir_names a)).head? := by
      rw [hlist]
      simp
    exact List.head?_eq_none_iff.mp (List.eq_of_mem_replicate hlast).symm
  · intro hnil
    refine ⟨[], q, by rw [hnil], ?_⟩
    rw [hq, hnil]
    rfl

end Calls

/-! ## Descriptors from `sys_open` -/

section Open

variable {x y : fd_process} {r : ℤ}

theorem find_unused_fd_loop_ge {t : ℕ → fd_slot} {fuel fd_idx fd : ℕ}
    (h : find_unused_fd_loop t fuel fd_idx = .ok fd) : fd_idx ≤ fd := by
  induction fuel generalizing fd_idx with
  | zero => cases h
  | succ fuel ih =>
      unfold find_unused_fd_loop at h
      split at h
      · cases h
      · split at h
        · exact Nat.le_of_eq (Outcome.ok.inj h)
        · exact Nat.le_of_succ_le (ih h)

/-- A new descriptor. -/
theorem find_unused_fd_eq_ok {v : fd_slot} (h : find_unused_fd x v = .ok (r, y)) :
    ∃ fd : ℕ, r = fd ∧ x.fd_idx ≤ fd ∧ fd < MAX_FD ∧ y = { x.set_slot fd v with fd_idx := fd } := by
  obtain ⟨fd, hloop, h⟩ := Outcome.bind_eq_ok.mp h
  obtain ⟨rfl, rfl⟩ := Outcome.ok_pair h
  exact ⟨fd, rfl, find_unused_fd_loop_ge hloop, (find_unused_fd_loop_null hloop).1, rfl⟩

/-- What `sys_open` puts into the table. -/
theorem open_slot_eq_ok {o : opened} (h : open_slot x o = .ok (r, y)) :
    (r = -1 ∧ y = x) ∨ ∃ (s : filesys) (v : fd_slot), find_unused_fd (x.set_fs s) v = .ok (r, y)
      ∧ ∀ i, v = .dir i → ∃ ino, s.inode i = some ino ∧ ino.data.isdir = true := by
  cases o with
  | null =>
      obtain ⟨rfl, rfl⟩ := Outcome.ok_pair h
      exact .inl ⟨rfl, rfl⟩
  | file f =>
      obtain ⟨fl, -, h⟩ := Outcome.bind_eq_ok.mp h
      obtain ⟨ino, hino, h⟩ := Outcome.bind_eq_ok.mp h
      split at h
      · rename_i hdir
        refine .inr ⟨_, _, h, fun i hi => ?_⟩
        obtain rfl := fd_slot.dir.inj hi
        exact ⟨ino, filesys.get_inode_eq_ok.mp hino, hdir⟩
      · exact .inr ⟨x.fs, _, h, fun i hi => by cases hi⟩
  | root_dir dir =>
      obtain ⟨ino, hino, h⟩ := Outcome.bind_eq_ok.mp h
      split at h
      · rename_i hdir
        refine .inr ⟨x.fs, _, h, fun i hi => ?_⟩
        obtain rfl := fd_slot.dir.inj hi
        exact ⟨ino, filesys.get_inode_eq_ok.mp hino, hdir⟩
      · cases h

/-- **`sys_open`** of a directory: a descriptor of the table, and an open inode of a directory. -/
theorem sys_open_dir {path : c_string} {i : ℕ} (h : sys_open x path = .ok (r, y)) (hr : r ≠ -1)
    (hslot : y.fd_table r.toNat = .dir i) : (x.fd_idx : ℤ) ≤ r ∧ r < MAX_FD
      ∧ ∃ ino, y.fs.inode i = some ino ∧ ino.data.isdir = true := by
  unfold sys_open at h
  split at h
  · exact absurd (Outcome.ok_pair h).1.symm hr
  · obtain ⟨⟨o, s⟩, -, h⟩ := Outcome.bind_eq_ok.mp h
    rcases open_slot_eq_ok h with ⟨hneg, -⟩ | ⟨s', v, hfind, hdir⟩
    · exact absurd hneg hr
    · obtain ⟨fd, rfl, hge, hlt, rfl⟩ := find_unused_fd_eq_ok hfind
      refine ⟨Int.ofNat_le.mpr hge, Int.ofNat_lt.mpr hlt, hdir i ?_⟩
      rw [← hslot]
      show v = Function.update x.fd_table fd v (Int.toNat fd)
      rw [Int.toNat_natCast, Function.update_self]

theorem sys_close_fd_idx {fd : ℤ} (h : sys_close x fd = .ok y) : y.fd_idx = x.fd_idx := by
  unfold sys_close at h
  split at h
  · rw [← Outcome.ok.inj h]
  · split at h
    · rw [← Outcome.ok.inj h]
      rfl
    · rw [← Outcome.ok.inj h]
      rfl
    · rw [← Outcome.ok.inj h]
      rfl
    · obtain ⟨s, -, h⟩ := Outcome.bind_eq_ok.mp h
      rw [← Outcome.ok.inj h]
      rfl
    · cases h

theorem dup_count_up_fd_idx {v : fd_slot} (h : dup_count_up x v = .ok y) : y.fd_idx = x.fd_idx := by
  cases v with
  | stdin =>
      obtain rfl := Outcome.ok.inj h
      rfl
  | stdout =>
      obtain rfl := Outcome.ok.inj h
      rfl
  | file f =>
      obtain ⟨fl, -, h⟩ := Outcome.bind_eq_ok.mp h
      obtain rfl := Outcome.ok.inj h
      rfl
  | null => cases h
  | dir i => cases h

theorem sys_dup2_fd_idx {oldfd newfd : ℤ} (h : sys_dup2 x oldfd newfd = .ok (r, y)) :
    y.fd_idx = x.fd_idx := by
  unfold sys_dup2 at h
  split at h
  · rw [← (Outcome.ok_pair h).2]
  split at h
  · rw [← (Outcome.ok_pair h).2]
  split at h
  · rw [← (Outcome.ok_pair h).2]
  obtain ⟨z, hup, h⟩ := Outcome.bind_eq_ok.mp h
  have hz := dup_count_up_fd_idx hup
  by_cases hnew : newfd < 0 ∨ MAX_FD ≤ newfd
  · rw [if_pos hnew] at h
    cases h
  rw [if_neg hnew] at h
  by_cases hopen : z.fd_table newfd.toNat ≠ .null
  · rw [if_pos hopen] at h
    obtain ⟨w, hclose, h⟩ := Outcome.bind_eq_ok.mp h
    have hw := sys_close_fd_idx hclose
    rw [← (Outcome.ok_pair h).2, ← hz, ← hw]
    rfl
  · rw [if_neg hopen] at h
    rw [← (Outcome.ok_pair h).2, ← hz]
    rfl

/-- The first two descriptors are never handed out. -/
theorem Reachable.two_le (h : Reachable x) : 2 ≤ x.fd_idx := by
  induction h with
  | init s cwd => exact le_rfl
  | @call x x' c hx hstep ih =>
      cases c with
      | «open» file =>
          obtain ⟨⟨r, y⟩, hopen, hret⟩ := Outcome.bind_eq_ok.mp hstep
          obtain rfl := Outcome.ok.inj hret
          unfold sys_open at hopen
          split at hopen
          · rw [← (Outcome.ok_pair hopen).2]
            exact ih
          · obtain ⟨⟨o, s⟩, -, hopen⟩ := Outcome.bind_eq_ok.mp hopen
            rcases open_slot_eq_ok hopen with ⟨-, rfl⟩ | ⟨s', v, hfind, -⟩
            · exact ih
            · obtain ⟨fd, -, hge, -, rfl⟩ := find_unused_fd_eq_ok hfind
              exact Nat.le_trans ih hge
      | close fd => exact (sys_close_fd_idx hstep).symm ▸ ih
      | dup2 oldfd newfd =>
          obtain ⟨⟨r, y⟩, hdup, hret⟩ := Outcome.bind_eq_ok.mp hstep
          obtain rfl := Outcome.ok.inj hret
          exact (sys_dup2_fd_idx hdup).symm ▸ ih
  | @fork x parent child hx hfork ih =>
      -- the child goes on where its parent is
      obtain ⟨⟨root, s⟩, -, hfork⟩ := Outcome.bind_eq_ok.mp hfork
      dsimp only at hfork
      by_cases hidx : x.fd_idx = MAX_FD
      · rw [if_pos hidx] at hfork
        cases Outcome.ok.inj hfork
      rw [if_neg hidx] at hfork
      obtain ⟨child₁, -, hfork⟩ := Outcome.bind_eq_ok.mp hfork
      cases hcwd : x.cwd with
      | none =>
          rw [hcwd] at hfork
          cases hfork
      | some dir =>
          rw [hcwd] at hfork
          obtain ⟨⟨cwd, s'⟩, -, hfork⟩ := Outcome.bind_eq_ok.mp hfork
          cases Outcome.ok.inj hfork
          exact ih
  | others s cwd hx ih => exact ih

end Open

/-- **`sys_readdir` enumerates a directory** exactly when there is no name in it but `.` and `..`:
for every process, and every directory it opens with `sys_open`. -/
theorem sys_readdir_enumerates_iff {p : io_process} {x : fd_process} {path : c_string} {fd : ℤ}
    {i : ℕ} {ino : inode} {l : List ℕ} {a : List UInt8} {name : ℕ} (hreach : Reachable x)
    (hopen : sys_open x path = .ok (fd, p.proc)) (hfd : fd ≠ -1)
    (hslot : p.proc.fd_table fd.toNat = .dir i) (hbytes : DirBytes p.proc.fs i ino l a)
    (hok : DirOk a) (hbuf : NameBuffer p.mem name) :
    Enumerates p fd name (listed (dir_names a)) ↔ listed (dir_names a) = [] := by
  obtain ⟨hge, hlt, ino', hino, hdir⟩ := sys_open_dir hopen hfd hslot
  have h2 := hreach.two_le
  obtain rfl := Option.some.inj (hino.symm.trans hbytes.is_open)
  exact enumerates_iff ⟨by omega, hlt, hslot, hdir, hbytes⟩ hok hbuf

/-! ### A root directory with one file -/

/-- The root directory of `one_byte_file`, opened once more. -/
def root_opened : inode where
  sector := ROOT_DIR_SECTOR
  open_cnt := 2
  removed := false
  deny_write_cnt := 0
  data := { start := 1, length := 20, magic := INODE_MAGIC, isdir := true }

/-- A process that has opened it, with all of its memory there. -/
def root_reader : io_process where
  proc := { process_init_fds (one_byte_file.set_inode 0 root_opened) none with
    fd_table := Function.update (process_init_fds one_byte_file none).fd_table 2 (.dir 0) }
  mem := { page := fun _ => some true, bytes := zeros }
  input := zeros
  output := []

theorem root_reader_opened : sys_open (process_init_fds one_byte_file none)
    [SLASH] = .ok (2, root_reader.proc) := by
  rfl

/-- Its one entry. -/
def one_name : List UInt8 := byte_dir.write_entry [] (dir_entry.fill zeros [97] 10) (20 * 0)

theorem one_name_lays : Lays one_name [some ([97], 10)] :=
  (lays_zeros 0).write (slotIs_fill zeros ⟨by simp, by simp [NAME_MAX], by simp⟩ (by decide))
  (Nat.zero_le 0)

theorem one_name_ok : DirOk one_name :=
  one_name_lays.dir_ok ((keysDistinct_free 0).store (k := [97]) (x := 10) rfl)

theorem root_reader_bytes : DirBytes root_reader.proc.fs 0 root_opened [1] one_name where
  is_open := rfl
  backed :=
    { geometry := ⟨by decide, by decide, by decide, by decide⟩
      chain := .inr ⟨by decide, show Path one_byte_file.fat.fat 1 [1] EOChain by decide, by decide⟩
      length_nonneg := by decide
      length_lt := by decide
      covers := by decide
      on_disk := by decide
      inode_on_disk := by decide
      apart := by decide }
  contents := by rfl

theorem root_reader_buffer : NameBuffer root_reader.mem 0x10000 where
  below := by decide
  writable _ _ := rfl

/-- One file, two calls, and both return it. -/
theorem one_file_not_enumerated : Enumerates root_reader 2 0x10000 (listed (dir_names one_name))
    ↔ listed (dir_names one_name) = [] :=
  sys_readdir_enumerates_iff (.init one_byte_file none) root_reader_opened (by decide) rfl
    root_reader_bytes one_name_ok root_reader_buffer

/-- `sys_readdir` does not enumerate the root directory with the one file `a`. -/
theorem sys_readdir_starts_over : ¬ ∀ (p : io_process) (x : fd_process) (path : c_string) (fd : ℤ)
    (i : ℕ) (ino : inode) (l : List ℕ) (a : List UInt8) (name : ℕ), Reachable x →
      sys_open x path = .ok (fd, p.proc) → fd ≠ -1 → p.proc.fd_table fd.toNat = .dir i →
      DirBytes p.proc.fs i ino l a → DirOk a → NameBuffer p.mem name →
      Enumerates p fd name (listed (dir_names a)) := by
  intro hall
  have h := hall root_reader (process_init_fds one_byte_file none)
    [SLASH] 2 0 root_opened [1] one_name
    0x10000 (.init one_byte_file none) root_reader_opened (by decide) rfl
      root_reader_bytes one_name_ok
    root_reader_buffer
  have hslot : DirSlot root_reader 2 0 root_opened [1] one_name :=
    ⟨by decide, by decide, rfl, rfl, root_reader_bytes⟩
  have hnil := (enumerates_iff hslot one_name_ok root_reader_buffer).mp h
  rw [one_name_lays.dir_names_eq] at hnil
  exact absurd hnil (by decide)

end Pintos
