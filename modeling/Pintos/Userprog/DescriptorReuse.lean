/-
`find_unused_fd`: whether a closed descriptor is found again.

The search starts at `fd_idx`, which is kept from one open to the next and never goes back, and
it reads a slot before it compares the index with `MAX_FD`. So a slot below the cursor is free
for good, and once no slot behind the cursor is, the next open reads the word behind the table.
-/
import Pintos.Userprog.ReaddirCall

set_option autoImplicit false

namespace Pintos

/-! ## The code, with its log -/

/-- The loop of `find_unused_fd`, over `fd_idx`. -/
def find_unused_fd_loop_traced (x : fd_process) : ℕ → ℕ → Traced touch ℕ
  | 0, _ => Traced.lift .diverge
  | fuel + 1, fd_idx => do
      let slot ← fd_at x fd_idx
      if slot ≠ .null ∧ fd_idx < MAX_FD then find_unused_fd_loop_traced x fuel (fd_idx + 1)
      else return fd_idx

/-- `find_unused_fd`. -/
def find_unused_fd_traced (x : fd_process) (file : fd_slot) : Traced touch (ℤ × fd_process) := do
  let fd_idx ← find_unused_fd_loop_traced x (MAX_FD + 1) x.fd_idx
  if MAX_FD ≤ fd_idx then return (-1, { x with fd_idx := fd_idx })
  else
    let x ← fd_set x fd_idx file
    return ((fd_idx : ℤ), { x with fd_idx := fd_idx })

/-- `sys_open` behind `filesys_open`. -/
def open_slot_traced (x : fd_process) (r : opened) : Traced touch (ℤ × fd_process) :=
  match r with
  | .null => pure (-1, x)
  | .file f => do
      let fl ← Traced.lift (x.fs.get_file f)
      let ino ← Traced.lift (x.fs.get_inode fl.inode)
      if ino.data.isdir then find_unused_fd_traced (x.set_fs (x.fs.free_file f)) (.dir fl.inode)
      else find_unused_fd_traced x (.file f)
  | .root_dir dir => do
      let ino ← Traced.lift (x.fs.get_inode dir)
      if ino.data.isdir then find_unused_fd_traced x (.dir dir) else Traced.lift .undefined

/-- `sys_open`, with its log. -/
def sys_open_traced (x : fd_process) (file : c_string) : Traced touch (ℤ × fd_process) :=
  if file = [] then pure (-1, x)
  else do
    let (r, s) ← Traced.lift (filesys_open x.fs x.cwd file)
    open_slot_traced (x.set_fs s) r

/-! ## The calls without the log -/

section Erase

variable {x : fd_process}

theorem find_unused_fd_loop_traced_result (x : fd_process) (fuel : ℕ) : ∀ fd_idx : ℕ,
    (find_unused_fd_loop_traced x fuel fd_idx).result
    = find_unused_fd_loop x.fd_table fuel fd_idx := by
  induction fuel with
  | zero =>
      intro fd_idx
      rfl
  | succ fuel ih =>
      intro fd_idx
      rw [find_unused_fd_loop_traced, find_unused_fd_loop, Traced.bind_result]
      by_cases hidx : MAX_FD ≤ fd_idx
      · have hout : ¬ (0 ≤ (fd_idx : ℤ) ∧ (fd_idx : ℤ) < MAX_FD) := by omega
        rw [if_pos hidx]
        simp only [fd_at, hout, if_false, Outcome.undefined_bind]
      · rw [if_neg hidx, fd_at_result (by omega), Outcome.ok_bind, Int.toNat_natCast]
        by_cases hnull : x.fd_table fd_idx = .null
        · rw [if_pos hnull, if_neg fun h => h.1 hnull]
          rfl
        · rw [if_neg hnull, if_pos ⟨hnull, by omega⟩]
          exact ih (fd_idx + 1)

theorem find_unused_fd_traced_result (x : fd_process) (file : fd_slot) :
    (find_unused_fd_traced x file).result = find_unused_fd x file := by
  unfold find_unused_fd_traced find_unused_fd
  rw [Traced.bind_result, find_unused_fd_loop_traced_result]
  cases hloop : find_unused_fd_loop x.fd_table (MAX_FD + 1) x.fd_idx with
  | ok fd =>
      obtain ⟨hfd, -⟩ := find_unused_fd_loop_null hloop
      rw [Outcome.ok_bind, Outcome.ok_bind, if_neg (by omega), Traced.bind_result,
        fd_set_result (by omega), Outcome.ok_bind, Int.toNat_natCast]
      rfl
  | panic => rfl
  | undefined => rfl
  | diverge => rfl

/-- `sys_open` of the other calls is this one without its log. -/
theorem sys_open_traced_result (x : fd_process) (file : c_string) :
    (sys_open_traced x file).result = sys_open x file := by
  have hslot : ∀ (y : fd_process) (r : opened), (open_slot_traced y r).result = open_slot y r := by
    intro y r
    cases r with
    | null => rfl
    | file f =>
        simp only [open_slot_traced, open_slot, Traced.bind_result, Traced.lift_result]
        congr 1
        funext fl
        congr 1
        funext ino
        by_cases hdir : ino.data.isdir
        · rw [if_pos hdir, if_pos hdir, find_unused_fd_traced_result]
        · rw [if_neg hdir, if_neg hdir, find_unused_fd_traced_result]
    | root_dir dir =>
        simp only [open_slot_traced, open_slot, Traced.bind_result, Traced.lift_result]
        congr 1
        funext ino
        by_cases hdir : ino.data.isdir
        · rw [if_pos hdir, if_pos hdir, find_unused_fd_traced_result]
        · rw [if_neg hdir, if_neg hdir, Traced.lift_result]
  unfold sys_open_traced sys_open
  by_cases hfile : file = []
  · rw [if_pos hfile, if_pos hfile]
    rfl
  · rw [if_neg hfile, if_neg hfile, Traced.bind_result, Traced.lift_result]
    congr 1
    funext q
    exact hslot _ _

end Erase

/-! ## The search -/

/-- Some slot from the cursor on is free. -/
def FreeAhead (x : fd_process) : Prop := ∃ fd, x.fd_idx ≤ fd ∧ fd < MAX_FD ∧ x.fd_table fd = .null

/-- The index is in the table. -/
def touch.InTable : touch → Prop
  | .index fd => 0 ≤ fd ∧ fd < MAX_FD
  | .deref _ => True

section Search

variable {x : fd_process}

/-- **The search ends at a free slot** when there is one, and stays in the table. -/
theorem find_unused_fd_loop_finds {fd : ℕ} (hfd : fd < MAX_FD) (hnull : x.fd_table fd = .null)
    (fuel : ℕ) : ∀ fd_idx : ℕ, fd_idx ≤ fd → fd < fd_idx + fuel →
      (∃ k, (find_unused_fd_loop_traced x fuel fd_idx).result = .ok k ∧ fd_idx ≤ k ∧ k ≤ fd)
        ∧ Traced.Safe touch.InTable (find_unused_fd_loop_traced x fuel fd_idx) := by
  induction fuel with
  | zero =>
      intro fd_idx hle hlt
      omega
  | succ fuel ih =>
      intro fd_idx hle hlt
      have hin : 0 ≤ (fd_idx : ℤ) ∧ (fd_idx : ℤ) < MAX_FD := by omega
      rw [find_unused_fd_loop_traced, Traced.bind_result, fd_at_result hin, Outcome.ok_bind,
        Int.toNat_natCast]
      have hread : Traced.Safe touch.InTable (fd_at x fd_idx) := by
        intro e he
        rw [List.mem_singleton.mp he]
        exact hin
      by_cases hslot : x.fd_table fd_idx = .null
      · rw [if_neg fun h => h.1 hslot]
        refine ⟨⟨fd_idx, rfl, le_rfl, hle⟩, Traced.safe_bind.mpr ⟨hread, fun slot hslot' => ?_⟩⟩
        rw [fd_at_result hin, Int.toNat_natCast, hslot] at hslot'
        obtain rfl := Outcome.ok.inj hslot'
        rw [if_neg fun h => h.1 rfl]
        exact Traced.safe_pure _
      · have hne : fd_idx ≠ fd := fun heq => hslot (heq ▸ hnull)
        rw [if_pos ⟨hslot, by omega⟩]
        obtain ⟨⟨k, hk, hge, hle'⟩, hsafe⟩ := ih (fd_idx + 1) (by omega) (by omega)
        refine ⟨⟨k, hk, by omega, hle'⟩, Traced.safe_bind.mpr ⟨hread, fun slot hslot' => ?_⟩⟩
        rw [fd_at_result hin, Int.toNat_natCast] at hslot'
        obtain rfl := Outcome.ok.inj hslot'
        rw [if_pos ⟨hslot, by omega⟩]
        exact hsafe

/-- **The search leaves the table** when there is none. -/
theorem find_unused_fd_loop_leaves (fuel : ℕ) : ∀ fd_idx : ℕ, 0 < fuel → MAX_FD < fd_idx + fuel →
    (∀ fd, fd_idx ≤ fd → fd < MAX_FD → x.fd_table fd ≠ .null) →
      ¬ Traced.Safe touch.InTable (find_unused_fd_loop_traced x fuel fd_idx) := by
  induction fuel with
  | zero =>
      intro fd_idx hpos
      omega
  | succ fuel ih =>
      intro fd_idx _ hfuel hused hsafe
      rw [find_unused_fd_loop_traced] at hsafe
      obtain ⟨hread, hrest⟩ := Traced.safe_bind.mp hsafe
      have hin : 0 ≤ (fd_idx : ℤ) ∧ (fd_idx : ℤ) < MAX_FD := hread _ (List.mem_singleton.mpr rfl)
      have hlt : fd_idx < MAX_FD := by omega
      have hslot := hused fd_idx le_rfl hlt
      have hnext := hrest _ (fd_at_result hin)
      rw [Int.toNat_natCast, if_pos ⟨hslot, hlt⟩] at hnext
      exact ih (fd_idx + 1) (by omega) (by omega) (fun fd hge => hused fd (by omega)) hnext

theorem find_unused_fd_safe_iff (file : fd_slot) :
    Traced.Safe touch.InTable (find_unused_fd_traced x file) ↔ FreeAhead x := by
  constructor
  · intro hsafe
    by_contra hnone
    have hused : ∀ fd, x.fd_idx ≤ fd → fd < MAX_FD → x.fd_table fd ≠ .null :=
      fun fd hge hlt hnull => hnone ⟨fd, hge, hlt, hnull⟩
    exact find_unused_fd_loop_leaves _ _ (by omega) (by omega) hused (Traced.safe_bind.mp hsafe).1
  · rintro ⟨fd, hge, hlt, hnull⟩
    obtain ⟨-, hsafe⟩ := find_unused_fd_loop_finds hlt hnull (MAX_FD + 1) x.fd_idx hge (by omega)
    refine Traced.safe_bind.mpr ⟨hsafe, fun k _ => Traced.safe_ite.mpr
      ⟨fun _ => Traced.safe_pure _, fun hk => Traced.safe_bind.mpr ⟨?_,
        fun _ _ => Traced.safe_pure _⟩⟩⟩
    intro e he
    rw [List.mem_singleton.mp he]
    have hin : 0 ≤ (k : ℤ) ∧ (k : ℤ) < MAX_FD := by omega
    exact hin

/-- **A free slot ahead** is found. -/
theorem find_unused_fd_found (h : FreeAhead x) (file : fd_slot) :
    ∃ fd : ℕ, x.fd_idx ≤ fd ∧ fd < MAX_FD ∧ x.fd_table fd = .null
      ∧ find_unused_fd x file = .ok ((fd : ℤ), { x.set_slot fd file with fd_idx := fd }) := by
  obtain ⟨fd, hge, hlt, hnull⟩ := h
  obtain ⟨⟨k, hk, hge', -⟩, -⟩ :=
    find_unused_fd_loop_finds hlt hnull (MAX_FD + 1) x.fd_idx hge (by omega)
  rw [find_unused_fd_loop_traced_result] at hk
  obtain ⟨hk', hnull'⟩ := find_unused_fd_loop_null hk
  refine ⟨k, hge', hk', hnull', ?_⟩
  unfold find_unused_fd
  rw [hk]
  rfl

end Search

/-! ## Opens -/

/-- What `filesys_open` found is there. -/
def filesys.Opened (s : filesys) : opened → Prop
  | .null => False
  | .file f => ∃ fl ino, s.file f = some fl ∧ s.inode fl.inode = some ino
  | .root_dir dir => ∃ ino, s.inode dir = some ino ∧ ino.data.isdir = true

/-- `sys_open` finds an existing file at `path`. -/
def FileExists (x : fd_process) (path : c_string) : Prop :=
  path ≠ [] ∧ ∃ r s, filesys_open x.fs x.cwd path = .ok (r, s) ∧ s.Opened r

/-- Every slot that may be handed out is in use. -/
def fd_process.Full (x : fd_process) : Prop := ∀ fd, 2 ≤ fd → fd < MAX_FD → x.fd_table fd ≠ .null

/-- **Descriptors are reusable**, as far as one open goes. -/
structure Reuses (x : fd_process) (path : c_string) : Prop where
  /-- A descriptor is found when there is one. -/
  found : ¬ x.Full → ∃ fd y, (sys_open_traced x path).result = .ok (fd, y) ∧ 2 ≤ fd ∧ fd < MAX_FD
  /-- The call fails only when there is none. -/
  fails : ∀ y, (sys_open_traced x path).result = .ok (-1, y) → x.Full
  unused : ∀ fd y, (sys_open_traced x path).result = .ok (fd, y) → 0 ≤ fd →
    x.fd_table fd.toNat = .null
  in_table : Traced.Safe touch.InTable (sys_open_traced x path)

section Opens

variable {x : fd_process} {path : c_string}

/-- Opening an existing file is a search for a slot. -/
theorem sys_open_searches (h : FileExists x path) :
    ∃ s v, sys_open_traced x path = find_unused_fd_traced (x.set_fs s) v := by
  obtain ⟨hne, r, s, hopen, hr⟩ := h
  have hslot : sys_open_traced x path = open_slot_traced (x.set_fs s) r := by
    unfold sys_open_traced
    rw [if_neg hne, hopen]
    rfl
  rw [hslot]
  cases r with
  | null => exact absurd hr id
  | file f =>
      obtain ⟨fl, ino, hf, hi⟩ := hr
      have hget : (x.set_fs s).fs.get_file f = .ok fl := filesys.get_file_eq_ok.mpr hf
      have hino : (x.set_fs s).fs.get_inode fl.inode = .ok ino := filesys.get_inode_eq_ok.mpr hi
      by_cases hdir : ino.data.isdir
      · refine ⟨s.free_file f, .dir fl.inode, ?_⟩
        unfold open_slot_traced
        dsimp only
        rw [hget, Traced.lift_ok_bind, hino, Traced.lift_ok_bind, if_pos hdir]
        rfl
      · refine ⟨s, .file f, ?_⟩
        unfold open_slot_traced
        dsimp only
        rw [hget, Traced.lift_ok_bind, hino, Traced.lift_ok_bind, if_neg hdir]
  | root_dir dir =>
      obtain ⟨ino, hi, hdir⟩ := hr
      have hino : (x.set_fs s).fs.get_inode dir = .ok ino := filesys.get_inode_eq_ok.mpr hi
      refine ⟨s, .dir dir, ?_⟩
      unfold open_slot_traced
      dsimp only
      rw [hino, Traced.lift_ok_bind, if_pos hdir]

/-- **Reuse of descriptors.** At any point of any sequence of calls, opening an existing file does
what it should exactly when some slot from the cursor on is free: slots below it are lost, and
without one the search reads slot `MAX_FD`. -/
theorem descriptors_reused_iff (hx : Reachable x) (hfile : FileExists x path) :
    Reuses x path ↔ ∃ fd, x.fd_idx ≤ fd ∧ fd < MAX_FD ∧ x.fd_table fd = .null := by
  obtain ⟨s, v, hsearch⟩ := sys_open_searches hfile
  constructor
  · intro h
    have hsafe := h.in_table
    rw [hsearch] at hsafe
    have hfree : FreeAhead (x.set_fs s) := (find_unused_fd_safe_iff v).mp hsafe
    exact hfree
  · intro hfree
    have hfree' : FreeAhead (x.set_fs s) := hfree
    obtain ⟨fd, hge, hlt, hnull, hrun⟩ := find_unused_fd_found hfree' v
    have hidx : 2 ≤ fd := Nat.le_trans hx.two_le hge
    have hres : (sys_open_traced x path).result
        = .ok ((fd : ℤ), { (x.set_fs s).set_slot fd v with fd_idx := fd }) := by
      rw [hsearch, find_unused_fd_traced_result, hrun]
    refine ⟨fun _ => ⟨_, _, hres, by omega, by omega⟩, fun y hy => ?_, fun fd' y hy _ => ?_, ?_⟩
    · rw [hres] at hy
      have := (Outcome.ok_pair hy).1
      omega
    · rw [hres] at hy
      rw [← (Outcome.ok_pair hy).1, Int.toNat_natCast]
      exact hnull
    · rw [hsearch]
      exact (find_unused_fd_safe_iff v).mpr hfree'

theorem opened_file {s : filesys} {f : ℕ}
    (h : ((s.file f).bind fun fl => s.inode fl.inode).isSome = true) : s.Opened (.file f) := by
  obtain ⟨ino, h⟩ := Option.isSome_iff_exists.mp h
  obtain ⟨fl, hf, hi⟩ := Option.bind_eq_some_iff.mp h
  exact ⟨fl, ino, hf, hi⟩

/-- The file `/a`, opened by a new process. -/
theorem first_open_reuses : FileExists (process_init_fds file_a none) [SLASH, 97]
    ∧ Reuses (process_init_fds file_a none) [SLASH, 97] := by
  have hrun : (filesys_open file_a none [SLASH, 97]).satisfies (fun q =>
      decide (q.1 = .file 0) && ((q.2.file 0).bind fun fl =>
        q.2.inode fl.inode).isSome) = true := by
    decide +kernel
  obtain ⟨⟨r, s⟩, hopen, hsat⟩ := Outcome.satisfies_iff.mp hrun
  rw [Bool.and_eq_true, decide_eq_true_iff] at hsat
  obtain ⟨rfl, hino⟩ : r = .file 0 ∧ _ := hsat
  have hex : FileExists (process_init_fds file_a none) [SLASH, 97] :=
    ⟨by decide, _, s, hopen, opened_file hino⟩
  exact ⟨hex, (descriptors_reused_iff (.init file_a none) hex).mpr ⟨2, by decide, by decide, rfl⟩⟩

/-! ## A slot that is lost -/

/-- `n` copies of the standard input, from slot 4 on. -/
def fill_slots (n : ℕ) : List fd_call := (List.range n).map fun k : ℕ => .dup2 0 (4 + k : ℕ)

/-- The process after that. -/
def filled (n : ℕ) : fd_process where
  fs := file_a
  cwd := none
  fd_table fd := if fd = 0 ∨ 4 ≤ fd ∧ fd < 4 + n then .stdin else if fd = 1 then .stdout else .null
  fd_idx := 2
  stdin_count := 1 + n
  stdout_count := 1

theorem fd_run_append (cs cs' : List fd_call) (x : fd_process) :
    fd_run (cs ++ cs') x = fd_run cs x >>= fd_run cs' := by
  induction cs generalizing x with
  | nil => rfl
  | cons c cs ih =>
      show fd_step x c >>= fd_run (cs ++ cs') = (fd_step x c >>= fd_run cs) >>= fd_run cs'
      cases fd_step x c with
      | ok y => exact ih y
      | panic => rfl
      | undefined => rfl
      | diverge => rfl

theorem dup_filled (n : ℕ) (hn : 4 + (n + 1) ≤ MAX_FD) :
    sys_dup2 (filled n) 0 (4 + n : ℕ) = .ok (((4 + n : ℕ) : ℤ), filled (n + 1)) := by
  have hin : ¬ (((4 + n : ℕ) : ℤ) < 0 ∨ (MAX_FD : ℤ) ≤ (4 + n : ℕ)) := by omega
  have hzero : (filled n).fd_table 0 = .stdin := by
    unfold filled
    dsimp only
    rw [if_pos (Or.inl rfl)]
  have hslot : (filled n).fd_table (4 + n) = .null := by
    show (if 4 + n = 0 ∨ 4 ≤ 4 + n ∧ 4 + n < 4 + n then _ else _) = _
    rw [if_neg (by omega), if_neg (by omega)]
  unfold sys_dup2
  rw [if_neg (by decide), Int.toNat_zero, hzero, if_neg (by decide), if_neg (by omega)]
  unfold dup_slot
  rw [hzero]
  show (if ((4 + n : ℕ) : ℤ) < 0 ∨ (MAX_FD : ℤ) ≤ (4 + n : ℕ) then _ else _) = _
  rw [if_neg hin, Int.toNat_natCast]
  rw [if_neg fun hne => hne hslot, Outcome.ok_bind]
  have hnext : filled (n + 1) = { filled n with
      fd_table := Function.update (filled n).fd_table (4 + n) ((filled n).fd_table 0)
      stdin_count := (filled n).stdin_count + 1 } := by
    rw [hzero]
    unfold filled
    congr 1
    · funext fd
      rw [Function.update_apply]
      by_cases hfd : fd = 4 + n
      · rw [if_pos hfd, if_pos (by omega)]
      · rw [if_neg hfd, if_congr (by omega : (fd = 0 ∨ 4 ≤ fd ∧ fd < 4 + (n + 1))
          ↔ (fd = 0 ∨ 4 ≤ fd ∧ fd < 4 + n)) rfl rfl]
  rw [hnext]
  rfl

theorem fill_slots_run (n : ℕ) (hn : 4 + n ≤ MAX_FD) :
    fd_run (fill_slots n) (process_init_fds file_a none) = .ok (filled n) := by
  induction n with
  | zero =>
      apply congrArg Outcome.ok
      unfold process_init_fds filled
      congr 1
      funext fd
      rw [if_congr (by omega : fd = 0 ∨ 4 ≤ fd ∧ fd < 4 + 0 ↔ fd = 0) rfl rfl]
  | succ n ih =>
      have hstep : fd_step (filled n) (.dup2 0 (4 + n : ℕ)) = .ok (filled (n + 1)) := by
        rw [fd_step, dup_filled n hn]
        rfl
      unfold fill_slots at ih ⊢
      rw [List.range_succ, List.map_append, fd_run_append, ih (by omega), Outcome.ok_bind]
      show fd_step (filled n) (.dup2 0 (4 + n : ℕ)) >>= fd_run [] = _
      rw [hstep]
      rfl

/-- All slots from 4 on are taken, two files are opened, and the first one is closed again. -/
def lose_slot : List fd_call :=
  fill_slots (MAX_FD - 4) ++ [.open [SLASH, 97], .open [SLASH, 97], .close 2]

/-- Slot 2 is free, and the next open of `/a` reads slot `MAX_FD`. -/
theorem closed_descriptor_lost : ∃ x, fd_run lose_slot (process_init_fds file_a none) = .ok x
    ∧ FileExists x [SLASH, 97] ∧ x.fd_table 2 = .null ∧ ¬ Reuses x [SLASH, 97] := by
  have hrun : (fd_run [.open [SLASH, 97], .open [SLASH, 97], .close 2] (filled (MAX_FD - 4))
      >>= fun x => filesys_open x.fs x.cwd [SLASH, 97] >>= fun q => .ok (x, q)).satisfies
      (fun y => decide (y.1.fd_idx = 3 ∧ y.1.fd_table 2 = fd_slot.null ∧ y.2.1 = .file 2)
        && ((List.range MAX_FD).all fun fd => decide (fd < 3 ∨ y.1.fd_table fd ≠ fd_slot.null))
        && ((y.2.2.file 2).bind fun fl => y.2.2.inode fl.inode).isSome) = true := by
    decide +kernel
  obtain ⟨⟨x, r, s⟩, hret, hsat⟩ := Outcome.satisfies_iff.mp hrun
  obtain ⟨x', hcalls, hret⟩ := Outcome.bind_eq_ok.mp hret
  obtain ⟨⟨r', s'⟩, hopen, hret⟩ := Outcome.bind_eq_ok.mp hret
  obtain ⟨rfl, hq⟩ := Outcome.ok_pair hret
  obtain ⟨rfl, rfl⟩ := Prod.mk.inj hq
  rw [Bool.and_eq_true, Bool.and_eq_true, decide_eq_true_iff, List.all_eq_true] at hsat
  obtain ⟨⟨⟨hidx, hnull, hr⟩, hused⟩, hino⟩ := hsat
  have hr : r' = .file 2 := hr
  subst hr
  have hex : FileExists x' [SLASH, 97] := ⟨by decide, _, s', hopen, opened_file hino⟩
  refine ⟨x', ?_, hex, hnull, fun hreuses => ?_⟩
  · unfold lose_slot
    have hfill := fill_slots_run (MAX_FD - 4) (by decide)
    rw [fd_run_append, hfill, Outcome.ok_bind]
    exact hcalls
  · obtain ⟨s₁, v, hsearch⟩ := sys_open_searches hex
    have hsafe := hreuses.in_table
    rw [hsearch] at hsafe
    obtain ⟨fd, hge, hlt, hfree⟩ : FreeAhead (x'.set_fs s₁) := (find_unused_fd_safe_iff v).mp hsafe
    have hge : x'.fd_idx ≤ fd := hge
    have hidx : x'.fd_idx = 3 := hidx
    rcases of_decide_eq_true (hused fd (List.mem_range.mpr hlt)) with hbelow | hne
    · omega
    · exact hne hfree

end Opens

end Pintos
