/-
`userprog/process.c`: who keeps a running program from being written.

`process_exec` opens the program, denies writing through that handle and keeps it in
`running_file`; the next `process_exec` and `process_exit` drop it. Between the drop of the
old handle and the new denial `process_exec` sleeps in the file system, so it is two steps
here, and other processes act between them; the process has left its old program by then,
and comes back to none if `load` fails. Opening a file denies nothing, and is part of the
second step. `__do_fork` copies the
descriptor table and the memory, but not `running_file`: the child runs the program
without a handle of its own, and depends on the denial of another process.

A program is named by the sector of its inode. Names are looked up in the file system
modules; here a call of `process_exec` comes with what the lookup finds.
-/
import Pintos.Filesys.FileHandles

set_option autoImplicit false

namespace Pintos.programs

/-! ## Processes -/

/-- A live user process: `running_file`, and the program it executes. -/
structure process where
  running_file : Option ℕ
  program : Option ℕ
  deriving DecidableEq, Repr

/-- The processes, over one file system. -/
structure system where
  fs : filesys
  process : ℕ → Option process

/-- `file_allow_write` and `file_close` of `running_file`, if there is one. -/
def drop_running_file (s : filesys) (running_file : Option ℕ) : Outcome filesys :=
  match running_file with
  | none => .ok s
  | some f => do
      let s ← file_allow_write s f
      file_close s f

/-- `inode_open` and `file_open` of what a name was found to be. -/
def open_program (s : filesys) (sector : ℕ) : Outcome (ℕ × filesys) := do
  let (i, s) ← inode_open s sector
  return file_open s i

/-- A process in `process_exec`, behind the drop, and `initd` in front of it. -/
def process.idle : process := { running_file := none, program := none }

/-- `process_exec` by process `p`, up to the drop of the old handle. -/
def process_exec (s : system) (p : ℕ) : Outcome system :=
  match s.process p with
  | none => .panic
  | some pr => do
      let fs ← drop_running_file s.fs pr.running_file
      return { fs := fs, process := Function.update s.process p (some .idle) }

/-- The rest of `process_exec`. `target` is the inode its name leads to, and `loads` tells
if `load` succeeds. After a failure `sys_exec` exits, with `running_file` null. -/
def exec_load (s : system) (p : ℕ) (target : Option ℕ) (loads : Bool) : Outcome system :=
  if s.process p = some .idle then
    match target with
    | none => return { s with process := Function.update s.process p none }
    | some sector => do
        let (new_file, fs) ← open_program s.fs sector
        -- `load` has a handle of its own, and closes it
        let (file, fs) ← open_program fs sector
        let fs ← file_close fs file
        if loads then
          let fs ← file_deny_write fs new_file
          return { fs := fs
                   process := Function.update s.process p
                     (some { running_file := some new_file, program := some sector }) }
        else return { fs := fs, process := Function.update s.process p none }
  else .panic

/-- `process_fork` with `__do_fork`, when it succeeds. -/
def process_fork (s : system) (p child : ℕ) : Outcome system :=
  match s.process p, s.process child with
  | some pr, none =>
      .ok { s with process := Function.update s.process child
                     (some { running_file := none, program := pr.program }) }
  | _, _ => .panic

/-- `process_exit`. -/
def process_exit (s : system) (p : ℕ) : Outcome system :=
  match s.process p with
  | none => .panic
  | some pr => do
      let fs ← drop_running_file s.fs pr.running_file
      return { fs := fs, process := Function.update s.process p none }

/-- What can happen next. -/
inductive event
  /-- `initd` starts; its program comes with its `process_exec`. -/
  | initd (p : ℕ)
  | fork (p child : ℕ)
  | exec (p : ℕ)
  | load (p : ℕ) (target : Option ℕ) (loads : Bool)
  | exit (p : ℕ)
  /-- `process_wait` looks at neither files nor programs. -/
  | wait (p tid : ℕ)
  deriving DecidableEq, Repr

/-- One step. -/
def step (s : system) : event → Outcome system
  | .initd p =>
      match s.process p with
      | none => .ok { s with process := Function.update s.process p
                               (some .idle) }
      | some _ => .panic
  | .fork p child => process_fork s p child
  | .exec p => process_exec s p
  | .load p target loads => exec_load s p target loads
  | .exit p => process_exit s p
  | .wait _ _ => .ok s

/-- A sequence of steps. -/
def run : system → List event → Outcome system
  | s, [] => .ok s
  | s, e :: es => do
      let s ← step s e
      run s es

/-! ## The property -/

/-- Writing to the inode of `sector` is denied. -/
def Denied (s : filesys) (sector : ℕ) : Prop :=
  ∃ i ino, s.inode i = some ino ∧ ino.sector = sector ∧ 0 < ino.deny_write_cnt

/-- **Every running program** is kept from being written. -/
def system.Guarded (s : system) : Prop :=
  ∀ p pr a, s.process p = some pr → pr.program = some a → Denied s.fs a

/-- Process `q`, other than `p`, has a handle on program `a`. -/
def system.Holds (s : system) (p a : ℕ) : Prop :=
  ∃ q qr f, q ≠ p ∧ s.process q = some qr ∧ qr.running_file = some f ∧ qr.program = some a

/-- The condition on a step. When a process drops its handle, any other process that
executes a program must have one with a handle on it left. -/
def StepOk (s : system) : event → Prop
  | .exit p | .exec p =>
      ∀ q qr a, q ≠ p → s.process q = some qr → qr.program = some a → s.Holds p a
  | _ => True

/-- Guarded in every state that the run passes. -/
def GuardedAlong : system → List event → Prop
  | s, [] => s.Guarded
  | s, e :: es => s.Guarded ∧ ∀ s', step s e = .ok s' → GuardedAlong s' es

/-- Every completed step of the run meets the condition. -/
def OkAlong : system → List event → Prop
  | _, [] => True
  | s, e :: es => ∀ s', step s e = .ok s' → StepOk s e ∧ OkAlong s' es

/-! ## Handles and flags -/

/-- Handle `f` denies writing to `sector`. -/
def Denies (s : filesys) (f sector : ℕ) : Prop :=
  ∃ fl ino, s.file f = some fl ∧ fl.deny_write = true ∧ s.inode fl.inode = some ino
    ∧ ino.sector = sector

section Calls

variable {s s' : filesys} {f : ℕ} {fl : file}

theorem Denies.unique {a b : ℕ} (h : Denies s f a) (h' : Denies s f b) : a = b := by
  obtain ⟨fl, ino, hf, -, hi, rfl⟩ := h
  obtain ⟨fl', ino', hf', -, hi', rfl⟩ := h'
  rw [hf] at hf'
  obtain rfl := Option.some.inj hf'
  rw [hi] at hi'
  obtain rfl := Option.some.inj hi'
  rfl

/-- Handles without a flag deny nothing. -/
theorem not_denies_of_flag (hf : s.file f = some fl) (hflag : fl.deny_write = false) (a : ℕ) :
    ¬ Denies s f a := by
  rintro ⟨fl', -, hf', hflag', -⟩
  rw [hf] at hf'
  obtain rfl := Option.some.inj hf'
  rw [hflag] at hflag'
  cases hflag'

theorem not_denies_of_none (hf : s.file f = none) (a : ℕ) : ¬ Denies s f a := by
  rintro ⟨fl', -, hf', -⟩
  rw [hf] at hf'
  cases hf'

/-- A handle that stays denies what it did, as inodes keep their sectors. -/
theorem denies_congr (hs : s.HeldWf fun _ => 0) (hs' : s'.HeldWf fun _ => 0)
    (hfile : s'.file f = s.file f)
    (hsector : ∀ {i ino ino'}, s.inode i = some ino → s'.inode i = some ino' →
      ino'.sector = ino.sector) (a : ℕ) : Denies s' f a ↔ Denies s f a := by
  constructor
  · rintro ⟨fl, ino', hf', hflag, hi', rfl⟩
    have hf := hfile.symm.trans hf'
    obtain ⟨ino, hi⟩ := hs.live hf
    exact ⟨fl, ino, hf, hflag, hi, (hsector hi hi').symm⟩
  · rintro ⟨fl, ino, hf, hflag, hi, rfl⟩
    have hf' := hfile.trans hf
    obtain ⟨ino', hi'⟩ := hs'.live hf'
    exact ⟨fl, ino', hf', hflag, hi', hsector hi hi'⟩

theorem set_inode_sector {i j : ℕ} {ino ino₁ jno jno' : inode} (hi : s.inode i = some ino)
    (hj : s.inode j = some jno) (hj' : (s.set_inode i ino₁).inode j = some jno')
    (h₁ : ino₁.sector = ino.sector) : jno'.sector = jno.sector := by
  rcases filesys.set_inode_cases hj' with ⟨rfl, rfl⟩ | ⟨-, hj'⟩
  · rw [hi] at hj
    obtain rfl := Option.some.inj hj
    exact h₁
  · rw [hj] at hj'
    obtain rfl := Option.some.inj hj'
    rfl

/-- `file_allow_write` leaves the sectors and the other handles. -/
theorem file_allow_write_frame (hf : s.file f = some fl) (h : file_allow_write s f = .ok s') :
    (∀ g, g ≠ f → s'.file g = s.file g) ∧ s'.next_file = s.next_file
      ∧ ∀ {i ino ino'}, s.inode i = some ino → s'.inode i = some ino'
      → ino'.sector = ino.sector := by
  rcases file_allow_write_cases hf h with rfl | ⟨ino, hi, rfl⟩
  · refine ⟨fun _ _ => rfl, rfl, fun {i ino ino'} hi hi' => ?_⟩
    rw [hi] at hi'
    obtain rfl := Option.some.inj hi'
    rfl
  · exact ⟨fun g hg => Function.update_of_ne hg _ _, rfl, fun hj hj' => set_inode_sector
      (s := s.set_file f { fl with deny_write := false }) hi hj hj' rfl⟩

/-- **`file_close`**: the handle's denial is gone, the others stay. -/
theorem file_close_denials (hs : s.HeldWf fun _ => 0) (h : file_close s f = .ok s') :
    s'.HeldWf (fun _ => 0) ∧ (∀ g, g ≠ f → s'.file g = s.file g)
      ∧ (∀ {i ino ino'}, s.inode i = some ino → s'.inode i = some ino' → ino'.sector = ino.sector)
      ∧ ∀ g a, Denies s' g a ↔ Denies s g a ∧ g ≠ f := by
  have hs' := hs.file_close h
  obtain ⟨s₁, hallow, hrest⟩ := Outcome.bind_eq_ok.mp h
  obtain ⟨fl, hf, -⟩ := Outcome.bind_eq_ok.mp hallow
  have hgone := file_close_gone hs.open_wf (filesys.get_file_eq_ok.mp hf) h
  have hframe := file_allow_write_frame (filesys.get_file_eq_ok.mp hf) hallow
  obtain ⟨fl₁, -, hrest⟩ := Outcome.bind_eq_ok.mp hrest
  obtain ⟨s₂, hclose, hret⟩ := Outcome.bind_eq_ok.mp hrest
  obtain rfl := Outcome.ok.inj hret
  have hsector : ∀ {i ino ino'}, s.inode i = some ino → (s₂.free_file f).inode i = some ino' →
      ino'.sector = ino.sector := by
    intro i ino ino' hi hi'
    obtain ⟨jno, hj, hsame⟩ := filesys.inode_close_back hclose hi'
    have hback := congrArg (fun x : inode => x.sector) hsame
    dsimp only at hback
    rw [hback]
    exact hframe.2.2 hi hj
  refine ⟨hs', hgone.others, hsector, fun g a => ?_⟩
  by_cases hg : g = f
  · rw [hg]
    exact iff_of_false (not_denies_of_none hgone.gone a) fun hd => hd.2 rfl
  · rw [denies_congr hs hs' (hgone.others g hg) hsector a]
    exact ⟨fun hd => ⟨hd, hg⟩, fun hd => hd.1⟩

/-- **Dropping `running_file`.** -/
theorem drop_running_file_denials (hs : s.HeldWf fun _ => 0) {running_file : Option ℕ}
    (h : drop_running_file s running_file = .ok s') :
    s'.HeldWf (fun _ => 0) ∧ s'.next_file = s.next_file
      ∧ ∀ g a, Denies s' g a ↔ Denies s g a ∧ running_file ≠ some g := by
  cases running_file with
  | none =>
      obtain rfl := Outcome.ok.inj h
      exact ⟨hs, rfl, fun g a => ⟨fun hd => ⟨hd, by simp⟩, fun hd => hd.1⟩⟩
  | some f =>
      obtain ⟨s₁, hallow, hclose⟩ := Outcome.bind_eq_ok.mp h
      obtain ⟨fl, hf, -⟩ := Outcome.bind_eq_ok.mp hallow
      obtain ⟨s₁', hok, hs₁, hf₁⟩ := hs.file_allow_write (filesys.get_file_eq_ok.mp hf)
      obtain rfl := Outcome.ok.inj (hallow.symm.trans hok)
      obtain ⟨hother, hnext, hsector⟩ :=
        file_allow_write_frame (filesys.get_file_eq_ok.mp hf) hallow
      obtain ⟨hs', -, -, hden⟩ := file_close_denials hs₁ hclose
      have hgone := file_close_gone hs₁.open_wf hf₁ hclose
      refine ⟨hs', hgone.next_file.trans hnext, fun g a => ?_⟩
      rw [hden g a]
      by_cases hg : g = f
      · rw [hg]
        exact iff_of_false (fun hd => hd.2 rfl) fun hd => hd.2 rfl
      · rw [denies_congr hs hs₁ (hother g hg) hsector a]
        refine and_congr_right fun _ => iff_of_true hg fun heq => hg ?_
        exact (Option.some.inj heq).symm

/-- **Opening a program**: a new handle, without a flag, on its inode. -/
theorem open_program_denials (hs : s.HeldWf fun _ => 0) {a : ℕ}
    (h : open_program s a = .ok (f, s')) :
    s'.HeldWf (fun _ => 0) ∧ f = s.next_file ∧ (∀ g, g ≠ f → s'.file g = s.file g)
      ∧ (∃ fl ino, s'.file f = some fl ∧ fl.deny_write = false ∧ s'.inode fl.inode = some ino
        ∧ ino.sector = a)
      ∧ (∀ {i ino ino'}, s.inode i = some ino → s'.inode i = some ino' → ino'.sector = ino.sector)
      ∧ ∀ g b, Denies s' g b ↔ Denies s g b := by
  obtain ⟨⟨i, s₁⟩, hopen, hret⟩ := Outcome.bind_eq_ok.mp h
  have hs' := hs.opened hopen
  cases Outcome.ok.inj hret
  have hframe : (∃ ino, s₁.inode i = some ino ∧ ino.sector = a) ∧ s₁.file = s.file
      ∧ s₁.next_file = s.next_file
      ∧ ∀ {j jno jno'}, s.inode j = some jno → s₁.inode j = some jno'
      → jno'.sector = jno.sector := by
    rcases inode_open_cases hs.open_wf hopen with ⟨ino, hi, hsec, rfl⟩ | ⟨hno, rfl, rfl⟩
    · exact ⟨⟨_, Function.update_self _ _ _, hsec⟩, rfl, rfl,
        fun hj hj' => set_inode_sector hi hj hj' rfl⟩
    · refine ⟨⟨_, Function.update_self _ _ _, rfl⟩, rfl, rfl, fun {j jno jno'} hj hj' => ?_⟩
      rw [filesys.new_inode_old hs.open_wf hj] at hj'
      obtain rfl := Option.some.inj hj'
      rfl
  obtain ⟨⟨ino, hi, hsec⟩, hfile, hnext, hsector⟩ := hframe
  have hother : ∀ g, g ≠ s₁.next_file → (file_open s₁ i).2.file g = s.file g := by
    intro g hg
    rw [← hfile]
    exact Function.update_of_ne hg _ _
  have hself : (file_open s₁ i).2.file s₁.next_file
      = some { inode := i, pos := 0, deny_write := false, dup_count := 1 } :=
      Function.update_self _ _ _
  refine ⟨hs', hnext, hother, ⟨_, ino, hself, rfl, hi, hsec⟩, hsector, fun g b => ?_⟩
  by_cases hg : g = s₁.next_file
  · rw [hg]
    refine iff_of_false (not_denies_of_flag hself rfl b) (not_denies_of_none ?_ b)
    cases hn : s.file s₁.next_file with
    | none => rfl
    | some fl =>
        have hlt := hs.fresh hn
        rw [hnext] at hlt
        exact absurd hlt (lt_irrefl _)
  · exact denies_congr hs hs' (hother g hg) hsector b

/-- **`file_deny_write`** of a handle without the flag. -/
theorem file_deny_write_denials (hs : s.HeldWf fun _ => 0) {ino : inode} (hf : s.file f = some fl)
    (hflag : fl.deny_write = false) (hi : s.inode fl.inode = some ino)
    (h : file_deny_write s f = .ok s') :
    s'.HeldWf (fun _ => 0) ∧ ∀ g b, Denies s' g b ↔ Denies s g b ∨ (g = f ∧ b = ino.sector) := by
  obtain ⟨s₁, hok, hs'⟩ := hs.file_deny_write hf
  obtain rfl := Outcome.ok.inj (h.symm.trans hok)
  obtain ⟨fl', hf', hrest⟩ := Outcome.bind_eq_ok.mp h
  rw [filesys.get_file_eq_ok, hf] at hf'
  obtain rfl := Option.some.inj hf'
  rw [if_neg (by simp [hflag])] at hrest
  obtain ⟨ino', hi', hrest⟩ := Outcome.bind_eq_ok.mp hrest
  rw [filesys.get_inode_eq_ok, hi] at hi'
  obtain rfl := Option.some.inj hi'
  obtain ⟨_, _, hret⟩ := Outcome.bind_eq_ok.mp hrest
  obtain rfl := Outcome.ok.inj hret
  refine ⟨hs', fun g b => ?_⟩
  by_cases hg : g = f
  · subst hg
    have hnew : Denies ((s.set_file g { fl with deny_write := true }).set_inode fl.inode
        { ino with deny_write_cnt := ino.deny_write_cnt + 1 }) g ino.sector :=
      ⟨_, _, Function.update_self _ _ _, rfl, Function.update_self _ _ _, rfl⟩
    constructor
    · intro hd
      exact .inr ⟨rfl, hd.unique hnew⟩
    · rintro (hd | ⟨-, rfl⟩)
      · exact absurd hd (not_denies_of_flag hf hflag b)
      · exact hnew
  · rw [denies_congr hs hs' (Function.update_of_ne hg _ _) ?_ b]
    · exact ⟨fun hd => .inl hd, fun hd => hd.resolve_right fun hgf => hg hgf.1⟩
    · intro i jno jno' hj hj'
      exact set_inode_sector (s := s.set_file f { fl with deny_write := true }) hi hj hj' rfl

end Calls

/-! ## The invariant -/

/-- The flags are those of the running files. -/
structure system.Inv (s : system) : Prop where
  held : s.fs.HeldWf fun _ => 0
  handle : ∀ {p pr f}, s.process p = some pr → pr.running_file = some f →
    ∃ a, pr.program = some a ∧ Denies s.fs f a
  own : ∀ {p q pr qr f}, s.process p = some pr → s.process q = some qr →
    pr.running_file = some f → qr.running_file = some f → p = q
  owner : ∀ {f a}, Denies s.fs f a → ∃ p pr, s.process p = some pr ∧ pr.running_file = some f

namespace system

variable {s s' : system} {p : ℕ} {pr : programs.process}

/-- Nothing runs yet. -/
theorem inv_of_no_process (hheld : s.fs.HeldWf fun _ => 0) (hnone : ∀ p, s.process p = none)
    (hflag : ∀ f a, ¬ Denies s.fs f a) : s.Inv ∧ s.Guarded := by
  refine ⟨⟨hheld, fun {p pr f} hp _ => ?_, fun {p q pr qr f} hp _ _ _ => ?_, fun {f a} hd => ?_⟩,
    fun p pr a hp _ => ?_⟩
  · rw [hnone p] at hp
    cases hp
  · rw [hnone p] at hp
    cases hp
  · exact absurd hd (hflag f a)
  · rw [hnone p] at hp
    cases hp

/-- A program is kept from being written exactly if a process has a handle on it. -/
theorem Inv.denied_iff (h : s.Inv) (a : ℕ) : Denied s.fs a ↔
    ∃ q qr f, s.process q = some qr ∧ qr.running_file = some f ∧ qr.program = some a := by
  constructor
  · rintro ⟨i, ino, hi, rfl, hpos⟩
    rw [h.held.deny hi] at hpos
    have hpos' : 0 < s.fs.handles i true := by exact_mod_cast hpos
    obtain ⟨f, -, hf⟩ := occurrences_pos.mp hpos'
    obtain ⟨fl, hfl, heq⟩ := Option.map_eq_some_iff.mp hf
    have hinode : fl.inode = i := congrArg Prod.fst heq
    have hflag : fl.deny_write = true := congrArg Prod.snd heq
    have hden : Denies s.fs f ino.sector := ⟨fl, ino, hfl, hflag, by rw [hinode]; exact hi, rfl⟩
    obtain ⟨q, qr, hq, hrun⟩ := h.owner hden
    obtain ⟨b, hb, hden'⟩ := h.handle hq hrun
    rw [hden'.unique hden] at hb
    exact ⟨q, qr, f, hq, hrun, hb⟩
  · rintro ⟨q, qr, f, hq, hrun, ha⟩
    obtain ⟨b, hb, fl, ino, hfl, hflag, hi, rfl⟩ := h.handle hq hrun
    rw [ha] at hb
    obtain rfl := Option.some.inj hb
    refine ⟨fl.inode, ino, hi, rfl, ?_⟩
    have hpos : 0 < s.fs.handles fl.inode true := by
      refine occurrences_pos.mpr ⟨f, h.held.fresh hfl, ?_⟩
      rw [filesys.handle_of_file hfl, hflag]
    rw [h.held.deny hi]
    exact_mod_cast hpos

/-- The processes after `p` is gone, or runs no program any more. -/
theorem update_idle_cases {next : Option programs.process} (hnext : ∀ pr ∈ next, pr = .idle) {q : ℕ}
    {qr : programs.process} (h : Function.update s.process p next q = some qr) :
    q = p ∧ qr = .idle ∨ q ≠ p ∧ s.process q = some qr := by
  by_cases hq : q = p
  · rw [hq, Function.update_self] at h
    exact .inl ⟨hq, hnext qr h⟩
  · rw [Function.update_of_ne hq] at h
    exact .inr ⟨hq, h⟩

/-- The processes after `p` has changed. -/
theorem update_some_cases {q : ℕ} {qr : programs.process}
    (h : Function.update s.process p (some pr) q = some qr) :
    (q = p ∧ qr = pr) ∨ (q ≠ p ∧ s.process q = some qr) := by
  by_cases hq : q = p
  · rw [hq, Function.update_self] at h
    exact .inl ⟨hq, (Option.some.inj h).symm⟩
  · rw [Function.update_of_ne hq] at h
    exact .inr ⟨hq, h⟩

/-- A process with a handle is none of those. -/
theorem update_idle_handle {next : Option programs.process}
    (hnext : ∀ pr ∈ next, pr = .idle) {q f : ℕ}
    {qr : programs.process} (h : Function.update s.process p next q = some qr)
    (hf : qr.running_file = some f) : q ≠ p ∧ s.process q = some qr := by
  rcases update_idle_cases hnext h with ⟨-, rfl⟩ | h
  · cases hf
  · exact h

/-- **A process leaves its program**, and drops its handle. -/
theorem Inv.leave (h : s.Inv) (hp : s.process p = some pr) {next : Option programs.process}
    (hnext : ∀ pr ∈ next, pr = .idle) {fs : filesys} (hheld : fs.HeldWf fun _ => 0)
    (hden : ∀ g a, Denies fs g a ↔ Denies s.fs g a ∧ pr.running_file ≠ some g) :
    ({ fs := fs, process := Function.update s.process p next } : system).Inv
      ∧ (({ fs := fs, process := Function.update s.process p next } : system).Guarded ↔
        ∀ q qr a, q ≠ p → s.process q = some qr → qr.program = some a → s.Holds p a) := by
  have hinv : ({ fs := fs, process := Function.update s.process p next } : system).Inv := by
    refine ⟨hheld, fun {q qr f} hq hf => ?_, fun {q q' qr qr' f} hq hq' hf hf' => ?_,
      fun {f a} hd => ?_⟩
    · obtain ⟨hne, hq⟩ := update_idle_handle hnext hq hf
      obtain ⟨a, ha, hd⟩ := h.handle hq hf
      refine ⟨a, ha, (hden f a).mpr ⟨hd, fun hpf => hne ?_⟩⟩
      exact h.own hq hp hf hpf
    · exact h.own (update_idle_handle hnext hq hf).2 (update_idle_handle hnext hq' hf').2 hf hf'
    · obtain ⟨hd, hne⟩ := (hden f a).mp hd
      obtain ⟨q, qr, hq, hf⟩ := h.owner hd
      have hqp : q ≠ p := by
        rintro rfl
        rw [hp] at hq
        obtain rfl := Option.some.inj hq
        exact hne hf
      exact ⟨q, qr, (Function.update_of_ne hqp _ _).trans hq, hf⟩
  refine ⟨hinv, ?_⟩
  constructor
  · intro hguard q qr a hqp hq ha
    obtain ⟨r, rr, f, hr, hf, hra⟩ := (hinv.denied_iff a).mp
      (hguard q qr a ((Function.update_of_ne hqp _ _).trans hq) ha)
    obtain ⟨hrp, hr⟩ := update_idle_handle hnext hr hf
    exact ⟨r, rr, f, hrp, hr, hf, hra⟩
  · intro hall q qr a hq ha
    rcases update_idle_cases hnext hq with ⟨-, rfl⟩ | ⟨hqp, hq⟩
    · cases ha
    obtain ⟨r, rr, f, hrp, hr, hf, hra⟩ := hall q qr a hqp hq ha
    exact (hinv.denied_iff a).mpr ⟨r, rr, f, (Function.update_of_ne hrp _ _).trans hr, hf, hra⟩

/-- **A process gets a program**, with a handle on it. -/
theorem Inv.replace (h : s.Inv) (hp : s.process p = some pr) {fs : filesys}
    (hheld : fs.HeldWf fun _ => 0) {f sector : ℕ} (hfresh : ∀ a, ¬ Denies s.fs f a)
    (hden : ∀ g a, Denies fs g a ↔
      (Denies s.fs g a ∧ pr.running_file ≠ some g) ∨ (g = f ∧ a = sector)) :
    let s' : system := ⟨fs, Function.update s.process p (some ⟨some f, some sector⟩)⟩
    s'.Inv ∧ (s'.Guarded ↔
      ∀ q qr a, q ≠ p → s.process q = some qr → qr.program = some a → s.Holds p a
        ∨ sector = a) := by
  intro s'
  have hother : ∀ {q qr}, q ≠ p → s.process q = some qr → s'.process q = some qr :=
    fun hqp hq => (Function.update_of_ne hqp _ _).trans hq
  have hself : s'.process p = some { running_file := some f, program := some sector } :=
    Function.update_self _ _ _
  -- the new handle is nobody else's
  have hnew : ∀ {q qr}, s.process q = some qr → qr.running_file ≠ some f := by
    intro q qr hq hf
    obtain ⟨a, -, hd⟩ := h.handle hq hf
    exact hfresh a hd
  have hinv : s'.Inv := by
    refine ⟨hheld, fun {q qr g} hq hg => ?_, fun {q q' qr qr' g} hq hq' hg hg' => ?_,
      fun {g a} hd => ?_⟩
    · rcases update_some_cases hq with ⟨-, rfl⟩ | ⟨hqp, hq⟩
      · obtain rfl := Option.some.inj hg
        exact ⟨sector, rfl, (hden _ _).mpr (.inr ⟨rfl, rfl⟩)⟩
      · obtain ⟨a, ha, hd⟩ := h.handle hq hg
        refine ⟨a, ha, (hden g a).mpr (.inl ⟨hd, fun hpg => hqp ?_⟩)⟩
        exact h.own hq hp hg hpg
    · rcases update_some_cases hq with ⟨rfl, rfl⟩ | ⟨-, hq⟩
      · obtain rfl := Option.some.inj hg
        rcases update_some_cases hq' with ⟨rfl, -⟩ | ⟨-, hq'⟩
        · rfl
        · exact absurd hg' (hnew hq')
      · rcases update_some_cases hq' with ⟨-, rfl⟩ | ⟨-, hq'⟩
        · obtain rfl := Option.some.inj hg'
          exact absurd hg (hnew hq)
        · exact h.own hq hq' hg hg'
    · rcases (hden g a).mp hd with ⟨hd, hne⟩ | ⟨rfl, -⟩
      · obtain ⟨q, qr, hq, hg⟩ := h.owner hd
        have hqp : q ≠ p := by
          rintro rfl
          rw [hp] at hq
          obtain rfl := Option.some.inj hq
          exact hne hg
        exact ⟨q, qr, hother hqp hq, hg⟩
      · exact ⟨p, _, hself, rfl⟩
  refine ⟨hinv, ?_⟩
  constructor
  · intro hguard q qr a hqp hq ha
    obtain ⟨r, rr, g, hr, hg, hra⟩ := (hinv.denied_iff a).mp (hguard q qr a (hother hqp hq) ha)
    rcases update_some_cases hr with ⟨-, rfl⟩ | ⟨hrp, hr⟩
    · exact .inr (Option.some.inj hra)
    · exact .inl ⟨r, rr, g, hrp, hr, hg, hra⟩
  · intro hall q qr a hq ha
    apply (hinv.denied_iff a).mpr
    rcases update_some_cases hq with ⟨-, rfl⟩ | ⟨hqp, hq⟩
    · exact ⟨p, _, f, hself, rfl, ha⟩
    · rcases hall q qr a hqp hq ha with ⟨r, rr, g, hrp, hr, hg, hra⟩ | rfl
      · exact ⟨r, rr, g, hother hrp hr, hg, hra⟩
      · exact ⟨p, _, f, hself, rfl, rfl⟩

/-- **A process without a handle** comes, with a program that another one executes. -/
theorem Inv.add (h : s.Inv) (hp : s.process p = none) (program : Option ℕ) :
    let s' : system := ⟨s.fs, Function.update s.process p (some ⟨none, program⟩)⟩
    s'.Inv ∧ (s.Guarded → (∀ a, program = some a → Denied s.fs a) → s'.Guarded) := by
  intro s'
  refine ⟨⟨h.held, fun {q qr f} hq hf => ?_, fun {q q' qr qr' f} hq hq' hf hf' => ?_,
    fun {f a} hd => ?_⟩, fun hguard hprogram q qr a hq ha => ?_⟩
  · rcases update_some_cases hq with ⟨-, rfl⟩ | ⟨-, hq⟩
    · cases hf
    · exact h.handle hq hf
  · rcases update_some_cases hq with ⟨-, rfl⟩ | ⟨-, hq⟩
    · cases hf
    · rcases update_some_cases hq' with ⟨-, rfl⟩ | ⟨-, hq'⟩
      · cases hf'
      · exact h.own hq hq' hf hf'
  · obtain ⟨q, qr, hq, hf⟩ := h.owner hd
    have hqp : q ≠ p := by
      rintro rfl
      rw [hp] at hq
      cases hq
    exact ⟨q, qr, (Function.update_of_ne hqp _ _).trans hq, hf⟩
  · rcases update_some_cases hq with ⟨-, rfl⟩ | ⟨-, hq⟩
    · exact hprogram a ha
    · exact hguard q qr a hq ha

/-- A process without a handle protects nobody. -/
theorem Inv.others (h : s.Inv) (hp : s.process p = some pr) (hnone : pr.running_file = none)
    (hguard : s.Guarded) :
    ∀ q qr a, q ≠ p → s.process q = some qr → qr.program = some a → s.Holds p a := by
  intro q qr a _ hq ha
  obtain ⟨r, rr, f, hr, hf, hra⟩ := (h.denied_iff a).mp (hguard q qr a hq ha)
  refine ⟨r, rr, f, ?_, hr, hf, hra⟩
  rintro rfl
  rw [hp] at hr
  obtain rfl := Option.some.inj hr
  rw [hnone] at hf
  cases hf

/-- **The rest of `process_exec`** takes a denial from nobody. -/
theorem Inv.exec_load (h : s.Inv) {target : Option ℕ} {loads : Bool}
    (hrun : exec_load s p target loads = .ok s') : s'.Inv ∧ (s.Guarded → s'.Guarded) := by
  unfold programs.exec_load at hrun
  split at hrun
  case isFalse => cases hrun
  case isTrue hp =>
    have hgone : ∀ pr ∈ (none : Option programs.process), pr = .idle :=
      fun pr hpr => absurd hpr (Option.not_mem_none pr)
    have hkept : ∀ g a, Denies s.fs g a ↔ Denies s.fs g a ∧ process.idle.running_file ≠ some g :=
      fun g a => ⟨fun hd => ⟨hd, fun hf => nomatch hf⟩, fun hd => hd.1⟩
    cases target with
    | none =>
        obtain rfl := Outcome.ok.inj hrun
        obtain ⟨hinv, hiff⟩ := h.leave hp hgone h.held hkept
        exact ⟨hinv, fun hguard => hiff.mpr (h.others hp rfl hguard)⟩
    | some sector =>
        obtain ⟨⟨f, fs₁⟩, hopen, hrun⟩ := Outcome.bind_eq_ok.mp hrun
        obtain ⟨hheld₁, hf, -, ⟨fl, ino, hfl, hflag, hi, hsec⟩, -, hden₁⟩ :=
          open_program_denials h.held hopen
        obtain ⟨⟨g, fs₂⟩, hload, hrun⟩ := Outcome.bind_eq_ok.mp hrun
        obtain ⟨hheld₂, hg, hother₂, -, hsector₂, hden₂⟩ := open_program_denials hheld₁ hload
        obtain ⟨fs₃, hclose, hrun⟩ := Outcome.bind_eq_ok.mp hrun
        obtain ⟨hheld₃, hother₃, hsector₃, hden₃⟩ := file_close_denials hheld₂ hclose
        -- what is denied is what was denied before
        have hfg : f ≠ g := by
          intro hfg
          have hlt := hheld₁.fresh hfl
          rw [hfg, hg] at hlt
          exact absurd hlt (lt_irrefl _)
        have hsame : ∀ k a, Denies fs₃ k a ↔ Denies s.fs k a
            ∧ process.idle.running_file ≠ some k := by
          intro k a
          rw [hden₃, hden₂, hden₁, ← hkept]
          refine ⟨fun hd => hd.1, fun hd => ⟨hd, ?_⟩⟩
          rintro rfl
          obtain ⟨kl, -, hk, -⟩ := (hden₁ k a).mpr hd
          have hlt := hheld₁.fresh hk
          rw [hg] at hlt
          exact absurd hlt (lt_irrefl _)
        cases loads with
        | false =>
            obtain rfl := Outcome.ok.inj hrun
            obtain ⟨hinv, hiff⟩ := h.leave hp hgone hheld₃ hsame
            exact ⟨hinv, fun hguard => hiff.mpr (h.others hp rfl hguard)⟩
        | true =>
            rw [if_pos rfl] at hrun
            obtain ⟨fs₄, hdeny, hret⟩ := Outcome.bind_eq_ok.mp hrun
            obtain rfl := Outcome.ok.inj hret
            have hfl₂ : fs₂.file f = some fl := (hother₂ f hfg).trans hfl
            have hfl₃ : fs₃.file f = some fl := (hother₃ f hfg).trans hfl₂
            obtain ⟨ino₂, hi₂⟩ := hheld₂.live hfl₂
            obtain ⟨ino₃, hi₃⟩ := hheld₃.live hfl₃
            have hsec₃ : ino₃.sector = sector := by
              rw [hsector₃ hi₂ hi₃, hsector₂ hi hi₂]
              exact hsec
            obtain ⟨hheld₄, hden₄⟩ := file_deny_write_denials hheld₃ hfl₃ hflag hi₃ hdeny
            have hfresh : ∀ a, ¬ Denies s.fs f a := by
              rintro a ⟨kl, -, hk, -⟩
              have hlt := h.held.fresh hk
              rw [hf] at hlt
              exact absurd hlt (lt_irrefl _)
            have hfinal : ∀ k a, Denies fs₄ k a ↔
                (Denies s.fs k a ∧ process.idle.running_file ≠ some k) ∨ (k = f ∧ a = sector) := by
              intro k a
              rw [hden₄, hsame, hsec₃]
            obtain ⟨hinv, hiff⟩ := h.replace hp hheld₄ hfresh hfinal
            exact ⟨hinv, fun hguard => hiff.mpr fun q qr a hqp hq ha =>
              .inl (h.others hp rfl hguard q qr a hqp hq ha)⟩

/-- **One step.** -/
theorem Inv.step (h : s.Inv) {e : event} (hstep : step s e = .ok s') :
    s'.Inv ∧ (s.Guarded → (s'.Guarded ↔ StepOk s e)) := by
  cases e with
  | initd p =>
      unfold programs.step at hstep
      cases hp : s.process p with
      | some pr =>
          simp only [hp] at hstep
          cases hstep
      | none =>
          simp only [hp] at hstep
          obtain rfl := Outcome.ok.inj hstep
          obtain ⟨hinv, hkeep⟩ := h.add hp none
          refine ⟨hinv, fun hguard => iff_of_true (hkeep hguard fun a ha => ?_) trivial⟩
          cases ha
  | fork p child =>
      unfold programs.step process_fork at hstep
      dsimp only at hstep
      split at hstep
      case h_1 pr hp hchild =>
        obtain rfl := Outcome.ok.inj hstep
        obtain ⟨hinv, hkeep⟩ := h.add hchild pr.program
        refine ⟨hinv, fun hguard => iff_of_true (hkeep hguard fun a ha => ?_) trivial⟩
        exact hguard p pr a hp ha
      case h_2 => cases hstep
  | load p target loads =>
      obtain ⟨hinv, hkeep⟩ := h.exec_load hstep
      exact ⟨hinv, fun hguard => iff_of_true (hkeep hguard) trivial⟩
  | exec p =>
      unfold programs.step process_exec at hstep
      cases hp : s.process p with
      | none =>
          simp only [hp] at hstep
          cases hstep
      | some pr =>
          simp only [hp] at hstep
          obtain ⟨fs, hdrop, hret⟩ := Outcome.bind_eq_ok.mp hstep
          obtain rfl := Outcome.ok.inj hret
          obtain ⟨hheld, -, hden⟩ := drop_running_file_denials h.held hdrop
          obtain ⟨hinv, hiff⟩ := h.leave hp (fun pr hpr => (Option.some.inj hpr).symm) hheld hden
          exact ⟨hinv, fun _ => hiff⟩
  | exit p =>
      unfold programs.step process_exit at hstep
      cases hp : s.process p with
      | none =>
          simp only [hp] at hstep
          cases hstep
      | some pr =>
          simp only [hp] at hstep
          obtain ⟨fs, hdrop, hret⟩ := Outcome.bind_eq_ok.mp hstep
          obtain rfl := Outcome.ok.inj hret
          obtain ⟨hheld, -, hden⟩ := drop_running_file_denials h.held hdrop
          obtain ⟨hinv, hiff⟩ := h.leave hp
            (fun pr hpr => absurd hpr (Option.not_mem_none pr)) hheld hden
          exact ⟨hinv, fun _ => hiff⟩
  | wait p tid =>
      obtain rfl := Outcome.ok.inj hstep
      exact ⟨h, fun hguard => iff_of_true hguard trivial⟩

/-- **Runs** keep the invariant. -/
theorem Inv.run (h : s.Inv) {es : List event} (hrun : run s es = .ok s') : s'.Inv := by
  induction es generalizing s with
  | nil =>
      obtain rfl := Outcome.ok.inj hrun
      exact h
  | cons e es ih =>
      obtain ⟨s₁, hstep, hrest⟩ := Outcome.bind_eq_ok.mp hrun
      exact ih (h.step hstep).1 hrest

end system

theorem GuardedAlong.guarded {s : system} {es : List event} (h : GuardedAlong s es) :
    s.Guarded := by
  cases es with
  | nil => exact h
  | cons e es => exact h.1

/-- **Runs.** Every running program is kept from being written in all states of a run if and
only if all its steps meet the condition. -/
theorem executable_denied_along_iff (es : List event) {s : system} (h : s.Inv)
    (hguard : s.Guarded) : GuardedAlong s es ↔ OkAlong s es := by
  induction es generalizing s with
  | nil => exact ⟨fun _ => trivial, fun _ => hguard⟩
  | cons e es ih =>
      constructor
      · rintro ⟨-, hall⟩ s' hstep
        obtain ⟨hinv', hiff⟩ := h.step hstep
        have hguard' := (hall s' hstep).guarded
        exact ⟨(hiff hguard).mp hguard', (ih hinv' hguard').mp (hall s' hstep)⟩
      · intro hok
        refine ⟨hguard, fun s' hstep => ?_⟩
        -- the step meets its condition, so the rest starts from a guarded state
        obtain ⟨hstepok, hrest⟩ := hok s' hstep
        obtain ⟨hinv', hiff⟩ := h.step hstep
        exact (ih hinv' ((hiff hguard).mpr hstepok)).mpr hrest

/-! ### Two runs -/

/-- The file system with one file, and no process yet. -/
def boot : system where
  fs := inode_holders.one_file.fs
  process _ := none

theorem boot_inv : boot.Inv ∧ boot.Guarded :=
  system.inv_of_no_process inode_holders.one_file_held (fun _ => rfl)
    fun _ a => not_denies_of_none rfl a

/-- The child exits before its parent. -/
def child_first : List event :=
  [.initd 1, .exec 1, .load 1 (some 3) true, .fork 1 2, .exit 2, .exit 1]

/-- The parent exits before its child. -/
def parent_first : List event := [.initd 1, .exec 1, .load 1 (some 3) true, .fork 1 2, .exit 1]

/-- What a successful `process_exec` does to the processes. -/
theorem exec_load_process {s s' : system} {p a : ℕ} (h : exec_load s p (some a) true = .ok s') :
    ∃ f, s'.process = Function.update s.process p (some ⟨some f, some a⟩) := by
  unfold exec_load at h
  split at h
  case isFalse => cases h
  case isTrue =>
    obtain ⟨⟨f, _⟩, _, h⟩ := Outcome.bind_eq_ok.mp h
    obtain ⟨⟨_, _⟩, _, h⟩ := Outcome.bind_eq_ok.mp h
    obtain ⟨_, _, h⟩ := Outcome.bind_eq_ok.mp h
    rw [if_pos rfl] at h
    obtain ⟨_, _, h⟩ := Outcome.bind_eq_ok.mp h
    obtain rfl := Outcome.ok.inj h
    exact ⟨f, rfl⟩

theorem process_exec_process {s s' : system} {p : ℕ} (h : process_exec s p = .ok s') :
    s'.process = Function.update s.process p (some .idle) := by
  unfold process_exec at h
  split at h
  · cases h
  · obtain ⟨_, _, h⟩ := Outcome.bind_eq_ok.mp h
    obtain rfl := Outcome.ok.inj h
    rfl

theorem process_exit_process {s s' : system} {p : ℕ} (h : process_exit s p = .ok s') :
    s'.process = Function.update s.process p none := by
  unfold process_exit at h
  split at h
  · cases h
  · obtain ⟨_, _, h⟩ := Outcome.bind_eq_ok.mp h
    obtain rfl := Outcome.ok.inj h
    rfl

/-- With the parent still there, its handle protects the program until the end. -/
theorem child_first_guarded : (run boot child_first).Returns ∧ GuardedAlong boot child_first := by
  have hruns : (run boot child_first).satisfies (fun _ => true) = true := by decide +kernel
  obtain ⟨s, hrun, -⟩ := Outcome.satisfies_iff.mp hruns
  refine ⟨⟨s, hrun⟩, (executable_denied_along_iff _ boot_inv.1 boot_inv.2).mpr ?_⟩
  intro s₁ h₁
  have hs₁ : s₁.process = Function.update (fun _ => none) 1 (some .idle) := by
    obtain rfl := Outcome.ok.inj h₁
    rfl
  refine ⟨trivial, fun s₁' h₁' => ?_⟩
  have hs₁' := process_exec_process (p := 1) h₁'
  rw [hs₁, Function.update_idem] at hs₁'
  have hone : ∀ {q qr} {pr : process},
      Function.update (fun _ => none) 1 (some pr) q = some qr → q = 1 := by
    intro q qr pr hq
    by_contra hne
    rw [Function.update_of_ne hne] at hq
    cases hq
  refine ⟨fun q qr a hq hp => ?_, fun s₂ h₂ => ⟨trivial, fun s₃ h₃ => ⟨trivial, fun s₄ h₄ => ?_⟩⟩⟩
  · rw [hs₁] at hp
    exact absurd (hone hp) hq
  obtain ⟨f, hs₂⟩ := exec_load_process (p := 1) (a := 3) h₂
  rw [hs₁', Function.update_idem] at hs₂
  have hparent : s₂.process 1 = some ⟨some f, some 3⟩ := by
    rw [hs₂, Function.update_self]
  have hs₃ : s₃.process = Function.update s₂.process 2 (some ⟨none, some 3⟩) := by
    have hchild : s₂.process 2 = none := by
      rw [hs₂, Function.update_of_ne (by decide)]
    unfold step process_fork at h₃
    simp only [hparent, hchild] at h₃
    obtain rfl := Outcome.ok.inj h₃
    rfl
  have hs₄ := process_exit_process (p := 2) h₄
  have hparent₃ : s₃.process 1 = some ⟨some f, some 3⟩ := by
    rw [hs₃, Function.update_of_ne (by decide), hparent]
  have hrest : ∀ {q qr}, q ≠ 2 → s₃.process q = some qr → q = 1 := by
    intro q qr hq2 hq
    rw [hs₃, Function.update_of_ne hq2, hs₂] at hq
    exact hone hq
  refine ⟨fun q qr a hq hp ha => ?_, fun s₅ h₅ => ⟨fun q qr a hq hp => ?_, trivial⟩⟩
  · -- the parent executes the program, and has a handle on it
    obtain rfl := hrest hq hp
    rw [hparent₃] at hp
    obtain rfl := Option.some.inj hp
    exact ⟨1, _, f, by decide, hparent₃, rfl, ha⟩
  · rw [hs₄] at hp
    obtain ⟨-, rfl⟩ | ⟨hq2, hp⟩ := system.update_idle_cases
      (fun pr hpr => absurd hpr (Option.not_mem_none pr)) hp
    · rintro ⟨⟩
    exact absurd (hrest hq2 hp) hq

/-- With the parent gone, nothing protects the program that the child executes. -/
theorem parent_first_unguarded : ∃ s, run boot parent_first = .ok s
    ∧ s.process 2 = some ⟨none, some 3⟩ ∧ ¬ Denied s.fs 3 := by
  have hruns : (run boot parent_first).satisfies
      (fun s => s.process 2 = some ⟨none, some 3⟩ ∧ s.fs.open_inodes = [])
      = true := by decide +kernel
  obtain ⟨s, hrun, hstate⟩ := Outcome.satisfies_iff.mp hruns
  obtain ⟨hchild, hempty⟩ := of_decide_eq_true hstate
  refine ⟨s, hrun, hchild, ?_⟩
  rintro ⟨i, ino, hi, -⟩
  have hmem := ((boot_inv.1.run hrun).held.open_wf.listed i).mpr ⟨ino, hi⟩
  rw [hempty] at hmem
  cases hmem

end Pintos.programs
