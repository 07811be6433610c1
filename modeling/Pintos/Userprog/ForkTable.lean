/-
`userprog/process.c`: the descriptor table of a forked process.

`__do_fork` walks the table slot by slot. Slots 0 and 1 are copied as pointers, whatever they
hold; a file in any other slot is duplicated on its own, so two slots of the parent that share
a `struct file` after `sys_dup2` become two slots with a file each. Sharing survives only
between slots 0 and 1.
-/
import Pintos.Userprog.Descriptors

set_option autoImplicit false

namespace Pintos

/-! ## The functions -/

/-- One pass of the loop: what slot `fd` of the child gets. -/
def fork_slot (s : filesys) (fd : ℕ) (slot : fd_slot) : Outcome (fd_slot × filesys) :=
  if fd ≤ 1 then .ok (slot, s)
  else
    match slot with
    | .null | .stdin | .stdout => .ok (slot, s)
    | .file f => do
        let (nfile, s) ← file_duplicate s f
        return (.file nfile, s)
    -- A `struct dir` is read as a `struct file`, behind its end.
    | .dir _ => .undefined

/-- The loop, from slot 0 up to slot `n - 1`. -/
def fork_table (parent : ℕ → fd_slot) : ℕ → fd_process → Outcome fd_process
  | 0, child => .ok child
  | n + 1, child => do
      let child ← fork_table parent n child
      let (slot, s) ← fork_slot child.fs n (parent n)
      return (child.set_fs s).set_slot n slot

/-- `__do_fork` from `process_init` on: the parent, and the child unless it fails. -/
def do_fork_fds (parent : fd_process) : Outcome (fd_process × Option fd_process) := do
  let (root, s) ← dir_open_root parent.fs
  let child := process_init_fds s (some root)
  if parent.fd_idx = MAX_FD then return (parent.set_fs s, none)
  else
    let child ← fork_table parent.fd_table MAX_FD child
    match parent.cwd with
    -- `dir_reopen` follows the pointer.
    | none => .panic
    | some dir =>
        let (cwd, s) ← dir_reopen child.fs dir
        return (parent.set_fs s, some { child with
          fs := s
          cwd := some cwd
          fd_idx := parent.fd_idx
          stdin_count := parent.stdin_count
          stdout_count := parent.stdout_count })

/-! ## One slot -/

section Slot

variable {s s' : filesys} {f g : ℕ} {p n : ℤ}

theorem file_deny_write_file (hf : s.file f = some ⟨g, p, false, n⟩)
    (h : file_deny_write s f = .ok s') :
    s'.file = Function.update s.file f (some ⟨g, p, true, n⟩) ∧ s'.next_file = s.next_file := by
  obtain ⟨fl, hfl, h⟩ := Outcome.bind_eq_ok.mp h
  rw [filesys.get_file_eq_ok, hf] at hfl
  obtain rfl := Option.some.inj hfl
  obtain ⟨ino, -, h⟩ := Outcome.bind_eq_ok.mp h
  obtain ⟨-, -, h⟩ := Outcome.bind_eq_ok.mp h
  obtain rfl := Outcome.ok.inj h
  exact ⟨rfl, rfl⟩

/-- **What `file_duplicate` makes**: a file of its own, at the same place. -/
theorem file_duplicate_new (h : file_duplicate s f = .ok (g, s')) :
    g = s.next_file ∧ s'.next_file = s.next_file + 1 ∧ ∃ fl, s.file f = some fl
      ∧ ∃ b, s'.file = Function.update s.file s.next_file (some ⟨fl.inode, fl.pos, b, 1⟩) := by
  obtain ⟨fl, hfl, h⟩ := Outcome.bind_eq_ok.mp h
  obtain ⟨⟨n, s₁⟩, hre, h⟩ := Outcome.bind_eq_ok.mp h
  obtain ⟨nfl, hnfl, h⟩ := Outcome.bind_eq_ok.mp h
  obtain ⟨fl', hfl', hre⟩ := Outcome.bind_eq_ok.mp hre
  obtain rfl := Outcome.ok.inj (hfl.symm.trans hfl')
  obtain ⟨s₀, hreopen, hre⟩ := Outcome.bind_eq_ok.mp hre
  obtain ⟨rfl, rfl⟩ := Outcome.ok_pair hre
  obtain ⟨ino, -, rfl⟩ := inode_reopen_eq_ok hreopen
  rw [filesys.get_file_eq_ok] at hfl hnfl
  have hnew : nfl = ⟨fl.inode, 0, false, 1⟩ :=
    Option.some.inj (hnfl.symm.trans (Function.update_self _ _ _))
  subst hnew
  dsimp only at h
  by_cases hflag : fl.deny_write = true
  · rw [if_pos hflag] at h
    obtain ⟨s₂, hdeny, h⟩ := Outcome.bind_eq_ok.mp h
    obtain ⟨rfl, rfl⟩ := Outcome.ok_pair h
    obtain ⟨hfile, hnext⟩ := file_deny_write_file (Function.update_self _ _ _) hdeny
    refine ⟨rfl, hnext, fl, hfl, true, ?_⟩
    rw [hfile]
    change Function.update (Function.update (Function.update s.file s.next_file _) s.next_file _)
      s.next_file _ = _
    rw [Function.update_idem, Function.update_idem]
  · rw [if_neg hflag] at h
    obtain ⟨rfl, rfl⟩ := Outcome.ok_pair h
    refine ⟨rfl, rfl, fl, hfl, false, ?_⟩
    change Function.update (Function.update s.file s.next_file _) s.next_file _ = _
    rw [Function.update_idem]

/-- **One pass**: the pointer is copied, or a file is made. -/
theorem fork_slot_cases {fd : ℕ} {slot v : fd_slot} (h : fork_slot s fd slot = .ok (v, s')) :
    (v = slot ∧ s' = s ∧ (2 ≤ fd → ∀ f, slot ≠ .file f))
    ∨ 2 ≤ fd ∧ ∃ f, slot = .file f ∧ v = .file s.next_file ∧ s'.next_file = s.next_file + 1
      ∧ ∃ fl, s.file f = some fl
        ∧ ∃ b, s'.file = Function.update s.file s.next_file (some ⟨fl.inode, fl.pos, b, 1⟩) := by
  unfold fork_slot at h
  by_cases hfd : fd ≤ 1
  · rw [if_pos hfd] at h
    obtain ⟨rfl, rfl⟩ := Outcome.ok_pair h
    exact .inl ⟨rfl, rfl, fun hge => by omega⟩
  · rw [if_neg hfd] at h
    cases slot with
    | null | stdin | stdout =>
        obtain ⟨rfl, rfl⟩ := Outcome.ok_pair h
        exact .inl ⟨rfl, rfl, fun _ _ => nofun⟩
    | file f =>
        obtain ⟨⟨g, s₁⟩, hdup, h⟩ := Outcome.bind_eq_ok.mp h
        obtain ⟨rfl, rfl⟩ := Outcome.ok_pair h
        obtain ⟨rfl, hnext, hfile⟩ := file_duplicate_new hdup
        exact .inr ⟨by omega, f, rfl, rfl, hnext, hfile⟩
    | dir i => cases h

end Slot

/-! ## The loop -/

/-- Slot `fd` of the child after its pass: `first` is the number of the first file the loop
makes. -/
def SlotCopied (parent : ℕ → fd_slot) (first : ℕ) (s : filesys) (child : ℕ → fd_slot)
    (fd : ℕ) : Prop :=
  (child fd = parent fd ∧ (2 ≤ fd → ∀ f, parent fd ≠ .file f))
    ∨ 2 ≤ fd ∧ ∃ f g fl b, parent fd = .file f ∧ child fd = .file g ∧ s.file f = some fl
      ∧ s.file g = some ⟨fl.inode, fl.pos, b, 1⟩ ∧ first ≤ g ∧ g < s.next_file

/-- The child after `n` passes, from `s₀` on. -/
structure TableCopied (parent : ℕ → fd_slot) (s₀ : filesys) (n : ℕ)
    (child : fd_process) : Prop where
  next_file : s₀.next_file ≤ child.fs.next_file
  /-- The files that were there are left alone. -/
  old : ∀ f < s₀.next_file, child.fs.file f = s₀.file f
  slot : ∀ fd < n, SlotCopied parent s₀.next_file child.fs child.fd_table fd
  /-- No two passes make one file. -/
  inj : ∀ j < n, ∀ k < n, 2 ≤ j → 2 ≤ k → ∀ g, child.fd_table j = .file g →
    child.fd_table k = .file g → j = k

section Loop

variable {parent : ℕ → fd_slot} {s₀ : filesys} {child child' : fd_process} {n : ℕ}

/-- A later pass leaves a slot as it is. -/
theorem SlotCopied.mono {s s' : filesys} {first fd : ℕ} {t t' : ℕ → fd_slot}
    (h : SlotCopied parent first s t fd) (ht : t' fd = t fd) (hnext : s.next_file ≤ s'.next_file)
    (hfile : ∀ f < s.next_file, s'.file f = s.file f)
    (hold : ∀ f, parent fd = .file f → f < s.next_file) :
    SlotCopied parent first s' t' fd := by
  rcases h with ⟨heq, hno⟩ | ⟨hfd, f, g, fl, b, hp, hc, hf, hg, hge, hlt⟩
  · exact .inl ⟨ht.trans heq, hno⟩
  · refine .inr ⟨hfd, f, g, fl, b, hp, ht.trans hc, ?_, ?_, hge, hlt.trans_le hnext⟩
    · rw [hfile f (hold f hp)]
      exact hf
    · rw [hfile g hlt]
      exact hg

theorem TableCopied.init : TableCopied parent child.fs 0 child :=
  ⟨le_rfl, fun _ _ => rfl, fun _ h => absurd h (Nat.not_lt_zero _),
    fun _ h => absurd h (Nat.not_lt_zero _)⟩

/-- A file the loop has made is in a slot of its own. -/
theorem TableCopied.made (h : TableCopied parent s₀ n child) {fd g : ℕ} (hlt : fd < n)
    (hfd : 2 ≤ fd)
    (hg : child.fd_table fd = .file g) : s₀.next_file ≤ g ∧ g < child.fs.next_file := by
  rcases h.slot fd hlt with ⟨heq, hno⟩ | ⟨-, f, g', fl, b, -, hc, -, -, hge, hlt⟩
  · exact absurd (heq.symm.trans hg) (hno hfd g)
  · rw [hg] at hc
    obtain rfl := fd_slot.file.inj hc
    exact ⟨hge, hlt⟩

theorem TableCopied.step (h : TableCopied parent s₀ n child) (hn : n < MAX_FD)
    (hold : ∀ fd < MAX_FD, ∀ f, parent fd = .file f → f < s₀.next_file)
    {slot : fd_slot} {s : filesys}
    (hslot : fork_slot child.fs n (parent n) = .ok (slot, s)) :
    TableCopied parent s₀ (n + 1) ((child.set_fs s).set_slot n slot) := by
  have hbefore : ∀ fd < n, ((child.set_fs s).set_slot n slot).fd_table fd = child.fd_table fd :=
    fun fd hfd => Function.update_of_ne hfd.ne _ _
  have hhere : ((child.set_fs s).set_slot n slot).fd_table n = slot := Function.update_self _ _ _
  have hof : ∀ fd ≤ n, ∀ f, parent fd = .file f → f < child.fs.next_file :=
    fun fd hfd f hf => (hold fd (hfd.trans_lt hn) f hf).trans_le h.next_file
  rcases fork_slot_cases hslot with ⟨rfl, rfl, hno⟩ | ⟨hn2, f, hpar, rfl, hnext, fl, hfl, b, hfile⟩
  · refine ⟨h.next_file, h.old, fun fd hfd => ?_, fun j hj k hk hj2 hk2 g hjg hkg => ?_⟩
    · rcases Nat.lt_succ_iff_lt_or_eq.mp hfd with hfd | rfl
      · exact (h.slot fd hfd).mono (hbefore fd hfd) le_rfl (fun _ _ => rfl) (hof fd hfd.le)
      · exact .inl ⟨hhere, hno⟩
    · -- Slot `n` holds no file here, or is one of the first two.
      have hlast : ∀ i, 2 ≤ i → ((child.set_fs child.fs).set_slot n (parent n)).fd_table i = .file g
          → i ≠ n := by
        rintro i hi hig rfl
        exact hno hi g (hhere.symm.trans hig)
      have hj' : j < n := by have := hlast j hj2 hjg; omega
      have hk' : k < n := by have := hlast k hk2 hkg; omega
      rw [hbefore j hj'] at hjg
      rw [hbefore k hk'] at hkg
      exact h.inj j hj' k hk' hj2 hk2 g hjg hkg
  · have hkeep : ∀ f < child.fs.next_file, s.file f = child.fs.file f := by
      intro f hf
      rw [hfile, Function.update_of_ne hf.ne]
    have hle : child.fs.next_file ≤ s.next_file := by omega
    refine ⟨h.next_file.trans hle, fun f hf => ?_, fun fd hfd => ?_,
      fun j hj k hk hj2 hk2 g hjg hkg => ?_⟩
    · exact (hkeep f (hf.trans_le h.next_file)).trans (h.old f hf)
    · rcases Nat.lt_succ_iff_lt_or_eq.mp hfd with hfd | rfl
      · exact (h.slot fd hfd).mono (hbefore fd hfd) hle hkeep (hof fd hfd.le)
      · refine .inr ⟨hn2, f, child.fs.next_file, fl, b, hpar, hhere, ?_, ?_, h.next_file, ?_⟩
        · exact (hkeep f (hof fd le_rfl f hpar)).trans hfl
        · show s.file child.fs.next_file = _
          rw [hfile, Function.update_self]
        · show child.fs.next_file < s.next_file
          omega
    · -- The new file is above all those made before.
      have hnew : ∀ i < n, 2 ≤ i → child.fd_table i ≠ .file child.fs.next_file := by
        intro i hi hi2 hig
        exact lt_irrefl _ (h.made hi hi2 hig).2
      rcases Nat.lt_succ_iff_lt_or_eq.mp hj with hj | rfl
      · rw [hbefore j hj] at hjg
        rcases Nat.lt_succ_iff_lt_or_eq.mp hk with hk | rfl
        · rw [hbefore k hk] at hkg
          exact h.inj j hj k hk hj2 hk2 g hjg hkg
        · obtain rfl := fd_slot.file.inj (hhere.symm.trans hkg)
          exact absurd hjg (hnew j hj hj2)
      · rcases Nat.lt_succ_iff_lt_or_eq.mp hk with hk | rfl
        · rw [hbefore k hk] at hkg
          obtain rfl := fd_slot.file.inj (hhere.symm.trans hjg)
          exact absurd hkg (hnew k hk hk2)
        · rfl

theorem TableCopied.loop (hold : ∀ fd < MAX_FD, ∀ f, parent fd = .file f → f < child.fs.next_file) :
    ∀ {n : ℕ} {child'}, n ≤ MAX_FD → fork_table parent n child = .ok child' →
      TableCopied parent child.fs n child'
  | 0, child', _, h => by
      obtain rfl := Outcome.ok.inj h
      exact .init
  | n + 1, child', hn, h => by
      obtain ⟨child₁, hloop, h⟩ := Outcome.bind_eq_ok.mp h
      obtain ⟨⟨slot, s⟩, hslot, h⟩ := Outcome.bind_eq_ok.mp h
      obtain rfl := Outcome.ok.inj h
      exact (TableCopied.loop hold (Nat.le_of_succ_le hn) hloop).step hn hold hslot

/-- Only files count. -/
theorem TableCopied.congr {s₁ : filesys} (h : TableCopied parent s₁ n child)
    (hfile : s₁.file = s₀.file)
    (hnext : s₁.next_file = s₀.next_file) (htable : child'.fd_table = child.fd_table)
    (hfile' : child'.fs.file = child.fs.file) (hnext' : child'.fs.next_file = child.fs.next_file) :
    TableCopied parent s₀ n child' := by
  refine ⟨?_, ?_, ?_, ?_⟩
  · rw [hnext', ← hnext]
    exact h.next_file
  · rw [hfile', ← hnext, ← hfile]
    exact h.old
  · intro fd hfd
    have hslot := h.slot fd hfd
    unfold SlotCopied at hslot ⊢
    rw [htable, hfile', hnext', ← hnext]
    exact hslot
  · rw [htable]
    exact h.inj

end Loop

/-! ## The child -/

/-- **What a forked table should be**: `x` is the parent before, `parent` after. -/
structure Reproduced (x parent child : fd_process) : Prop where
  /-- Every slot holds a thing of the same kind. -/
  kind : ∀ fd < MAX_FD, ∀ v, (∀ f, v ≠ .file f) → (child.fd_table fd = v ↔ x.fd_table fd = v)
  file : ∀ fd < MAX_FD, ∀ f, x.fd_table fd = .file f → ∃ fl g gl, x.fs.file f = some fl
    ∧ child.fd_table fd = .file g ∧ child.fs.file g = some gl
    ∧ gl.inode = fl.inode ∧ gl.pos = fl.pos
  shared : ∀ a < MAX_FD, ∀ b < MAX_FD, ∀ f f' g g', x.fd_table a = .file f
    → x.fd_table b = .file f' →
    child.fd_table a = .file g → child.fd_table b = .file g' → (g = g' ↔ f = f')
  count : ∀ fd < MAX_FD, ∀ g, child.fd_table fd = .file g → ∃ gl, child.fs.file g = some gl
    ∧ gl.dup_count = child.slots (.file g)
  parent : parent.fd_table = x.fd_table ∧ ∀ f fl, x.fs.file f = some fl → parent.fs.file f = some fl

/-- Only slots 0 and 1 share a file. -/
def SharesLow (x : fd_process) : Prop :=
  ∀ a < MAX_FD, ∀ b < MAX_FD, a ≠ b → ∀ f, x.fd_table a = .file f → x.fd_table b = .file f
    → a ≤ 1 ∧ b ≤ 1

section Child

variable {x parent child : fd_process}

theorem inode_open_files {s s' : filesys} {a i : ℕ} (hwf : s.OpenWf)
    (h : inode_open s a = .ok (i, s')) : s'.file = s.file ∧ s'.next_file = s.next_file := by
  rcases inode_open_cases hwf h with ⟨ino, -, -, rfl⟩ | ⟨-, -, rfl⟩
  · exact ⟨rfl, rfl⟩
  · exact ⟨rfl, rfl⟩

/-- What the loop leaves is what the child gets. -/
theorem do_fork_fds_copied (h : x.TableWf) (hfork : do_fork_fds x = .ok (parent, some child)) :
    TableCopied x.fd_table x.fs MAX_FD child ∧ parent = x.set_fs child.fs := by
  obtain ⟨⟨root, s⟩, hroot, hfork⟩ := Outcome.bind_eq_ok.mp hfork
  obtain ⟨hfile, hnext⟩ := inode_open_files h.open_wf hroot
  dsimp only at hfork
  by_cases hidx : x.fd_idx = MAX_FD
  · rw [if_pos hidx] at hfork
    cases Outcome.ok.inj hfork
  · rw [if_neg hidx] at hfork
    obtain ⟨child₁, hloop, hfork⟩ := Outcome.bind_eq_ok.mp hfork
    have hold : ∀ fd < MAX_FD, ∀ f, x.fd_table fd = .file f → f < s.next_file := by
      intro fd hfd f hf
      obtain ⟨fl, hfl, -⟩ := h.file hfd hf
      rw [hnext]
      exact h.fresh hfl
    have hcopied : TableCopied x.fd_table s MAX_FD child₁ := TableCopied.loop hold le_rfl hloop
    cases hcwd : x.cwd with
    | none =>
        rw [hcwd] at hfork
        cases hfork
    | some dir =>
        rw [hcwd] at hfork
        obtain ⟨⟨cwd, s'⟩, hreopen, hfork⟩ := Outcome.bind_eq_ok.mp hfork
        obtain ⟨rfl, hchild⟩ := Outcome.ok_pair hfork
        obtain rfl := Option.some.inj hchild
        obtain ⟨s₁, hs₁, hret⟩ := Outcome.bind_eq_ok.mp hreopen
        obtain ⟨rfl, rfl⟩ := Outcome.ok_pair hret
        obtain ⟨ino, -, rfl⟩ := inode_reopen_eq_ok hs₁
        exact ⟨hcopied.congr hfile hnext rfl rfl rfl, rfl⟩

/-- A slot of the child with a file. -/
theorem TableCopied.file_slot {fd g : ℕ} (h : TableCopied x.fd_table x.fs MAX_FD child)
    (hfd : fd < MAX_FD) (hg : child.fd_table fd = .file g) :
    (fd ≤ 1 ∧ x.fd_table fd = .file g) ∨ 2 ≤ fd ∧ ∃ f fl b, x.fd_table fd = .file f
      ∧ child.fs.file f = some fl ∧ child.fs.file g = some ⟨fl.inode, fl.pos, b, 1⟩
      ∧ x.fs.next_file ≤ g := by
  rcases h.slot fd hfd with ⟨heq, hno⟩ | ⟨hge, f, g', fl, b, hp, hc, hf, hg', hmade, -⟩
  · rw [hg] at heq
    refine .inl ⟨?_, heq.symm⟩
    by_contra hlt
    exact hno (by omega) g heq.symm
  · rw [hg] at hc
    obtain rfl := fd_slot.file.inj hc
    exact .inr ⟨hge, f, fl, b, hp, hf, hg', hmade⟩

theorem TableCopied.low_slot {fd : ℕ} (h : TableCopied x.fd_table x.fs MAX_FD child)
    (hfd : fd < MAX_FD) (hlow : fd ≤ 1) : child.fd_table fd = x.fd_table fd := by
  rcases h.slot fd hfd with ⟨heq, -⟩ | ⟨hge, -⟩
  · exact heq
  · omega

theorem TableCopied.has_file {fd f : ℕ} (h : TableCopied x.fd_table x.fs MAX_FD child)
    (hfd : fd < MAX_FD) (hf : x.fd_table fd = .file f) : ∃ g, child.fd_table fd = .file g := by
  rcases h.slot fd hfd with ⟨heq, -⟩ | ⟨-, -, g, -, -, -, hg, -⟩
  · exact ⟨f, heq.trans hf⟩
  · exact ⟨g, hg⟩

theorem fd_process.TableWf.file_lt {fd f : ℕ} (h : x.TableWf) (hfd : fd < MAX_FD)
    (hf : x.fd_table fd = .file f) : f < x.fs.next_file := by
  obtain ⟨fl, hfl, -⟩ := h.file hfd hf
  exact h.fresh hfl

/-- Slots of the child with one file are slots 0 and 1 of the parent with that file, or one
slot. -/
theorem TableCopied.same_file {a b g : ℕ} (h : TableCopied x.fd_table x.fs MAX_FD child)
    (hwf : x.TableWf) (ha : a < MAX_FD) (hb : b < MAX_FD) (hag : child.fd_table a = .file g)
    (hbg : child.fd_table b = .file g) : a = b ∨ a ≤ 1 ∧ b ≤ 1 := by
  rcases h.file_slot ha hag with ⟨ha1, hxa⟩ | ⟨ha2, -, -, -, -, -, -, hga⟩
  · rcases h.file_slot hb hbg with ⟨hb1, -⟩ | ⟨-, -, -, -, -, -, -, hgb⟩
    · exact .inr ⟨ha1, hb1⟩
    · have := hwf.file_lt ha hxa
      omega
  · rcases h.file_slot hb hbg with ⟨-, hxb⟩ | ⟨hb2, -⟩
    · have := hwf.file_lt hb hxb
      omega
    · exact .inl (h.inj a ha b hb ha2 hb2 g hag hbg)

/-- **The loop keeps the sharing** if and only if there is none above slot 1. -/
theorem TableCopied.shared_iff (h : TableCopied x.fd_table x.fs MAX_FD child) (hwf : x.TableWf) :
    (∀ a < MAX_FD, ∀ b < MAX_FD, ∀ f f' g g', x.fd_table a = .file f → x.fd_table b = .file f' →
      child.fd_table a = .file g → child.fd_table b = .file g' → (g = g' ↔ f = f'))
        ↔ SharesLow x := by
  refine ⟨fun hshared a ha b hb hab f hxa hxb => ?_,
    fun hlow a ha b hb f f' g g' hxa hxb hca hcb => ⟨?_, ?_⟩⟩
  · obtain ⟨g, hca⟩ := h.has_file ha hxa
    obtain ⟨g', hcb⟩ := h.has_file hb hxb
    obtain rfl := (hshared a ha b hb f f g g' hxa hxb hca hcb).mpr rfl
    exact (h.same_file hwf ha hb hca hcb).resolve_left hab
  · rintro rfl
    rcases h.same_file hwf ha hb hca hcb with rfl | ⟨ha1, hb1⟩
    · exact fd_slot.file.inj (hxa.symm.trans hxb)
    · rw [h.low_slot ha ha1, hxa] at hca
      rw [h.low_slot hb hb1, hxb] at hcb
      exact (fd_slot.file.inj hca).trans (fd_slot.file.inj hcb).symm
  · rintro rfl
    by_cases hab : a = b
    · subst hab
      exact fd_slot.file.inj (hca.symm.trans hcb)
    · obtain ⟨ha1, hb1⟩ := hlow a ha b hb hab f hxa hxb
      rw [h.low_slot ha ha1, hxa] at hca
      rw [h.low_slot hb hb1, hxb] at hcb
      exact (fd_slot.file.inj hca).symm.trans (fd_slot.file.inj hcb)

/-- The counts follow when the sharing does. -/
theorem TableCopied.count {fd g : ℕ} (h : TableCopied x.fd_table x.fs MAX_FD child)
    (hwf : x.TableWf) (hlow : SharesLow x) (hfd : fd < MAX_FD) (hg : child.fd_table fd = .file g) :
    ∃ gl, child.fs.file g = some gl ∧ gl.dup_count = child.slots (.file g) := by
  rcases h.file_slot hfd hg with ⟨hfd1, hx⟩ | ⟨hfd2, f, fl, b, hx, hf, hg', hmade⟩
  · obtain ⟨gl, hgl, hcount⟩ := hwf.file hfd hx
    refine ⟨gl, (h.old g (hwf.fresh hgl)).trans hgl, ?_⟩
    -- Slots 0 and 1 are all the slots of `g`, in both tables.
    have hsame : ∀ k < MAX_FD, x.fd_table k = .file g ↔ child.fd_table k = .file g := by
      intro k hk
      refine ⟨fun hxk => ?_, fun hck => ?_⟩
      · by_cases hkf : k = fd
        · rw [hkf]
          exact hg
        · rw [h.low_slot hk (hlow k hk fd hfd hkf g hxk hx).1]
          exact hxk
      · rcases h.same_file hwf hk hfd hck hg with rfl | ⟨hk1, -⟩
        · exact hx
        · rw [← h.low_slot hk hk1]
          exact hck
    rw [hcount]
    unfold fd_process.slots
    rw [occurrences_congr hsame]
  · refine ⟨_, hg', ?_⟩
    have hone : child.slots (.file g) = 1 := by
      apply occurrences_eq_one hfd hg
      intro k hk hck
      rcases h.same_file hwf hk hfd hck hg with rfl | ⟨-, hfd1⟩
      · rfl
      · omega
    rw [hone]
    rfl

/-- **A forked table** reproduces the parent's if and only if no file of the parent is shared
with a slot above 1. -/
theorem fork_reproduces_iff (hwf : x.TableWf) (hfork : do_fork_fds x = .ok (parent, some child)) :
    Reproduced x parent child ↔ SharesLow x := by
  obtain ⟨h, rfl⟩ := do_fork_fds_copied hwf hfork
  refine ⟨fun hrep => (h.shared_iff hwf).mp hrep.shared, fun hlow => ⟨?_, ?_, ?_, ?_, rfl, ?_⟩⟩
  · intro fd hfd v hv
    rcases h.slot fd hfd with ⟨heq, -⟩ | ⟨-, f, g, -, -, hx, hg, -⟩
    · rw [heq]
    · rw [hx, hg]
      exact iff_of_false (fun he => hv g he.symm) (fun he => hv f he.symm)
  · intro fd hfd f hx
    obtain ⟨fl, hfl, -⟩ := hwf.file hfd hx
    have hkept : child.fs.file f = some fl := (h.old f (hwf.fresh hfl)).trans hfl
    rcases h.slot fd hfd with ⟨heq, -⟩ | ⟨-, f', g, fl', b, hx', hg, hf', hgl, -⟩
    · exact ⟨fl, f, fl, hfl, heq.trans hx, hkept, rfl, rfl⟩
    · obtain rfl := fd_slot.file.inj (hx.symm.trans hx')
      obtain rfl := Option.some.inj (hkept.symm.trans hf')
      exact ⟨fl, g, _, hfl, hg, hgl, rfl, rfl⟩
  · exact (h.shared_iff hwf).mpr hlow
  · exact fun fd hfd g hg => h.count hwf hlow hfd hg
  · exact fun f fl hfl => (h.old f (hwf.fresh hfl)).trans hfl

end Child

/-! ## A process that forks -/

/-- The disk with `/a`, the root directory open. -/
def rooted : filesys :=
  match dir_open_root file_a with
  | .ok (_, s) => s
  | _ => file_a

theorem dir_open_root_rooted : dir_open_root file_a = .ok (0, rooted) := by
  have hrun : (dir_open_root file_a).satisfies (fun (i, _) => decide (i = 0)) = true := by
    decide +kernel
  obtain ⟨⟨i, s⟩, hret, hi⟩ := Outcome.satisfies_iff.mp hrun
  have hzero : i = 0 := of_decide_eq_true hi
  rw [rooted, hret, hzero]

theorem rooted_tableWf : (process_init_fds rooted (some 0)).TableWf := by
  obtain ⟨hfile, -⟩ := inode_open_files file_a_wf dir_open_root_rooted
  have hwf : rooted.OpenWf := by
    rcases inode_open_cases file_a_wf dir_open_root_rooted with ⟨ino, hi, -⟩ | ⟨hno, -, hs⟩
    · cases hi
    · rw [hs]
      exact file_a_wf.new_inode le_rfl hno
  refine process_init_fds_tableWf hwf (fun {f fl} hf => ?_) _
  rw [hfile] at hf
  cases hf

/-- `/a` is no directory. -/
theorem open_a_regular : (fd_call.open [SLASH, 97]).Regular (process_init_fds rooted (some 0)) :=
  open_regular (by decide +kernel)

/-- `/a` is opened, its descriptor doubled or moved to slot 0, and the process forks. -/
def forking (cs : List fd_call) : Outcome (fd_process × fd_process × fd_process) := do
  let x ← fd_run (.open [SLASH, 97] :: cs) (process_init_fds rooted (some 0))
  match ← do_fork_fds x with
  | (parent, some child) => return (x, parent, child)
  | (_, none) => .undefined

theorem forking_eq_ok {cs : List fd_call} {x parent child : fd_process}
    (h : forking cs = .ok (x, parent, child)) :
    fd_run (.open [SLASH, 97] :: cs) (process_init_fds rooted (some 0)) = .ok x
      ∧ do_fork_fds x = .ok (parent, some child) := by
  obtain ⟨x', hx, h⟩ := Outcome.bind_eq_ok.mp h
  obtain ⟨⟨p, c⟩, hfork, h⟩ := Outcome.bind_eq_ok.mp h
  cases c with
  | none => cases h
  | some c =>
      cases Outcome.ok.inj h
      exact ⟨hx, hfork⟩

theorem forking_tableWf {a b : ℤ} {x parent child : fd_process} (ha : 0 ≤ a ∧ a < MAX_FD)
    (hb : 0 ≤ b ∧ b < MAX_FD) (h : forking [.dup2 a b] = .ok (x, parent, child)) : x.TableWf := by
  have hreg : RegularRun ([.open [SLASH, 97], .dup2 a b] ++ [])
      (process_init_fds rooted (some 0)) :=
    ⟨open_a_regular, fun _ _ => ⟨⟨ha, hb⟩, fun _ _ => trivial⟩⟩
  exact (fd_run_tableWf rooted_tableWf hreg (forking_eq_ok h).1).1

/-- Slot 1 doubled in slot 0: the child has what the parent has. -/
theorem fork_moved_stream : ∃ x parent child, x.TableWf
    ∧ do_fork_fds x = .ok (parent, some child) ∧ Reproduced x parent child := by
  -- Slot 2 is the only one with a file.
  have hrun : (forking [.dup2 1 0]).satisfies (fun (x, _, _) => (List.range MAX_FD).all fun fd =>
      decide (x.fd_table fd ∈ [.null, .stdin, .stdout] ∨ fd = 2)) = true := by
    decide +kernel
  obtain ⟨⟨x, parent, child⟩, hret, hsat⟩ := Outcome.satisfies_iff.mp hrun
  have hfork := (forking_eq_ok hret).2
  have hwf := forking_tableWf (by decide) (by decide) hret
  have honly : ∀ fd < MAX_FD, ∀ f, x.fd_table fd = .file f → fd = 2 := by
    intro fd hfd f hf
    have hslot := of_decide_eq_true (List.all_eq_true.mp hsat fd (List.mem_range.mpr hfd))
    simpa [hf] using hslot
  refine ⟨x, parent, child, hwf, hfork, (fork_reproduces_iff hwf hfork).mpr ?_⟩
  intro a ha b hb hab f hxa hxb
  exact absurd ((honly a ha f hxa).trans (honly b hb f hxb).symm) hab

/-- Two slots of the parent share a file, and two of the child do not. -/
theorem fork_splits_sharing : ∃ x parent child, x.TableWf
    ∧ do_fork_fds x = .ok (parent, some child) ∧ ¬ Reproduced x parent child := by
  have hrun : (forking [.dup2 2 5]).satisfies (fun (x, _, c) =>
      decide (x.fd_table 2 = .file 0 ∧ x.fd_table 5 = .file 0 ∧ c.fd_table 2 = .file 1
        ∧ c.fd_table 5 = .file 2)) = true := by
    decide +kernel
  obtain ⟨⟨x, parent, child⟩, hret, hsat⟩ := Outcome.satisfies_iff.mp hrun
  obtain ⟨h2, h5, hc2, hc5⟩ := of_decide_eq_true hsat
  refine ⟨x, parent, child, forking_tableWf (by decide) (by decide) hret,
    (forking_eq_ok hret).2, ?_⟩
  intro hrep
  have hsame := hrep.shared 2 (by decide) 5 (by decide) 0 0 1 2 h2 h5 hc2 hc5
  exact absurd (hsame.mpr rfl) (by decide)

end Pintos
