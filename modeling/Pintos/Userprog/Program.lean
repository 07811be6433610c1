/-
`userprog/process.c` and `filesys/filesys.c`: which program `process_exec` runs.

The name is looked up twice. `filesys_open` walks the path of the first word, and what it
finds goes to `running_file`; `load` hands the command line, cut off behind its first
token, to `load_file_open`, which looks the characters up as one name in the current
directory. What `load` reads is therefore the file in `running_file` or nothing, and a
program whose path has a slash in it is never loaded (`exec_program_iff`).

In between, `process_cleanup` gives up the old memory. It writes to files only where a
page of a mapped file is dirty.
-/
import Pintos.Vm.Process
import Pintos.Vm.Steps
import Pintos.Vm.Destroy
import Pintos.Filesys.Resolve
import Pintos.Filesys.Balance
import Pintos.Userprog.Exec
import Pintos.Userprog.DescriptorCalls

set_option autoImplicit false

namespace Pintos

/-! ## Giving up the old memory -/

/-- `s'` has the handles of `s`: the same objects, on the same inodes. -/
structure filesys.SameHandles (s s' : filesys) : Prop where
  open_inodes : s'.open_inodes = s.open_inodes
  next_inode : s'.next_inode = s.next_inode
  inode : ∀ i, (s'.inode i).map (fun ino => (ino.sector, ino.open_cnt))
    = (s.inode i).map fun ino => (ino.sector, ino.open_cnt)

/-- And the inodes show the same. -/
structure filesys.Quiet (s s' : filesys) : Prop extends filesys.SameHandles s s' where
  disk : s'.disk = s.disk
  fat : s'.fat = s.fat
  data : ∀ i, (s'.inode i).map Pintos.inode.data = (s.inode i).map Pintos.inode.data

namespace filesys.SameHandles

variable {s s' s'' : filesys} {i : ℕ} {ino : Pintos.inode}

theorem refl (s : filesys) : s.SameHandles s := ⟨rfl, rfl, fun _ => rfl⟩

theorem trans (h : s.SameHandles s') (h' : s'.SameHandles s'') : s.SameHandles s'' where
  open_inodes := h'.open_inodes.trans h.open_inodes
  next_inode := h'.next_inode.trans h.next_inode
  inode i := (h'.inode i).trans (h.inode i)

theorem symm (h : s.SameHandles s') : s'.SameHandles s where
  open_inodes := h.open_inodes.symm
  next_inode := h.next_inode.symm
  inode i := (h.inode i).symm

/-- Storing into an open inode, whose sector and count stay. -/
theorem set_inode (ino' : Pintos.inode) (hi : s.inode i = some ino)
    (hsec : ino'.sector = ino.sector) (hcnt : ino'.open_cnt = ino.open_cnt)
    (hinode : s'.inode = Function.update s.inode i (some ino'))
    (hlist : s'.open_inodes = s.open_inodes) (hnext : s'.next_inode = s.next_inode) :
    s.SameHandles s' where
  open_inodes := hlist
  next_inode := hnext
  inode j := by
    rw [hinode]
    by_cases hj : j = i
    · subst hj
      rw [Function.update_self, hi, Option.map_some, Option.map_some, hsec, hcnt]
    · rw [Function.update_of_ne hj]

theorem kept (h : s.SameHandles s') (hi : s.inode i = some ino) :
    ∃ ino', s'.inode i = some ino' ∧ ino'.sector = ino.sector ∧ ino'.open_cnt = ino.open_cnt := by
  have hsame := h.inode i
  rw [hi, Option.map_some] at hsame
  obtain ⟨ino', hi', heq⟩ := Option.map_eq_some_iff.mp hsame
  obtain ⟨hsec, hcnt⟩ := Prod.mk.inj heq
  exact ⟨ino', hi', hsec, hcnt⟩

theorem wf (h : s.SameHandles s') (hwf : s.OpenWf) : s'.OpenWf where
  nodup := h.open_inodes ▸ hwf.nodup
  listed i := by
    rw [h.open_inodes, hwf.listed]
    constructor
    · rintro ⟨ino, hi⟩
      obtain ⟨ino', hi', -⟩ := h.kept hi
      exact ⟨ino', hi'⟩
    · rintro ⟨ino, hi⟩
      obtain ⟨ino', hi', -⟩ := h.symm.kept hi
      exact ⟨ino', hi'⟩
  fresh hi := by
    obtain ⟨ino', hi', -⟩ := h.symm.kept hi
    rw [h.next_inode]
    exact hwf.fresh hi'
  sector_inj hi hj hsec := by
    obtain ⟨ino, hi', hsec₁, -⟩ := h.symm.kept hi
    obtain ⟨jno, hj', hsec₂, -⟩ := h.symm.kept hj
    apply hwf.sector_inj hi' hj'
    rw [hsec₁, hsec₂, hsec]
  pos hi := by
    obtain ⟨ino, hi', -, hcnt⟩ := h.symm.kept hi
    rw [← hcnt]
    exact hwf.pos hi'

theorem file_write_at {f : ℕ} {buffer : Bytes} {size ofs n : ℤ}
    (hrun : file_write_at s f buffer size ofs = .ok (n, s')) : s.SameHandles s' := by
  obtain ⟨fl, -, hrun⟩ := Outcome.bind_eq_ok.mp hrun
  obtain ⟨ino, hi, hrun⟩ := Outcome.bind_eq_ok.mp hrun
  obtain ⟨⟨m, d, fs, ino'⟩, hwrite, hrun⟩ := Outcome.bind_eq_ok.mp hrun
  obtain ⟨-, rfl⟩ := Outcome.ok_pair hrun
  obtain ⟨start, length, rfl⟩ := inode_write_at_resized hwrite
  exact set_inode (ino.set_data start length) (get_inode_eq_ok.mp hi) rfl rfl rfl rfl rfl

end filesys.SameHandles

namespace filesys.Quiet

variable {s s' s'' : filesys} {i : ℕ} {ino : Pintos.inode}

theorem refl (s : filesys) : s.Quiet s := ⟨.refl s, rfl, rfl, fun _ => rfl⟩

theorem trans (h : s.Quiet s') (h' : s'.Quiet s'') : s.Quiet s'' where
  toSameHandles := h.toSameHandles.trans h'.toSameHandles
  disk := h'.disk.trans h.disk
  fat := h'.fat.trans h.fat
  data i := (h'.data i).trans (h.data i)

theorem symm (h : s.Quiet s') : s'.Quiet s where
  toSameHandles := h.toSameHandles.symm
  disk := h.disk.symm
  fat := h.fat.symm
  data i := (h.data i).symm

theorem file_allow_write {f : ℕ} (hrun : file_allow_write s f = .ok s') : s.Quiet s' := by
  obtain ⟨fl, -, hrun⟩ := Outcome.bind_eq_ok.mp hrun
  split at hrun
  · obtain ⟨ino, hi, hrun⟩ := Outcome.bind_eq_ok.mp hrun
    rw [get_inode_eq_ok] at hi
    obtain ⟨-, -, hrun⟩ := Outcome.bind_eq_ok.mp hrun
    obtain ⟨-, -, hrun⟩ := Outcome.bind_eq_ok.mp hrun
    obtain rfl := Outcome.ok.inj hrun
    refine ⟨.set_inode { ino with deny_write_cnt := ino.deny_write_cnt - 1 } hi rfl rfl rfl rfl rfl,
      rfl, rfl, fun i => ?_⟩
    by_cases h : i = fl.inode
    · subst h
      simp [hi]
    · simp [h]
  · obtain rfl := Outcome.ok.inj hrun
    exact refl s

/-- An open inode, and what it shows. -/
theorem kept_data (h : s.Quiet s') (hi : s.inode i = some ino) :
    ∃ ino', s'.inode i = some ino' ∧ ino'.sector = ino.sector ∧ ino'.data = ino.data := by
  obtain ⟨ino', hi', hsec, -⟩ := h.kept hi
  have hsame := h.data i
  rw [hi, hi', Option.map_some, Option.map_some] at hsame
  exact ⟨ino', hi', hsec, Option.some.inj hsame⟩

theorem shows (h : s.Quiet s') (hwf : s.OpenWf) : s.Shows s' := by
  have hwf' := h.wf hwf
  refine ⟨h.disk, h.fat, fun a => ?_, fun a => ?_⟩
  · by_cases hex : ∃ i ino, s.inode i = some ino ∧ ino.sector = a
    · obtain ⟨i, ino, hi, rfl⟩ := hex
      obtain ⟨ino', hi', hsec, hdata⟩ := h.kept_data hi
      rw [view_of_open hwf hi, ← hsec, view_of_open hwf' hi']
      exact hdata
    · rw [view_of_closed hwf fun i ino hi hsec => hex ⟨i, ino, hi, hsec⟩,
        view_of_closed hwf', h.disk]
      intro i ino hi hsec
      obtain ⟨ino', hi', hsec', -⟩ := h.symm.kept_data hi
      exact hex ⟨i, ino', hi', hsec'.trans hsec⟩
  · rw [Bool.eq_iff_iff, openable_iff hwf', openable_iff hwf, h.disk]
    apply or_congr_right
    constructor
    · rintro ⟨i, ino, hi, hsec⟩
      obtain ⟨ino', hi', hsec', -⟩ := h.symm.kept_data hi
      exact ⟨i, ino', hi', hsec'.trans hsec⟩
    · rintro ⟨i, ino, hi, hsec⟩
      obtain ⟨ino', hi', hsec', -⟩ := h.kept_data hi
      exact ⟨i, ino', hi', hsec'.trans hsec⟩

end filesys.Quiet

/-- Process `t` has written to no page of a mapped file, among the pages `ps`. -/
def CleanPages (s : vm) (t : ℕ) (ps : List ℕ) : Prop :=
  ∀ p ∈ ps, ∀ pg fp, s.page p = some pg → pg.kind = .file fp → pml4_is_dirty s t pg.va = false

/-- What a step of the cleanup does that gives up the pages `ps`: pages may go but do not change,
and no page gets dirty. -/
structure Cleaning (s s' : vm) (t : ℕ) (ps : List ℕ) : Prop where
  page : ∀ {p pg}, s'.page p = some pg → s.page p = some pg
  dirty : ∀ va, pml4_is_dirty s t va = false → pml4_is_dirty s' t va = false
  handles : s.files.SameHandles s'.files
  quiet : CleanPages s t ps → s.files.Quiet s'.files

namespace Cleaning

variable {s s' s'' : vm} {t : ℕ} {ps qs : List ℕ}

theorem refl (s : vm) (t : ℕ) : Cleaning s s t [] :=
  ⟨fun h => h, fun _ h => h, .refl _, fun _ => .refl _⟩

theorem clean (h : Cleaning s s' t ps) (hc : CleanPages s t qs) : CleanPages s' t qs := by
  intro p hp pg fp hpg hkind
  exact h.dirty _ (hc p hp pg fp (h.page hpg) hkind)

theorem trans (h : Cleaning s s' t ps) (h' : Cleaning s' s'' t qs) :
    Cleaning s s'' t (ps ++ qs) where
  page hp := h.page (h'.page hp)
  dirty va hva := h'.dirty va (h.dirty va hva)
  handles := h.handles.trans h'.handles
  quiet hc := by
    have hps : CleanPages s t ps := fun p hp => hc p (List.mem_append_left _ hp)
    have hqs : CleanPages s t qs := fun p hp => hc p (List.mem_append_right _ hp)
    exact (h.quiet hps).trans (h'.quiet (h.clean hqs))

/-- A step that has nothing to do with pages, page tables and files. -/
theorem of_eq (hpage : s'.page = s.page) (hproc : s'.proc = s.proc) (hfiles : s'.files = s.files) :
    Cleaning s s' t [] where
  page hp := hpage ▸ hp
  dirty va hva := by
    unfold pml4_is_dirty vm.pte_at at hva ⊢
    rw [hproc]
    exact hva
  handles := hfiles ▸ .refl _
  quiet _ := hfiles ▸ .refl _

theorem set_spt (s : vm) (t : ℕ) (spt : AList fun _ : ℕ => ℕ) :
    Cleaning s (s.set_spt t spt) t [] where
  page hp := hp
  dirty va hva := by
    unfold pml4_is_dirty vm.pte_at at hva ⊢
    simpa using hva
  handles := .refl _
  quiet _ := .refl _

/-- A change of page-table entries that sets no dirty bit. -/
theorem modify_pte (s : vm) (t va : ℕ) {g : pte → pte}
    (hg : ∀ e, e.dirty = false → (g e).dirty = false) : Cleaning s (s.modify_pte t va g) t [] where
  page hp := hp
  dirty va' hva := by
    unfold pml4_is_dirty at hva ⊢
    rw [vm.pte_at_modify_pte]
    by_cases heq : t = t ∧ va' = va
    · rw [if_pos heq]
      rw [heq.2] at hva
      cases he : s.pte_at t va with
      | none => rfl
      | some e =>
          rw [he] at hva
          exact hg e hva
    · rw [if_neg heq]
      exact hva
  handles := .refl _
  quiet _ := .refl _

theorem pml4_clear_page {upage : ℕ} (hrun : pml4_clear_page s t upage = .ok s') :
    Cleaning s s' t [] := by
  obtain rfl := pml4_clear_page_eq_ok hrun
  exact modify_pte s t upage fun e he => he

theorem drop_ref {f : Option ℕ} (hrun : drop_ref s f = .ok s') : Cleaning s s' t [] := by
  unfold Pintos.drop_ref at hrun
  split at hrun
  · obtain rfl := Outcome.ok.inj hrun
    exact refl s t
  · obtain ⟨⟨g, fr⟩, -, hrun⟩ := Outcome.bind_eq_ok.mp hrun
    obtain rfl := Outcome.ok.inj hrun
    exact of_eq rfl rfl rfl

theorem palloc_free_page {kva : ℕ} (hrun : palloc_free_page s kva = .ok s') :
    Cleaning s s' t [] := by
  obtain ⟨-, -, hrun⟩ := Outcome.bind_eq_ok.mp hrun
  obtain rfl := Outcome.ok.inj hrun
  exact of_eq rfl rfl rfl

theorem release_frame {f : Option ℕ} (hrun : release_frame s f = .ok s') : Cleaning s s' t [] := by
  unfold Pintos.release_frame at hrun
  split at hrun
  · obtain rfl := Outcome.ok.inj hrun
    exact refl s t
  · obtain ⟨⟨g, fr⟩, -, hrun⟩ := Outcome.bind_eq_ok.mp hrun
    dsimp only at hrun
    split at hrun
    · obtain ⟨s₁, hfree, hrun⟩ := Outcome.bind_eq_ok.mp hrun
      obtain rfl := Outcome.ok.inj hrun
      exact (palloc_free_page hfree).trans (of_eq rfl rfl rfl)
    · obtain rfl := Outcome.ok.inj hrun
      exact refl s t

/-- The write-back, if the page is dirty. -/
theorem write_back_dirty {p : ℕ} {pg : Pintos.page} {fp : file_page} {done : Bool}
    (hpg : s.page p = some pg) (hkind : pg.kind = .file fp)
    (hrun : write_back_dirty s t pg fp = .ok (done, s')) : Cleaning s s' t [p] := by
  unfold Pintos.write_back_dirty at hrun
  split at hrun
  · rename_i hdirty
    obtain ⟨⟨f, fr⟩, -, hrun⟩ := Outcome.bind_eq_ok.mp hrun
    obtain ⟨⟨n, fs⟩, hwrite, hrun⟩ := Outcome.bind_eq_ok.mp hrun
    have hhandles : s.files.SameHandles fs := .file_write_at hwrite
    have hwritten : Cleaning s (s.set_files fs) t [p] := by
      refine ⟨fun h => h, fun _ h => h, hhandles, fun hc => ?_⟩
      rw [hc p (List.mem_singleton_self p) pg fp hpg hkind] at hdirty
      cases hdirty
    dsimp only at hrun
    split at hrun
    · obtain ⟨-, rfl⟩ := Outcome.ok_pair hrun
      exact hwritten
    · obtain ⟨-, rfl⟩ := Outcome.ok_pair hrun
      exact hwritten.trans (modify_pte _ t pg.va fun e _ => rfl)
  · obtain ⟨-, rfl⟩ := Outcome.ok_pair hrun
    exact ⟨fun h => h, fun _ h => h, .refl _, fun _ => .refl _⟩

/-- Pages that need not be looked at. -/
theorem weaken (h : Cleaning s s' t []) (ps : List ℕ) : Cleaning s s' t ps :=
  ⟨h.page, h.dirty, h.handles, fun _ => h.quiet fun _ hp => absurd hp List.not_mem_nil⟩

theorem destroy {p : ℕ} {pg : Pintos.page} (hpg : s.page p = some pg)
    (hrun : destroy s t pg = .ok s') : Cleaning s s' t [p] := by
  unfold Pintos.destroy at hrun
  split at hrun
  · obtain rfl := Outcome.ok.inj hrun
    exact (refl s t).weaken [p]
  · obtain ⟨s₁, hclear, hrun⟩ := Outcome.bind_eq_ok.mp hrun
    obtain rfl := Outcome.ok.inj hrun
    refine ((pml4_clear_page hclear).trans ?_ : Cleaning s _ t ([] ++ [])).weaken [p]
    split
    · exact refl s₁ t
    · exact of_eq rfl rfl rfl
  · rename_i fp hkind
    obtain ⟨fs, hallow, hrun⟩ := Outcome.bind_eq_ok.mp hrun
    have hquiet : s.files.Quiet fs := .file_allow_write hallow
    have hallowed : Cleaning s (s.set_files fs) t [] :=
      ⟨fun h => h, fun _ h => h, hquiet.toSameHandles, fun _ => hquiet⟩
    obtain ⟨⟨done, s₁⟩, hwrite, hrun⟩ := Outcome.bind_eq_ok.mp hrun
    obtain ⟨-, -, hrun⟩ := Outcome.bind_eq_ok.mp hrun
    obtain ⟨s₂, hrelease, hclear⟩ := Outcome.bind_eq_ok.mp hrun
    exact ((hallowed.trans (write_back_dirty (p := p) hpg hkind hwrite)).trans
      (release_frame hrelease)).trans (pml4_clear_page hclear)

/-- One page. -/
theorem vm_dealloc_page {p : ℕ} (hrun : vm_dealloc_page s t p = .ok s') : Cleaning s s' t [p] := by
  obtain ⟨pg, hpg, hrun⟩ := Outcome.bind_eq_ok.mp hrun
  obtain ⟨s₁, hdrop, hrun⟩ := Outcome.bind_eq_ok.mp hrun
  obtain ⟨s₂, hdestroy, hrun⟩ := Outcome.bind_eq_ok.mp hrun
  obtain rfl := Outcome.ok.inj hrun
  have hpg₁ : s₁.page p = some pg := by
    rcases vm.drop_ref_cases hdrop with ⟨-, rfl⟩ | ⟨f, fr, -, -, rfl⟩
    · exact vm.get_page_eq_ok.mp hpg
    · exact vm.get_page_eq_ok.mp hpg
  have hfreed : Cleaning s₂ (s₂.free_page p) t [] := by
    refine ⟨fun {q qg} hq => ?_, fun _ h => h, .refl _, fun _ => .refl _⟩
    by_cases hqp : q = p
    · subst hqp
      rw [vm.free_page_page, Function.update_self] at hq
      cases hq
    · rwa [vm.free_page_page, Function.update_of_ne hqp] at hq
  exact ((drop_ref hdrop).trans (destroy hpg₁ hdestroy)).trans hfreed

/-- All pages. -/
theorem spt_kill_loop (entries : List (Sigma fun _ : ℕ => ℕ)) : ∀ {s s' : vm},
    spt_kill_loop t entries s = .ok s' → Cleaning s s' t (entries.map Sigma.snd) := by
  induction entries with
  | nil =>
      intro s s' hrun
      obtain rfl := Outcome.ok.inj hrun
      exact refl s t
  | cons entry entries ih =>
      intro s s' hrun
      obtain ⟨va, p⟩ := entry
      obtain ⟨s₁, hdealloc, hrun⟩ := Outcome.bind_eq_ok.mp hrun
      exact ((set_spt s t _).trans (vm_dealloc_page hdealloc)).trans (ih hrun)

theorem pml4_destroy_loop (entries : List (Sigma fun _ : ℕ => pte)) : ∀ {s s' : vm},
    pml4_destroy_loop entries s = .ok s' → Cleaning s s' t [] := by
  induction entries with
  | nil =>
      intro s s' hrun
      obtain rfl := Outcome.ok.inj hrun
      exact refl s t
  | cons entry entries ih =>
      intro s s' hrun
      rw [Pintos.pml4_destroy_loop] at hrun
      split at hrun
      · obtain ⟨s₁, hfree, hrun⟩ := Outcome.bind_eq_ok.mp hrun
        exact (palloc_free_page hfree).trans (ih hrun)
      · exact ih hrun

end Cleaning

/-- **`process_cleanup`** keeps the handles, and leaves the files alone if no page of a mapped
file is dirty. -/
theorem process_cleanup_files {s s' : vm} {t : ℕ} (hrun : process_cleanup s t = .ok s') :
    s.files.SameHandles s'.files
      ∧ (CleanPages s t ((s.proc t).spt.entries.map Sigma.snd) → s.files.Quiet s'.files) := by
  obtain ⟨s₁, hkill, hrun⟩ := Outcome.bind_eq_ok.mp hrun
  obtain ⟨s₂, hdestroy, hrun⟩ := Outcome.bind_eq_ok.mp hrun
  obtain rfl := Outcome.ok.inj hrun
  have hkilled : Cleaning s s₁ t _ := Cleaning.spt_kill_loop _ hkill
  have hdestroyed : Cleaning s₁ s₂ t [] := Cleaning.pml4_destroy_loop _ hdestroy
  refine ⟨hkilled.handles.trans hdestroyed.handles, fun hclean => ?_⟩
  exact (hkilled.quiet hclean).trans (hdestroyed.quiet fun _ hp => absurd hp List.not_mem_nil)

/-! ## The command line -/

/-- `' '`. -/
def SPACE : UInt8 := 32

/-- `MAX_BUF`. -/
def MAX_BUF : ℕ := 128

/-- `first_word`. -/
def first_word (cmd : c_string) : c_string := cmd.takeWhile (· ≠ SPACE)

/-- The string at `target` after `parse_args`: `strtok_r` passes over the spaces in front and puts
a terminator behind the first token. -/
def parse_args (target : c_string) : c_string :=
  target.takeWhile (· = SPACE) ++ first_word (target.dropWhile (· = SPACE))

/-! ## `load` -/

/-- Where `load_file_open` looks: the current directory, or the root, which becomes it. -/
def load_dir (s : filesys) (cwd : Option ℕ) : Outcome (ℕ × filesys) :=
  match cwd with
  | none => dir_open_root s
  | some dir => if is_good_inode s dir then .ok (dir, s) else dir_open_root s

/-- `load_file_open`: the file, and the current directory. -/
def load_file_open (s : filesys) (cwd : Option ℕ) (name : c_string) :
    Outcome (Option ℕ × ℕ × filesys) := do
  let (dir, s) ← load_dir s cwd
  let (inode, s) ← dir_lookup s dir name
  let (file, s) := open_found s inode
  return (file, dir, s)

/-- A 16-bit number. -/
def halfAt (b : Bytes) (o : ℕ) : ℕ := (b o).toNat + 256 * (b (o + 1)).toNat

/-- `sizeof (struct ELF64_hdr)`, `sizeof (struct ELF64_PHDR)`. -/
def EHDR_SIZE : ℕ := 64
def PHDR_SIZE : ℕ := 56

/-- `"\177ELF\2\1\1"`. -/
def ELF_IDENT : List UInt8 := [127, 69, 76, 70, 2, 1, 1]

/-- The test of the executable header. -/
def valid_ehdr (ehdr : Bytes) : Bool :=
  ((List.range 7).map ehdr = ELF_IDENT) && halfAt ehdr 16 = 2 && halfAt ehdr 18 = 0x3E
    && wordAt ehdr 20 = 1 && halfAt ehdr 54 = PHDR_SIZE && halfAt ehdr 56 ≤ 1024

/-- What `load` does behind the test of the header, for a process, its file, the header and the
command line: it maps the segments and the stack, and tells whether that went well. -/
abbrev image_loader := vm → ℕ → ℕ → Bytes → c_string → Outcome (Bool × vm)

/-- `load`, from the reading of the header on. -/
def load_file (load_image : image_loader) (s : vm) (t file : ℕ) (cmd : c_string) :
    Outcome (Bool × vm) := do
  let (n, ehdr, fs) ← file_read s.files file zeros EHDR_SIZE
  let s := s.set_files fs
  let (success, s) ←
    if n ≠ EHDR_SIZE ∨ ¬ valid_ehdr ehdr then .ok (false, s) else load_image s t file ehdr cmd
  let fs ← file_close s.files file
  return (success, s.set_files fs)

/-- `pml4_create`. -/
@[simps] def vm.create_pml4 (s : vm) (t : ℕ) : vm :=
  let pr : process := { s.proc t with pml4 := ∅, alive := true }
  { s with proc := Function.update s.proc t pr }

/-- What `load` leaves. -/
structure load_result where
  success : Bool
  cwd : ℕ
  /-- The inode it reads. -/
  inode : Option ℕ
  deriving DecidableEq, Repr

/-- `load`, once the file is opened. -/
def load_found (load_image : image_loader) (s : vm) (t dir : ℕ) (cmd : c_string) :
    Option ℕ → Outcome (load_result × vm)
  | none => .ok ({ success := false, cwd := dir, inode := none }, s)
  | some file => do
      let fl ← s.files.get_file file
      let (success, s) ← load_file load_image s t file cmd
      return ({ success, cwd := dir, inode := some fl.inode }, s)

/-- `load`. -/
def load (load_image : image_loader) (s : vm) (t : ℕ) (cwd : Option ℕ) (cmd : c_string) :
    Outcome (load_result × vm) := do
  let s := s.create_pml4 t
  let (file, dir, fs) ← load_file_open s.files cwd (parse_args cmd)
  load_found load_image (s.set_files fs) t dir cmd file

/-! ## `process_exec` -/

/-- What `process_exec` leaves. Without success the process exits. -/
structure exec_result where
  success : Bool
  cwd : ℕ
  running_file : Option ℕ
  /-- The inode that `load` read. -/
  loaded : Option ℕ
  /-- The inode of `new_file`. -/
  new_inode : Option ℕ
  deriving DecidableEq, Repr

/-- The end of `process_exec`. -/
def exec_loaded (s : vm) (new_file : opened) (new_inode : Option ℕ) (r : load_result) :
    Outcome (exec_result × vm) :=
  let failed : exec_result :=
    { success := false, cwd := r.cwd, running_file := none, loaded := r.inode, new_inode }
  if r.success then
    match new_file with
    | .null => .ok (failed, s)
    -- a `struct dir` with a `struct file *` to it
    | .root_dir _ => .undefined
    | .file f => do
        let fs ← file_deny_write s.files f
        return ({ failed with success := true, running_file := some f }, s.set_files fs)
  else .ok (failed, s)

/-- `process_exec`. The copy of the command line is `MAX_BUF` bytes long. -/
def process_exec (load_image : image_loader) (s : vm) (t : ℕ) (cwd running_file : Option ℕ)
    (file_name : c_string) : Outcome (exec_result × vm) :=
  if MAX_BUF ≤ file_name.length then .undefined
  else do
    let fs ← programs.drop_running_file s.files running_file
    let (new_file, fs) ← filesys_open fs cwd (first_word file_name)
    let new_inode := new_file.inode fs
    let s ← process_cleanup (s.set_files fs) t
    let (r, s) ← load load_image (s.set_spt t ∅) t cwd file_name
    exec_loaded s new_file new_inode r

/-! ## The two lookups -/

/-- `process_exec` up to the lookup in `load`: `new_file` and the state it was opened in, the
directory that `load_file_open` looks in, and the state then. -/
def exec_lookup (s : vm) (t : ℕ) (cwd running_file : Option ℕ) (file_name : c_string) :
    Outcome (opened × filesys × ℕ × vm) := do
  let fs ← programs.drop_running_file s.files running_file
  let (new_file, fs) ← filesys_open fs cwd (first_word file_name)
  let s ← process_cleanup (s.set_files fs) t
  let s := (s.set_spt t ∅).create_pml4 t
  let (dir, fs') ← load_dir s.files cwd
  return (new_file, fs, dir, s.set_files fs')

/-- The inode of sector `a` is an executable that `load` loads. -/
def Loadable (load_image : image_loader) (s : vm) (t : ℕ) (cmd : c_string) (a : ℕ) : Prop :=
  ∃ f fs s', programs.open_program s.files a = .ok (f, fs)
    ∧ load_file load_image (s.set_files fs) t f cmd = .ok (true, s')

section Exec

variable {load_image : image_loader} {s s' s₂ : vm} {t : ℕ} {cwd running_file : Option ℕ}
  {cmd : c_string} {r : exec_result} {new_file : opened} {fs fs' : filesys} {dir a : ℕ}

/-- `filesys_open` of the first word gave a file, of the inode of sector `a`, and `load` looks in
the directory `dir` of `s₂`. -/
def Names (s : vm) (t : ℕ) (cwd running_file : Option ℕ) (cmd : c_string) (a dir : ℕ) (s₂ : vm) :
    Prop :=
  ∃ f fs, exec_lookup s t cwd running_file cmd = .ok (.file f, fs, dir, s₂)
    ∧ (opened.file f).target fs = some (some a)

theorem Names.is_file {a' dir' : ℕ} {s₂' : vm} (h : Names s t cwd running_file cmd a' dir' s₂')
    (hlook : exec_lookup s t cwd running_file cmd = .ok (new_file, fs, dir, s₂)) :
    ∃ f, new_file = .file f := by
  obtain ⟨f', fs', hlook', -⟩ := h
  rw [hlook] at hlook'
  exact ⟨f', congrArg Prod.fst (Outcome.ok.inj hlook')⟩

theorem Names.unique {a' dir' : ℕ} {s₂' : vm} (h : Names s t cwd running_file cmd a dir s₂)
    (h' : Names s t cwd running_file cmd a' dir' s₂') : a' = a ∧ dir' = dir ∧ s₂' = s₂ := by
  obtain ⟨f, fs, hlook, ha⟩ := h
  obtain ⟨f', fs', hlook', ha'⟩ := h'
  rw [hlook] at hlook'
  obtain ⟨hf, hrest⟩ := Outcome.ok_pair hlook'
  obtain ⟨rfl, hend⟩ := Prod.mk.inj hrest
  obtain ⟨rfl, rfl⟩ := Prod.mk.inj hend
  obtain rfl := opened.file.inj hf
  exact ⟨Option.some.inj (Option.some.inj (ha'.symm.trans ha)), rfl, rfl⟩

/-- `filesys_open` of the first word names a loadable executable. -/
def NamesLoadable (load_image : image_loader) (s : vm) (t : ℕ) (cwd running_file : Option ℕ)
    (cmd : c_string) : Prop :=
  ∃ a dir s₂, Names s t cwd running_file cmd a dir s₂ ∧ Loadable load_image s₂ t cmd a

/-- The program that runs is the one that is write-protected. -/
structure RunsProtected (load_image : image_loader) (s : vm) (t : ℕ) (cwd running_file : Option ℕ)
    (cmd : c_string) (r : exec_result) : Prop where
  succeeds : r.success = true ↔ NamesLoadable load_image s t cwd running_file cmd
  same : r.success = true → r.loaded.isSome = true ∧ r.loaded = r.new_inode

/-- The command line, taken as one name in the current directory, leads to the file that the path
of the first word led to; or neither of them is loadable. -/
def SameProgram (load_image : image_loader) (s : vm) (t : ℕ) (cwd running_file : Option ℕ)
    (cmd : c_string) : Prop :=
  ∀ a dir s₂ dno, Names s t cwd running_file cmd a dir s₂ → s₂.files.inode dir = some dno →
    name_sector s₂.files dno.sector (parse_args cmd) = .ok (some a)
      ∨ (¬ Loadable load_image s₂ t cmd a
        ∧ ∀ b, name_sector s₂.files dno.sector (parse_args cmd) = .ok (some b) →
          ¬ Loadable load_image s₂ t cmd b)

/-- Where `load` looks. -/
theorem load_dir_opens {x x' : filesys} (hwf : x.OpenWf) (h : load_dir x cwd = .ok (dir, x')) :
    ∃ g dno, x'.inode dir = some dno ∧ dno.sector = start_sector_checked x cwd false
      ∧ filesys.Extra x x' g ∧ ∀ b ∈ g, x.openable b = true := by
  have hroot : dir_open_root x = .ok (dir, x') → ∃ g dno, x'.inode dir = some dno
      ∧ dno.sector = ROOT_DIR_SECTOR ∧ filesys.Extra x x' g ∧ ∀ b ∈ g, x.openable b = true := by
    intro hopen
    have hres := dir_open_root_resolves hwf
    rw [hopen] at hres
    obtain ⟨a, ha, g, dno, hd, hsec, hx, hg⟩ := hres.of_ok
    unfold start_resolved at ha
    split at ha
    · obtain rfl := Outcome.ok.inj ha
      exact ⟨_, dno, hd, hsec, hx, hg⟩
    · cases ha
  unfold load_dir at h
  unfold start_sector_checked
  cases cwd with
  | none => exact hroot h
  | some c =>
      dsimp only at h
      rw [Option.bind_some]
      unfold is_good_inode at h
      cases hc : x.inode c with
      | none =>
          rw [hc] at h
          exact hroot h
      | some cno =>
          rw [hc] at h
          by_cases hmagic : cno.data.magic = INODE_MAGIC
          · simp only [hmagic, decide_true, if_true] at h
            obtain ⟨rfl, rfl⟩ := Outcome.ok_pair h
            refine ⟨0, cno, hc, ?_, filesys.Extra.refl hwf, by simp⟩
            simp [hmagic]
          · simp only [hmagic, decide_false] at h
            obtain ⟨g, dno, hd, hsec, hx⟩ := hroot h
            refine ⟨g, dno, hd, ?_, hx⟩
            simp [hmagic, hsec]

/-- A call of `process_exec` that returns. -/
theorem process_exec_lookup (hrun : process_exec load_image s t cwd running_file cmd
    = .ok (r, s')) : cmd.length < MAX_BUF ∧ ∃ new_file fs dir s₂ i fs₃ lr s₃,
      exec_lookup s t cwd running_file cmd = .ok (new_file, fs, dir, s₂)
      ∧ dir_lookup s₂.files dir (parse_args cmd) = .ok (i, fs₃)
      ∧ load_found load_image (s₂.set_files (open_found fs₃ i).2) t dir cmd (open_found fs₃ i).1
        = .ok (lr, s₃)
      ∧ exec_loaded s₃ new_file (new_file.inode fs) lr = .ok (r, s') := by
  unfold process_exec at hrun
  split at hrun
  · cases hrun
  · rename_i hlen
    obtain ⟨fs₀, hdrop, hrun⟩ := Outcome.bind_eq_ok.mp hrun
    obtain ⟨⟨new_file, fs⟩, hopen, hrun⟩ := Outcome.bind_eq_ok.mp hrun
    obtain ⟨s₁, hclean, hrun⟩ := Outcome.bind_eq_ok.mp hrun
    obtain ⟨⟨lr, s₃⟩, hload, hend⟩ := Outcome.bind_eq_ok.mp hrun
    obtain ⟨⟨file, dir, fs₄⟩, hfile, hload⟩ := Outcome.bind_eq_ok.mp hload
    obtain ⟨⟨dir', fs₂⟩, hdir, hfile⟩ := Outcome.bind_eq_ok.mp hfile
    obtain ⟨⟨i, fs₃⟩, hlook, hfile⟩ := Outcome.bind_eq_ok.mp hfile
    obtain ⟨rfl, hrest⟩ := Outcome.ok_pair hfile
    obtain ⟨rfl, rfl⟩ := Prod.mk.inj hrest
    refine ⟨Nat.lt_of_not_le hlen, new_file, fs, dir',
      ((s₁.set_spt t ∅).create_pml4 t).set_files fs₂, i, fs₃, lr, s₃, ?_, hlook, hload, hend⟩
    unfold exec_lookup
    rw [hdrop, Outcome.ok_bind, hopen]
    simp only [Outcome.ok_bind, hclean]
    rw [hdir]
    rfl

theorem drop_running_file_wf {x x' : filesys} (hwf : x.OpenWf)
    (h : programs.drop_running_file x running_file = .ok x') :
    x'.OpenWf ∧ x'.next_inode = x.next_inode := by
  cases running_file with
  | none =>
      obtain rfl := Outcome.ok.inj h
      exact ⟨hwf, rfl⟩
  | some f =>
      obtain ⟨x₁, hallow, h⟩ := Outcome.bind_eq_ok.mp h
      obtain ⟨x₂, hallow', h⟩ := Outcome.bind_eq_ok.mp h
      obtain ⟨fl, -, h⟩ := Outcome.bind_eq_ok.mp h
      obtain ⟨x₃, hclose, h⟩ := Outcome.bind_eq_ok.mp h
      obtain rfl := Outcome.ok.inj h
      have hquiet := (filesys.Quiet.file_allow_write hallow).trans
        (filesys.Quiet.file_allow_write hallow')
      obtain ⟨ino, hi, hcases⟩ := inode_close_cases hclose
      have hnext : x₃.next_inode = x₂.next_inode := by
        rcases hcases with ⟨-, rfl⟩ | ⟨-, -, fat, -, rfl⟩ | ⟨-, -, rfl⟩
        · rfl
        · rfl
        · rfl
      exact ⟨(filesys.refs_close (hquiet.wf hwf) hi hclose).1.congr rfl rfl rfl,
        hnext.trans hquiet.next_inode⟩

theorem filesys_open_wf {x x' : filesys} {name : c_string} (hwf : x.OpenWf)
    (h : filesys_open x cwd name = .ok (new_file, x')) :
    x'.OpenWf ∧ ∀ f, new_file = .file f → ∃ a, (opened.file f).target x' = some (some a) := by
  by_cases hne : path_components name = []
  · unfold filesys_open at h
    split at h
    · cases h
    · obtain ⟨l, hparse, h⟩ := Outcome.bind_eq_ok.mp h
      obtain rfl := parse_path_eq_ok hparse
      rw [hne] at h
      dsimp only [List.getLast?_nil] at h
      split at h
      · obtain ⟨⟨i, x₁⟩, hopen, h⟩ := Outcome.bind_eq_ok.mp h
        obtain ⟨rfl, rfl⟩ := Outcome.ok_pair h
        exact ⟨(dir_open_root_started hwf hopen).1.wf, fun f hf => opened.noConfusion hf⟩
      · cases h
  · rcases filesys_open_walk hwf hne h with
      ⟨rfl, extra, -, hx⟩ | ⟨b, z, left, k, kno, x₁, hx, hk, hksec, rfl, rfl⟩
    · exact ⟨hx.wf, fun f hf => opened.noConfusion hf⟩
    · refine ⟨hx.wf.congr rfl rfl rfl, fun f hf => ⟨b, ?_⟩⟩
      obtain rfl := opened.file.inj hf
      simp [opened.target, hk, hksec]

/-- The steps up to the lookup in `load`, and the handles after each of them. -/
theorem exec_lookup_steps (hwf : s.files.OpenWf)
    (h : exec_lookup s t cwd running_file cmd = .ok (new_file, fs, dir, s₂)) :
    ∃ fs₀ s₁, programs.drop_running_file s.files running_file = .ok fs₀ ∧ fs₀.OpenWf
      ∧ filesys_open fs₀ cwd (first_word cmd) = .ok (new_file, fs) ∧ fs.OpenWf
      ∧ process_cleanup (s.set_files fs) t = .ok s₁ ∧ fs.SameHandles s₁.files
      ∧ load_dir s₁.files cwd = .ok (dir, s₂.files) := by
  obtain ⟨fs₀, hdrop, h⟩ := Outcome.bind_eq_ok.mp h
  obtain ⟨⟨new_file', fs'⟩, hopen, h⟩ := Outcome.bind_eq_ok.mp h
  obtain ⟨s₁, hclean, h⟩ := Outcome.bind_eq_ok.mp h
  obtain ⟨⟨dir', fs₂⟩, hdir, h⟩ := Outcome.bind_eq_ok.mp h
  obtain ⟨rfl, hrest⟩ := Outcome.ok_pair h
  obtain ⟨rfl, hend⟩ := Prod.mk.inj hrest
  obtain ⟨rfl, rfl⟩ := Prod.mk.inj hend
  have hwf₀ := (drop_running_file_wf hwf hdrop).1
  exact ⟨fs₀, s₁, hdrop, hwf₀, hopen, (filesys_open_wf hwf₀ hopen).1, hclean,
    (process_cleanup_files hclean).1, hdir⟩

/-- The lookup in `load`: what it finds, next to the sector that the name leads to. -/
theorem load_lookup (hwf : s₂.files.OpenWf) {dno : inode} (hd : s₂.files.inode dir = some dno)
    {i : Option ℕ} {fs₃ : filesys}
    (hlook : dir_lookup s₂.files dir (parse_args cmd) = .ok (i, fs₃)) :
    ∃ z, name_sector s₂.files dno.sector (parse_args cmd) = .ok z
      ∧ Looked s₂.files s₂.files dir dno 0 (i, fs₃) z := by
  have hres := dir_lookup_resolves hd (filesys.Extra.refl hwf) (by simp) (parse_args cmd)
  rw [hlook] at hres
  exact hres.of_ok

/-- What `load` reads is loadable if it succeeds. -/
theorem load_found_loadable {fs₃ : filesys} {k b : ℕ} {lr : load_result} {s₃ : vm}
    (hopen : inode_open s₂.files b = .ok (k, fs₃))
    (hload : load_found load_image (s₂.set_files (open_found fs₃ (some k)).2) t dir cmd
      (open_found fs₃ (some k)).1 = .ok (lr, s₃)) :
    lr.inode = some k ∧ (lr.success = true ↔ Loadable load_image s₂ t cmd b) := by
  obtain ⟨fl, hfl, hload⟩ := Outcome.bind_eq_ok.mp hload
  obtain ⟨⟨success, s₄⟩, hfile, hload⟩ := Outcome.bind_eq_ok.mp hload
  obtain ⟨rfl, rfl⟩ := Outcome.ok_pair hload
  have hnew : (open_found fs₃ (some k)).2.file fs₃.next_file
      = some { inode := k, pos := 0, deny_write := false, dup_count := 1 } :=
    Function.update_self _ _ _
  rw [filesys.get_file_eq_ok] at hfl
  obtain rfl := Option.some.inj (hnew.symm.trans hfl)
  have hprogram : programs.open_program s₂.files b
      = .ok (fs₃.next_file, (open_found fs₃ (some k)).2) := by
    unfold programs.open_program
    rw [hopen]
    rfl
  refine ⟨rfl, ?_⟩
  constructor
  · intro hsuccess
    obtain rfl : success = true := hsuccess
    exact ⟨_, _, _, hprogram, hfile⟩
  · rintro ⟨f, x, s', hprogram', hfile'⟩
    obtain ⟨rfl, rfl⟩ := Outcome.ok_pair (hprogram.symm.trans hprogram')
    exact congrArg Prod.fst (Outcome.ok.inj (hfile.symm.trans hfile'))

/-- The handle in `new_file` is on the inode that `load` reads exactly when the two lookups have
found the same sector. -/
theorem same_inode_iff (hwf : s.files.OpenWf) {f b k : ℕ} {kno : inode} {g : Multiset ℕ}
    {fs₃ : filesys} (hlook : exec_lookup s t cwd running_file cmd = .ok (.file f, fs, dir, s₂))
    (htarget : (opened.file f).target fs = some (some a))
    (hx : filesys.Extra s₂.files fs₃ g) (hk : fs₃.inode k = some kno) (hksec : kno.sector = b) :
    (opened.file f).inode fs = some k ↔ b = a := by
  obtain ⟨fs₀, s₁, -, -, -, hwf₁, -, hsame, hdir⟩ := exec_lookup_steps hwf hlook
  obtain ⟨fl, hfl, hino⟩ := Option.bind_eq_some_iff.mp (Option.some.inj htarget)
  obtain ⟨ino, hi, rfl⟩ := Option.map_eq_some_iff.mp hino
  have hinode : (opened.file f).inode fs = some fl.inode := by
    simp only [opened.inode, hfl, Option.map_some]
  -- the inode of `new_file`, followed up to the lookup
  obtain ⟨ino₁, hi₁, hsec₁, -⟩ := hsame.kept hi
  obtain ⟨_, _, -, -, hx₁, -⟩ := load_dir_opens (hsame.wf hwf₁) hdir
  obtain ⟨ino₂, hi₂, hsec₂⟩ := hx₁.kept hi₁
  obtain ⟨ino₃, hi₃, hsec₃⟩ := hx.kept hi₂
  have hsec : ino₃.sector = ino.sector := by rw [hsec₃, hsec₂, hsec₁]
  rw [hinode, Option.some_inj]
  constructor
  · rintro rfl
    rw [hi₃] at hk
    rw [← hksec, ← Option.some.inj hk, hsec]
  · rintro rfl
    apply hx.wf.sector_inj hk hi₃
    rw [hsec, hksec]

/-- How `load` ends. -/
theorem load_of_lookup {dno : inode} {i z : Option ℕ} {fs₃ : filesys} {lr : load_result} {s₃ : vm}
    (hlooked : Looked s₂.files s₂.files dir dno 0 (i, fs₃) z)
    (hload : load_found load_image (s₂.set_files (open_found fs₃ i).2) t dir cmd
      (open_found fs₃ i).1 = .ok (lr, s₃)) :
    (lr.success = true ↔ ∃ b, z = some b ∧ Loadable load_image s₂ t cmd b)
      ∧ ∀ b, z = some b → ∃ k kno g, lr.inode = some k ∧ fs₃.inode k = some kno ∧ kno.sector = b
        ∧ filesys.Extra s₂.files fs₃ g := by
  cases z with
  | none =>
      obtain ⟨rfl, rfl⟩ := Prod.mk.inj hlooked
      obtain ⟨rfl, rfl⟩ := Outcome.ok_pair hload
      refine ⟨iff_of_false Bool.false_ne_true ?_, fun b hb => by cases hb⟩
      rintro ⟨b, hb, -⟩
      cases hb
  | some b =>
      obtain ⟨k, n, kno, hk, hopen, -, hkno, hksec, hx, -⟩ := hlooked
      obtain rfl : i = some k := hk
      obtain ⟨hinode, hiff⟩ := load_found_loadable hopen hload
      refine ⟨?_, fun b' hb' => ?_⟩
      · rw [hiff]
        constructor
        · exact fun h => ⟨b, rfl, h⟩
        · rintro ⟨b', hb', h⟩
          rwa [Option.some.inj hb']
      · obtain rfl := Option.some.inj hb'
        exact ⟨k, kno, _, hinode, hkno, hksec, hx⟩

/-- How `process_exec` ends. -/
theorem exec_loaded_eq_ok {s₃ : vm} {ni : Option ℕ} {lr : load_result}
    (h : exec_loaded s₃ new_file ni lr = .ok (r, s')) :
    r.loaded = lr.inode ∧ r.new_inode = ni
      ∧ (r.success = true ↔ lr.success = true ∧ ∃ f, new_file = .file f) := by
  unfold exec_loaded at h
  dsimp only at h
  split at h
  · rename_i hsuccess
    cases new_file with
    | null =>
        obtain ⟨rfl, -⟩ := Outcome.ok_pair h
        refine ⟨rfl, rfl, iff_of_false Bool.false_ne_true ?_⟩
        rintro ⟨-, f, hf⟩
        cases hf
    | root_dir d => cases h
    | file f =>
        obtain ⟨fs, -, h⟩ := Outcome.bind_eq_ok.mp h
        obtain ⟨rfl, -⟩ := Outcome.ok_pair h
        exact ⟨rfl, rfl, iff_of_true rfl ⟨hsuccess, f, rfl⟩⟩
  · rename_i hsuccess
    obtain ⟨rfl, -⟩ := Outcome.ok_pair h
    exact ⟨rfl, rfl, iff_of_false Bool.false_ne_true fun hs => hsuccess hs.1⟩

/-- **Exactly when** the program that runs is the one that is write-protected. -/
theorem runs_protected_iff (hwf : s.files.OpenWf)
    (hrun : process_exec load_image s t cwd running_file cmd = .ok (r, s')) :
    RunsProtected load_image s t cwd running_file cmd r
      ↔ SameProgram load_image s t cwd running_file cmd := by
  obtain ⟨-, new_file, fs, dir, s₂, i, fs₃, lr, s₃, hlook, hlookup, hload, hend⟩ :=
    process_exec_lookup hrun
  obtain ⟨fs₀, s₁, -, hwf₀, hopen, hwf₁, -, hsame, hdir⟩ := exec_lookup_steps hwf hlook
  obtain ⟨g, dno, hd, -, hx₂, -⟩ := load_dir_opens (hsame.wf hwf₁) hdir
  obtain ⟨z, hz, hlooked⟩ := load_lookup hx₂.wf hd hlookup
  obtain ⟨hloads, hinode⟩ := load_of_lookup hlooked hload
  obtain ⟨hloaded, hnew, hsuccess⟩ := exec_loaded_eq_ok hend
  by_cases hfile : ∃ f, new_file = .file f
  · obtain ⟨f, rfl⟩ := hfile
    obtain ⟨a, ha⟩ := (filesys_open_wf hwf₀ hopen).2 f rfl
    have hnamed : Names s t cwd running_file cmd a dir s₂ := ⟨f, fs, hlook, ha⟩
    have hnames_loadable : NamesLoadable load_image s t cwd running_file cmd
        ↔ Loadable load_image s₂ t cmd a := by
      constructor
      · rintro ⟨a', dir', s₂', h, hl⟩
        obtain ⟨rfl, rfl, rfl⟩ := hnamed.unique h
        exact hl
      · exact fun h => ⟨a, dir, s₂, hnamed, h⟩
    have hprogram : r.success = true ↔ ∃ b, z = some b ∧ Loadable load_image s₂ t cmd b := by
      rw [hsuccess, hloads]
      exact and_iff_left ⟨f, rfl⟩
    -- the inode of `new_file` is the one that was read, if the sectors agree
    have hsector : ∀ b, z = some b → (r.loaded.isSome = true ∧ r.loaded = r.new_inode ↔ b = a) := by
      intro b hb
      obtain ⟨k, kno, g', hk, hkno, hksec, hx₃⟩ := hinode b hb
      rw [hloaded, hnew, hk, ← same_inode_iff hwf hlook ha hx₃ hkno hksec]
      exact ⟨fun h => h.2.symm, fun h => ⟨rfl, h.symm⟩⟩
    constructor
    · intro hrp a' dir' s₂' dno' h hd'
      obtain ⟨rfl, rfl, rfl⟩ := hnamed.unique h
      obtain rfl := Option.some.inj (hd'.symm.trans hd)
      rw [hz]
      by_cases hl : Loadable load_image s₂' t cmd a'
      · have hs := hrp.succeeds.mpr (hnames_loadable.mpr hl)
        obtain ⟨b, rfl, -⟩ := hprogram.mp hs
        left
        rw [(hsector b rfl).mp (hrp.same hs)]
      · refine .inr ⟨hl, fun b hb hlb => ?_⟩
        have hs := hprogram.mpr ⟨b, Outcome.ok.inj hb, hlb⟩
        exact hl (hnames_loadable.mp (hrp.succeeds.mp hs))
    · intro hsp
      have hor := hsp a dir s₂ dno hnamed hd
      rw [hz] at hor
      rcases hor with hb | ⟨hl, hb⟩
      · obtain rfl := Outcome.ok.inj hb
        refine ⟨?_, fun hs => (hsector a rfl).mpr rfl⟩
        rw [hprogram, hnames_loadable]
        constructor
        · rintro ⟨b, hb', hlb⟩
          rwa [Option.some.inj hb']
        · exact fun hl => ⟨a, rfl, hl⟩
      · have hno : ¬ r.success = true := by
          rw [hprogram]
          rintro ⟨b, rfl, hlb⟩
          exact hb b rfl hlb
        exact ⟨iff_of_false hno fun h => hl (hnames_loadable.mp h), fun hs => absurd hs hno⟩
  · -- nothing, or the root directory
    have hnames : ∀ {a' dir' s₂'}, ¬ Names s t cwd running_file cmd a' dir' s₂' :=
      fun h => hfile (h.is_file hlook)
    have hno : ¬ r.success = true := fun hs => hfile (hsuccess.mp hs).2
    apply iff_of_true
    · refine ⟨iff_of_false hno ?_, fun hs => absurd hs hno⟩
      rintro ⟨a', dir', s₂', h, -⟩
      exact hnames h
    · intro a' dir' s₂' dno' h _
      exact absurd h hnames

/-! ## The directories stay as they are -/

/-- The directory that a relative path starts in. -/
theorem start_sector_congr {x x' : filesys} {is_root : Bool}
    (hkept : ∀ c ino, x.inode c = some ino →
      ∃ ino', x'.inode c = some ino' ∧ ino'.sector = ino.sector ∧ ino'.data = ino.data)
    (hfreed : ∀ c, cwd = some c → x.inode c = none → x'.inode c = none) :
    start_sector_checked x' cwd is_root = start_sector_checked x cwd is_root := by
  unfold start_sector_checked
  cases cwd with
  | none => rfl
  | some c =>
      rw [Option.bind_some, Option.bind_some]
      cases hc : x.inode c with
      | none => rw [hfreed c rfl hc]
      | some ino =>
          obtain ⟨ino', hc', hsec, hdata⟩ := hkept c ino hc
          rw [hc']
          simp only [hsec, hdata]

theorem start_sector_extra {x x' : filesys} {g : Multiset ℕ} (hx : filesys.Extra x x' g)
    (hcwd : ∀ c, cwd = some c → c < x.next_inode) (is_root : Bool) :
    start_sector_checked x' cwd is_root = start_sector_checked x cwd is_root := by
  apply start_sector_congr
  · intro c ino hc
    obtain ⟨ino', hc', hsec⟩ := hx.kept hc
    have hview := hx.view_open hc'
    rw [hsec, filesys.view_of_open hx.base hc, inode.mk.injEq] at hview
    obtain ⟨-, -, -, -, hdata⟩ := hview
    exact ⟨ino', hc', hsec, hdata⟩
  · intro c hc hnone
    exact hx.freed (hcwd c hc) hnone

theorem start_sector_quiet {x x' : filesys} (h : x.Quiet x') (is_root : Bool) :
    start_sector_checked x' cwd is_root = start_sector_checked x cwd is_root := by
  apply start_sector_congr
  · intro c ino hc
    exact h.kept_data hc
  · intro c _ hnone
    have hsame := h.inode c
    rw [hnone] at hsame
    exact Option.map_eq_none_iff.mp hsame

/-- No name in the directory that a relative path starts in has a slash. -/
def PlainNames (s : filesys) (cwd running_file : Option ℕ) : Prop :=
  ∀ fs₀ name r, programs.drop_running_file s running_file = .ok fs₀ →
    entry_at fs₀ (start_sector_checked fs₀ cwd false) name = .ok (some r) → SLASH ∉ name

/-- What `strtok_r` leaves of a command line that does not start with a space. -/
theorem parse_args_eq (h : first_word cmd ≠ []) : parse_args cmd = first_word cmd := by
  cases cmd with
  | nil => rfl
  | cons c cmd =>
      have hc : c ≠ SPACE := by
        rintro rfl
        exact h rfl
      unfold parse_args
      simp [hc]

/-- `load` looks in the directory that the path started in, and the path leads to the same file
as before. -/
theorem Names.lookup (h : Names s t cwd running_file cmd a dir s₂) (hwf : s.files.OpenWf)
    (hlen : cmd.length < MAX_BUF) (hcwd : ∀ c, cwd = some c → c < s.files.next_inode)
    (hclean : CleanPages s t ((s.proc t).spt.entries.map Sigma.snd)) :
    ∃ fs₀ last dno, programs.drop_running_file s.files running_file = .ok fs₀
      ∧ (path_components (first_word cmd)).getLast? = some last
      ∧ (start_resolved fs₀ (start_sector_checked fs₀ cwd
        (is_root_path (first_word cmd))) >>= fun b =>
          resolve_file fs₀ (path_components (first_word cmd)).dropLast last b) = .ok (some a)
      ∧ fs₀.Shows s₂.files ∧ s₂.files.inode dir = some dno
      ∧ dno.sector = start_sector_checked fs₀ cwd false := by
  obtain ⟨f, fs, hlook, htarget⟩ := h
  obtain ⟨fs₀, s₁, hdrop, hwf₀, hopen, hwf₁, hcleanup, hsame, hdir⟩ := exec_lookup_steps hwf hlook
  have hnext := (drop_running_file_wf hwf hdrop).2
  have hword : (first_word cmd).length < 128 :=
    lt_of_le_of_lt (List.takeWhile_prefix _).length_le hlen
  cases hlast : (path_components (first_word cmd)).getLast? with
  | none =>
      -- the empty path, and the root
      unfold filesys_open at hopen
      rw [if_neg (by omega), parse_path_short hword, Outcome.ok_bind, hlast] at hopen
      dsimp only at hopen
      split at hopen
      · obtain ⟨⟨i, x⟩, -, hopen⟩ := Outcome.bind_eq_ok.mp hopen
        exact opened.noConfusion (congrArg Prod.fst (Outcome.ok.inj hopen))
      · cases hopen
  | some last =>
      have hres := filesys_open_resolves hwf₀ cwd hword hlast
      rw [hopen] at hres
      obtain ⟨z, hz, hopens⟩ := hres.of_ok
      have hza : z = some a := by
        have := hopens.target
        rw [htarget] at this
        cases z with
        | none => cases this
        | some b => rw [Option.some.inj this]
      have hquiet : fs.Quiet s₁.files := (process_cleanup_files hcleanup).2 hclean
      obtain ⟨g, dno, hd, hsec, hx₂, hg⟩ := load_dir_opens (hsame.wf hwf₁) hdir
      obtain ⟨x, k, hx, hinode, -⟩ := hopens.walk
      refine ⟨fs₀, last, dno, hdrop, rfl, by rw [hz, hza], ?_, hd, ?_⟩
      · exact (hopens.shows.trans (hquiet.shows hwf₁)).trans (hx₂.shows hg)
      · rw [hsec, start_sector_quiet hquiet]
        have hstart : start_sector_checked fs cwd false = start_sector_checked x cwd false := by
          unfold start_sector_checked
          rw [hinode]
        rw [hstart]
        exact start_sector_extra hx (fun c hc => hnext ▸ hcwd c hc) false

/-- **Which command lines these are**, as long as the cleanup writes to no file: those without a
slash in the first word, and those that name nothing loadable. -/
theorem same_program_iff (hwf : s.files.OpenWf) (hlen : cmd.length < MAX_BUF)
    (hcwd : ∀ c, cwd = some c → c < s.files.next_inode)
    (hclean : CleanPages s t ((s.proc t).spt.entries.map Sigma.snd))
    (hplain : PlainNames s.files cwd running_file) :
    SameProgram load_image s t cwd running_file cmd
      ↔ SLASH ∉ first_word cmd ∨ ¬ NamesLoadable load_image s t cwd running_file cmd := by
  by_cases hslash : SLASH ∈ first_word cmd
  · -- `load` finds nothing
    have hne : first_word cmd ≠ [] := List.ne_nil_of_mem hslash
    have hnothing : ∀ {a dir s₂ dno b}, Names s t cwd running_file cmd a dir s₂ →
        s₂.files.inode dir = some dno →
        name_sector s₂.files dno.sector (parse_args cmd) ≠ .ok (some b) := by
      intro a dir s₂ dno b h hd hfound
      obtain ⟨fs₀, last, dno', hdrop, -, -, hshows, hd', hsec⟩ := h.lookup hwf hlen hcwd hclean
      obtain rfl := Option.some.inj (hd'.symm.trans hd)
      rw [hshows.name_sector, hsec, parse_args_eq hne] at hfound
      obtain ⟨entry, hentry, hfound⟩ := Outcome.bind_eq_ok.mp hfound
      cases entry with
      | none => cases hfound
      | some e => exact hplain fs₀ _ e hdrop hentry hslash
    constructor
    · intro h
      right
      rintro ⟨a, dir, s₂, hnames, hl⟩
      obtain ⟨-, -, dno, -, -, -, -, hd, -⟩ := hnames.lookup hwf hlen hcwd hclean
      rcases h a dir s₂ dno hnames hd with hfound | ⟨hno, -⟩
      · exact hnothing hnames hd hfound
      · exact hno hl
    · rintro (hno | hno) a dir s₂ dno hnames hd
      · exact absurd hslash hno
      · refine .inr ⟨fun hl => hno ⟨a, dir, s₂, hnames, hl⟩, fun b hb => ?_⟩
        exact absurd hb (hnothing hnames hd)
  · refine iff_of_true (fun a dir s₂ dno hnames hd => .inl ?_) (.inl hslash)
    obtain ⟨fs₀, last, dno', -, hlast, hfound, hshows, hd', hsec⟩ :=
      hnames.lookup hwf hlen hcwd hclean
    obtain rfl := Option.some.inj (hd'.symm.trans hd)
    have hne : first_word cmd ≠ [] := by
      intro hnil
      rw [hnil] at hlast
      cases hlast
    have hrel : is_root_path (first_word cmd) = false := by
      unfold is_root_path
      cases hword : first_word cmd with
      | nil => rfl
      | cons c w =>
          have hc : c ≠ SLASH := fun h => hslash (by rw [hword, h]; exact List.mem_cons_self)
          simpa using hc
    rw [path_components_plain hslash hne] at hlast hfound
    obtain rfl := Option.some.inj hlast
    rw [hrel] at hfound
    obtain ⟨b, hb, hfound⟩ := Outcome.bind_eq_ok.mp hfound
    unfold start_resolved at hb
    split at hb
    · obtain rfl := Outcome.ok.inj hb
      rw [hshows.name_sector, hsec, parse_args_eq hne]
      exact hfound
    · cases hb

/-- **The program that runs is the one that is write-protected** exactly when the command line,
taken as one name after the cleanup, leads to what its path led to before. -/
theorem exec_program_iff (load_image : image_loader) (hwf : s.files.OpenWf)
    (hrun : process_exec load_image s t cwd running_file cmd = .ok (r, s')) :
    (RunsProtected load_image s t cwd running_file cmd r
      ↔ SameProgram load_image s t cwd running_file cmd)
    ∧ ((∀ c, cwd = some c → c < s.files.next_inode) →
      CleanPages s t ((s.proc t).spt.entries.map Sigma.snd) → PlainNames s.files cwd running_file →
      (RunsProtected load_image s t cwd running_file cmd r
        ↔ SLASH ∉ first_word cmd ∨ ¬ NamesLoadable load_image s t cwd running_file cmd)) := by
  have hiff := runs_protected_iff hwf hrun
  refine ⟨hiff, fun hcwd hclean hplain => ?_⟩
  rw [hiff]
  exact same_program_iff hwf (process_exec_lookup hrun).1 hcwd hclean hplain

end Exec

/-! ### A program in the root directory -/

/-- An executable header without program headers. -/
def bare_ehdr : Bytes := fun k =>
  if k = 54 then 56
  else ([127, 69, 76, 70, 2, 1, 1, 0, 0, 0, 0, 0, 0, 0, 0, 0, 2, 0, 0x3E, 0,
    1] : List UInt8).getD k 0

/-- The root directory, open as inode 0, has the entry `a`, an executable. -/
def program_disk : filesys where
  disk :=
    { capacity := 32
      sectors := fun k =>
        if k = 1 then
          inode_disk.encode { start := 1, length := 20, magic := INODE_MAGIC, isdir := true }
        else if k = 8 then dir_entry.fill zeros [97] 10
        else if k = 10 then
          inode_disk.encode { start := 4, length := 64, magic := INODE_MAGIC, isdir := false }
        else if k = 11 then bare_ehdr
        else zeros
      written := [] }
  fat :=
    { bs := { magic := FAT_MAGIC, sectors_per_cluster := 1, total_sectors := 32
              fat_start := 1, fat_sectors := 1, root_dir_cluster := 1 }
      fat := fun k => if k = 1 ∨ k = 3 ∨ k = 4 then EOChain else 0
      fat_length := 16, data_start := 8, last_clst := 4 }
  inode i :=
    if i = 0 then some
      { sector := ROOT_DIR_SECTOR, open_cnt := 1, removed := false, deny_write_cnt := 0
        data := { start := 1, length := 20, magic := INODE_MAGIC, isdir := true } }
    else none
  next_inode := 1
  open_inodes := [0]
  file _ := none
  next_file := 0

theorem program_disk_wf : program_disk.OpenWf :=
  filesys.OpenWf.single rfl (fun _ hi => if_neg hi) rfl Nat.zero_lt_one le_rfl

/-- A process without memory of its own, over this disk. -/
def program_vm : vm where
  proc _ := process.empty
  next_proc := 2
  page _ := none
  next_page := 0
  frame _ := none
  next_frame := 0
  frame_table := []
  clock_start := none
  used _ := false
  pool_pages := 1
  mem _ := zeros
  swap_disk := { capacity := 8, sectors := fun _ => zeros, written := [] }
  swap_table _ := false
  files := program_disk
  lazy_load_segment_word := 0

/-- There are no segments to map, and the stack is set up. -/
def load_nothing : image_loader := fun s _ _ _ _ => .ok (true, s)

/-- The theorem at the command `a`. -/
theorem a_runs_protected : ∃ r s', process_exec load_nothing program_vm 1 (some 0)
    none [97] = .ok (r, s')
    ∧ r.success = true ∧ RunsProtected load_nothing program_vm 1 (some 0) none [97] r := by
  have hrun : (process_exec load_nothing program_vm 1 (some 0) none [97]).satisfies
      (fun r => r.1.success) = true := by
    decide +kernel
  obtain ⟨⟨r, s'⟩, hret, hsuccess⟩ := Outcome.satisfies_iff.mp hrun
  refine ⟨r, s', hret, hsuccess, (exec_program_iff load_nothing program_disk_wf hret).1.mpr ?_⟩
  rintro a dir s₂ dno ⟨f, fs, hlook, ha⟩ hd
  have hall : (exec_lookup program_vm 1 (some 0) none [97]).satisfies (fun q =>
      decide (q.1.target q.2.1 = some (some 10)) && (q.2.2.2.files.inode q.2.2.1).all fun dno =>
        decide (name_sector q.2.2.2.files dno.sector (parse_args [97])
          = .ok (some 10))) = true := by
    decide +kernel
  obtain ⟨q, hq, hfound⟩ := Outcome.satisfies_iff.mp hall
  rw [hlook] at hq
  obtain rfl := Outcome.ok.inj hq
  obtain ⟨htarget, hname⟩ := Bool.and_eq_true_iff.mp hfound
  obtain rfl := Option.some.inj (Option.some.inj (ha.symm.trans (of_decide_eq_true htarget)))
  rw [hd] at hname
  exact .inl (of_decide_eq_true hname)

/-- `/a` names a loadable program, and `process_exec` fails to load it. -/
theorem slash_a_is_not_loaded :
    ∃ r s', process_exec load_nothing program_vm 1 (some 0) none [SLASH, 97] = .ok (r, s')
      ∧ r.success = false ∧ NamesLoadable load_nothing program_vm 1 (some 0) none [SLASH, 97]
      ∧ ¬ RunsProtected load_nothing program_vm 1 (some 0) none [SLASH, 97] r := by
  have hrun : (process_exec load_nothing program_vm 1 (some 0) none [SLASH, 97]).satisfies
      (fun r => !r.1.success) = true := by
    decide +kernel
  obtain ⟨⟨r, s'⟩, hret, hfail⟩ := Outcome.satisfies_iff.mp hrun
  have hsuccess : r.success = false := by simpa using hfail
  have hlook : (exec_lookup program_vm 1 (some 0) none [SLASH, 97]).satisfies (fun q =>
      decide (q.1 = .file 0) && decide (q.1.target q.2.1 = some (some 10))) = true := by
    decide +kernel
  have hload : (do
      let q ← exec_lookup program_vm 1 (some 0) none [SLASH, 97]
      let p ← programs.open_program q.2.2.2.files 10
      load_file load_nothing (q.2.2.2.set_files p.2) 1 p.1 [SLASH, 97]).satisfies
      (fun r => r.1) = true := by
    decide +kernel
  obtain ⟨⟨o, fs, dir, s₂⟩, hq, hfound⟩ := Outcome.satisfies_iff.mp hlook
  obtain ⟨hfile, htarget⟩ := Bool.and_eq_true_iff.mp hfound
  obtain rfl : o = .file 0 := of_decide_eq_true hfile
  have hnames : NamesLoadable load_nothing program_vm 1 (some 0) none [SLASH, 97] := by
    refine ⟨10, dir, s₂, ⟨0, fs, hq, of_decide_eq_true htarget⟩, ?_⟩
    rw [hq, Outcome.ok_bind] at hload
    obtain ⟨⟨done, s₃⟩, hrest, hdone⟩ := Outcome.satisfies_iff.mp hload
    obtain ⟨⟨f, fs'⟩, hopen, hfile'⟩ := Outcome.bind_eq_ok.mp hrest
    obtain rfl : done = true := hdone
    exact ⟨f, fs', s₃, hopen, hfile'⟩
  refine ⟨r, s', hret, hsuccess, hnames, fun h => ?_⟩
  rw [h.succeeds.mpr hnames] at hsuccess
  cases hsuccess

end Pintos
