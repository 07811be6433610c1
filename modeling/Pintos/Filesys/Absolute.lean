/-
What the path calls make of the current directory.

Four of the five functions see the current directory only where they start: without
one they start in the root, and so they do for a path that begins with a slash.
`sys_chdir` also gives up its handle on the old directory. `filesys_remove` compares
the directory it has found with the current one, and follows the pointer to it without
a test: a thread that has none, and every kernel thread has none, does not survive
the removal of a file that exists.
-/
import Pintos.Filesys.PathWalk

set_option autoImplicit false

namespace Pintos

/-! ## Current directories -/

/-- The open inode `i` can be somebody's current directory: it has not been freed and reused,
and not been removed. -/
structure ValidCwd (s : filesys) (i : ℕ) (ino : inode) : Prop where
  is_open : s.inode i = some ino
  good : ino.data.magic = INODE_MAGIC
  kept : ino.removed = false

/-- The last component of the path leads to an entry for sector `a`, from the root. -/
def NamesFromRoot (s : filesys) (path : c_string) (a : ℕ) : Prop :=
  ∃ last l z ofs e, (path_components path).getLast? = some last
    ∧ route s (path_components path).dropLast ROOT_DIR_SECTOR = .ok (some (l, z))
    ∧ entry_at s z last = .ok (some (ofs, e)) ∧ dir_entry.inode_sector e = a

/-- What `sys_chdir` does, less the names of heap objects: its result, the directory it has
changed to, the disk and the table. -/
def chdir_view (r : Outcome (Bool × Option ℕ × filesys)) :
    Outcome (Bool × Option ℕ × disk × fat_fs) := do
  let (success, cwd, s) ← r
  return (success, if success then some (start_sector s cwd false) else none, s.disk, s.fat)

/-- The four calls that do not compare behave the same with `cwd` and with `cwd'`. -/
structure SameCalls (s : filesys) (path : c_string) (cwd cwd' : Option ℕ) : Prop where
  create : ∀ initial_size,
    filesys_create s cwd path initial_size = filesys_create s cwd' path initial_size
  open_ : filesys_open s cwd path = filesys_open s cwd' path
  mkdir : sys_mkdir s cwd path = sys_mkdir s cwd' path
  chdir : chdir_view (sys_chdir s cwd path) = chdir_view (sys_chdir s cwd' path)

/-- Removing with `cwd` never succeeds, and writes nothing. -/
def Refused (s : filesys) (cwd : Option ℕ) (path : c_string) : Prop :=
  ∀ success s', filesys_remove s cwd path = .ok (success, s') →
    success = false ∧ s'.disk = s.disk ∧ s'.fat = s.fat

/-- **No current directory is the root, and absolute paths ignore it**, at a path and in a
state where the root directory is open as inode `d`. -/
structure CwdIsRoot (s : filesys) (d : ℕ) (path : c_string) : Prop where
  calls : SameCalls s path none (some d)
  remove : filesys_remove s none path = filesys_remove s (some d) path
  absolute : is_root_path path = true → ∀ c c' ino ino', ValidCwd s c ino → ValidCwd s c' ino' →
    SameCalls s path (some c) (some c')
      ∧ (NamesFromRoot s path ino.sector → Refused s (some c) path)
      ∧ (¬ NamesFromRoot s path ino.sector → ¬ NamesFromRoot s path ino'.sector →
          filesys_remove s (some c) path = filesys_remove s (some c') path)

section Start

variable {s : filesys} {d : ℕ} {ino : inode}

/-- With the root as current directory, every path starts where it does without one. -/
theorem start_dir_root (hwf : s.OpenWf) (hd : s.inode d = some ino)
    (hroot : ino.sector = ROOT_DIR_SECTOR) (is_root : Bool) :
    start_dir s (some d) is_root = start_dir s none is_root := by
  unfold start_dir
  cases is_root with
  | true => rfl
  | false => exact (dir_open_root_of_open hwf hd hroot).symm

theorem start_dir_checked_root (hwf : s.OpenWf) (hd : s.inode d = some ino)
    (hroot : ino.sector = ROOT_DIR_SECTOR) (is_root : Bool) :
    start_dir_checked s (some d) is_root = start_dir_checked s none is_root := by
  unfold start_dir_checked
  by_cases h : (is_root || !is_good_inode s d) = true
  · simp only [h, if_true]
  · simp only [h]
    exact (dir_open_root_of_open hwf hd hroot).symm

/-- The two places where a walk can start agree on where that is. -/
theorem start_calls {cwd cwd' : Option ℕ} {path : c_string}
    (hstart : start_dir s cwd (is_root_path path) = start_dir s cwd' (is_root_path path))
    (hchecked : start_dir_checked s cwd (is_root_path path)
      = start_dir_checked s cwd' (is_root_path path))
    (hchdir : chdir_view (sys_chdir s cwd path) = chdir_view (sys_chdir s cwd' path)) :
    SameCalls s path cwd cwd' := by
  refine ⟨fun initial_size => ?_, ?_, ?_, hchdir⟩
  · unfold filesys_create
    rw [hchecked]
  · unfold filesys_open
    rw [hchecked]
  · unfold sys_mkdir
    rw [hstart]

end Start

/-! ## `sys_chdir` -/

section Chdir

variable {s s₁ s₂ : filesys} {c : ℕ} {ino : inode}

/-- A valid current directory is still one after the handles of a walk. -/
theorem ValidCwd.extra {h : Multiset ℕ} (hc : ValidCwd s c ino) (hx : filesys.Extra s s₁ h) :
    ∃ ino', ValidCwd s₁ c ino' ∧ ino'.sector = ino.sector := by
  obtain ⟨ino', hi', hsec⟩ := hx.kept hc.is_open
  have hview := hx.view_open hi'
  rw [hsec, filesys.view_of_open hx.base hc.is_open] at hview
  rw [inode.mk.injEq] at hview
  obtain ⟨-, -, hrem, -, hdata⟩ := hview
  exact ⟨ino', ⟨hi', by rw [hdata]; exact hc.good, by rw [hrem]; exact hc.kept⟩, hsec⟩

/-- Giving up a valid current directory writes nothing. -/
theorem ValidCwd.close (hc : ValidCwd s c ino) :
    ∃ s', inode_close s c = .ok s' ∧ s'.disk = s.disk ∧ s'.fat = s.fat := by
  obtain ⟨s', hclose, hdisk, hfat, -⟩ := filesys.inode_close_plain hc.is_open fun _ => hc.kept
  exact ⟨s', hclose, hdisk, hfat⟩

/-- The sector of a directory that stays open when another handle is closed. -/
theorem start_sector_close (hwf : s.OpenWf) {i : ℕ} {jno : inode} (hi : s.inode i = some ino)
    (hclose : inode_close s i = .ok s₁) {j : ℕ} (hj : s.inode j = some jno)
    (hheld : jno.sector = ino.sector → 2 ≤ s.refs ino.sector) :
    start_sector s₁ (some j) false = jno.sector := by
  obtain ⟨n, hj'⟩ := filesys.inode_close_kept hwf hi hclose hj hheld
  unfold start_sector
  rw [Option.bind_some, hj']
  rfl

/-- `chdir ("/")`. -/
theorem chdir_root_view (hwf : s.OpenWf) (hc : ValidCwd s c ino)
    (hsel : select_sector s.disk ROOT_DIR_SECTOR) {path : c_string}
    (hpath : parse_path path = .ok []) (hroot : is_root_path path = true) :
    chdir_view (sys_chdir s (some c) path) = .ok (true, some ROOT_DIR_SECTOR, s.disk, s.fat) := by
  obtain ⟨s₁, hclose, hdisk, hfat⟩ := hc.close
  obtain ⟨hwf₁, -⟩ := filesys.refs_close hwf hc.is_open hclose
  obtain ⟨root, s₂, hopen⟩ := inode_open_returns hwf₁ (a := ROOT_DIR_SECTOR) (.inl (hdisk ▸ hsel))
  obtain ⟨hx, ino', hi', hsec⟩ := (filesys.Extra.refl hwf₁).open hopen
  unfold sys_chdir
  rw [hpath]
  simp only [Outcome.ok_bind, hroot, and_self, if_true, dir_close, hclose, dir_open_root, hopen]
  have hstart : start_sector s₂ (some root) false = ROOT_DIR_SECTOR := by
    unfold start_sector
    rw [Option.bind_some, hi']
    exact hsec
  simp [chdir_view, hstart, hx.disk, hx.fat, hdisk, hfat]

/-- The end of `sys_chdir` in front of a handle on sector `z`. -/
theorem chdir_to_view {z j : ℕ} {jno : inode} {h : Multiset ℕ} (hc : ValidCwd s c ino)
    (hx : filesys.Extra s s₁ (z ::ₘ h)) (hj : s₁.inode j = some jno) (hsec : jno.sector = z) :
    chdir_view (chdir_to s₁ (some c) (some j)) = chdir_view (chdir_to s₁ none (some j)) := by
  obtain ⟨cno, hc₁, hcsec⟩ := hc.extra hx
  obtain ⟨s₂, hclose, hdisk, hfat⟩ := hc₁.close
  unfold chdir_to
  simp only [filesys.get_inode_eq_ok.mpr hj, Outcome.ok_bind]
  by_cases hrem : jno.removed = true
  · rw [if_pos hrem, if_pos hrem]
    rfl
  · rw [if_neg hrem, if_neg hrem]
    simp only [dir_close, hclose, Outcome.ok_bind]
    have hheld : jno.sector = cno.sector → 2 ≤ s₁.refs cno.sector := by
      intro hsame
      have hzc : z = ino.sector := hsec.symm.trans (hsame.trans hcsec)
      rw [hzc] at hx
      rw [hcsec]
      exact hx.held_twice hc.is_open
    have hafter : start_sector s₂ (some j) false = jno.sector :=
      start_sector_close hx.wf hc₁.is_open hclose hj hheld
    have hbefore : start_sector s₁ (some j) false = jno.sector := by
      unfold start_sector
      rw [Option.bind_some, hj]
      rfl
    simp [chdir_view, hafter, hbefore, hdisk, hfat]

/-- `sys_chdir` with a valid current directory does what it does without one, when both start
in the same place. -/
theorem chdir_view_eq (hwf : s.OpenWf) (hc : ValidCwd s c ino)
    (hsel : select_sector s.disk ROOT_DIR_SECTOR) {path : c_string}
    (hstart : start_dir s (some c) (is_root_path path) = start_dir s none (is_root_path path)) :
    chdir_view (sys_chdir s (some c) path) = chdir_view (sys_chdir s none path) := by
  have hpath : parse_path path = .undefined ∨ parse_path path = .ok (path_components path) := by
    unfold parse_path
    split
    · exact .inr rfl
    · exact .inl rfl
  rcases hpath with hpath | hpath
  · simp only [sys_chdir, hpath, Outcome.undefined_bind]
  · by_cases hslash : is_root_path path = true ∧ path_components path = []
    · rw [hslash.2] at hpath
      rw [chdir_root_view hwf hc hsel hpath hslash.1]
      obtain ⟨root, s₂, hopen⟩ := inode_open_returns hwf (a := ROOT_DIR_SECTOR) (.inl hsel)
      obtain ⟨hx, ino', hi', hsec⟩ := (filesys.Extra.refl hwf).open hopen
      have hstart' : start_sector s₂ (some root) false = ROOT_DIR_SECTOR := by
        unfold start_sector
        rw [Option.bind_some, hi']
        exact hsec
      simp [sys_chdir, hpath, hslash.1, dir_close, dir_open_root, hopen, chdir_view, hstart',
        hx.disk, hx.fat]
    · unfold sys_chdir
      rw [hpath]
      simp only [Outcome.ok_bind, if_neg hslash, hstart]
      cases hs : start_dir s none (is_root_path path) with
      | ok r =>
          obtain ⟨i, s₁⟩ := r
          have hstarted := start_dir_started hwf hs
          simp only [Outcome.ok_bind]
          cases hw : dir_walk (path_components path) s₁ i with
          | ok r =>
              obtain ⟨found, s₂⟩ := r
              simp only [Outcome.ok_bind]
              rcases hstarted.walk hw with ⟨l, z, j, jno, rfl, -, hj, hsec, hx⟩ | ⟨rfl, -, -⟩
              · exact chdir_to_view hc hx hj hsec
              · rfl
          | panic => rfl
          | undefined => rfl
          | diverge => rfl
      | panic => rfl
      | undefined => rfl
      | diverge => rfl

end Chdir

/-! ## `filesys_remove` -/

section Remove

variable {s s' : filesys} {cwd cwd' : Option ℕ} {path : c_string} {a : ℕ} {success : Bool}

/-- What a path names is determined. -/
theorem NamesFromRoot.unique {b : ℕ} (h : NamesFromRoot s path a) (h' : NamesFromRoot s path b) :
    a = b := by
  obtain ⟨last, l, z, ofs, e, hlast, hroute, hentry, rfl⟩ := h
  obtain ⟨last', l', z', ofs', e', hlast', hroute', hentry', rfl⟩ := h'
  obtain rfl := Option.some.inj (hlast.symm.trans hlast')
  have hz : z = z' := congrArg Prod.snd (Option.some.inj
    (Outcome.ok.inj (hroute.symm.trans hroute')))
  rw [hz, hentry'] at hentry
  have he := congrArg Prod.snd (Option.some.inj (Outcome.ok.inj hentry))
  rw [show e' = e from he]

/-- The two handles that are out when `filesys_remove` has found its target. -/
structure Found (s s₃ : filesys) (path last : c_string) (dir find : ℕ)
    (dno fno : inode) : Prop where
  dir : s₃.inode dir = some dno
  find : s₃.inode find = some fno
  names : NamesFromRoot s path fno.sector
  extra : ∃ h, filesys.Extra s s₃ (fno.sector ::ₘ dno.sector ::ₘ h)

/-- A lookup behind a walk from the root. -/
theorem found_of_lookup (hwf : s.OpenWf)
    (hroot : start_sector s cwd (is_root_path path) = ROOT_DIR_SECTOR)
    {last : c_string} (hlast : (path_components path).getLast? = some last) {s₁ s₂ s₃ : filesys}
    {i j k : ℕ} (hstart : start_dir s cwd (is_root_path path) = .ok (i, s₁))
    (hwalk : dir_walk (path_components path).dropLast s₁ i = .ok (some j, s₂))
    (hlookup : dir_lookup s₂ j last = .ok (some k, s₃)) :
    ∃ dno fno, Found s s₃ path last j k dno fno := by
  have hs := start_dir_started hwf hstart
  rw [hroot] at hs
  rcases hs.walk hwalk with ⟨l, z, j', jno, hj', hr, hj, hz, hx⟩ | ⟨hnone, -⟩
  · obtain rfl := Option.some.inj hj'
    obtain ⟨ofs, e, hentry, hopen⟩ := dir_lookup_some hx hj hlookup
    rw [hz] at hentry
    obtain ⟨hx', kno, hk, hksec⟩ := hx.open hopen
    obtain ⟨n, hj''⟩ := filesys.inode_open_kept hx.wf hopen hj
    refine ⟨{ jno with open_cnt := n }, kno, hj'', hk, ?_, left_open s l, ?_⟩
    · exact ⟨last, l, z, ofs, e, hlast, hr, hentry, hksec.symm⟩
    · rw [hksec]
      show filesys.Extra s s₃ (_ ::ₘ jno.sector ::ₘ _)
      rw [hz]
      exact hx'
  · cases hnone

/-- Two current directories that start in the root differ only in what is done to a target that
is found. -/
theorem filesys_remove_congr (hwf : s.OpenWf)
    (hstart : start_dir s cwd (is_root_path path) = start_dir s cwd' (is_root_path path))
    (hroot : start_sector s cwd (is_root_path path) = ROOT_DIR_SECTOR)
    (hfound : ∀ s₃ dir find dno fno last, Found s s₃ path last dir find dno fno →
      remove_found s₃ cwd dir find last = remove_found s₃ cwd' dir find last) :
    filesys_remove s cwd path = filesys_remove s cwd' path := by
  unfold filesys_remove
  apply Outcome.bind_congr
  intro names hnames
  obtain rfl := parse_path_eq_ok hnames
  cases hlast : (path_components path).getLast? with
  | none => rfl
  | some last =>
      dsimp only
      rw [← hstart]
      apply Outcome.bind_congr
      rintro ⟨i, s₁⟩ hs
      apply Outcome.bind_congr
      rintro ⟨r, s₂⟩ hw
      cases r with
      | none => rfl
      | some j =>
          apply Outcome.bind_congr
          rintro ⟨find, s₃⟩ hl
          cases find with
          | none => rfl
          | some k =>
              obtain ⟨dno, fno, hf⟩ := found_of_lookup hwf hroot hlast hs hw hl
              exact hfound s₃ j k dno fno last hf

/-- What a removal that starts in the root has done when it returns. -/
theorem filesys_remove_cases (hwf : s.OpenWf)
    (hroot : start_sector s cwd (is_root_path path) = ROOT_DIR_SECTOR)
    (h : filesys_remove s cwd path = .ok (success, s')) :
    (success = false ∧ s'.disk = s.disk ∧ s'.fat = s.fat ∧ ∀ a, ¬ NamesFromRoot s path a)
      ∨ ∃ s₃ dir find dno fno last, Found s s₃ path last dir find dno fno
          ∧ remove_found s₃ cwd dir find last = .ok (success, s') := by
  obtain ⟨names, hnames, hlook⟩ := Outcome.bind_eq_ok.mp h
  obtain rfl := parse_path_eq_ok hnames
  cases hlast : (path_components path).getLast? with
  | none =>
      rw [hlast] at hlook
      obtain ⟨rfl, rfl⟩ := Outcome.ok_pair hlook
      refine .inl ⟨rfl, rfl, rfl, ?_⟩
      rintro a ⟨last, -, -, -, -, hlast', -⟩
      rw [hlast] at hlast'
      cases hlast'
  | some last =>
      rw [hlast] at hlook
      obtain ⟨⟨i, s₁⟩, hs, hwalk⟩ := Outcome.bind_eq_ok.mp hlook
      obtain ⟨⟨r, s₂⟩, hw, hat⟩ := Outcome.bind_eq_ok.mp hwalk
      have hstarted := start_dir_started hwf hs
      rw [hroot] at hstarted
      rcases hstarted.walk hw with ⟨l, z, j, jno, rfl, hr, hj, hz, hx⟩ | ⟨rfl, hr, h', -, hx⟩
      · obtain ⟨⟨find, s₃⟩, hl, hfound⟩ := Outcome.bind_eq_ok.mp hat
        cases find with
        | none =>
            obtain ⟨hentry, rfl⟩ := dir_lookup_none hx hj hl
            obtain ⟨rfl, rfl⟩ := Outcome.ok_pair hfound
            refine .inl ⟨rfl, hx.disk, hx.fat, ?_⟩
            rintro a ⟨last', l', z', ofs, e, hlast', hr', hentry', -⟩
            rw [hlast] at hlast'
            obtain rfl := Option.some.inj hlast'
            have hz' : z = z' :=
              congrArg Prod.snd (Option.some.inj (Outcome.ok.inj (hr.symm.trans hr')))
            rw [hz, hz', hentry'] at hentry
            cases hentry
        | some k =>
            obtain ⟨dno, fno, hf⟩ := found_of_lookup hwf hroot hlast hs hw hl
            exact .inr ⟨s₃, j, k, dno, fno, last, hf, hfound⟩
      · obtain ⟨rfl, rfl⟩ := Outcome.ok_pair hat
        refine .inl ⟨rfl, hx.disk, hx.fat, ?_⟩
        rintro a ⟨last', l', z', ofs, e, -, hr', -⟩
        rw [hr] at hr'
        cases hr'

/-- The comparison with a valid current directory. -/
theorem Found.is_same_dir {s₃ : filesys} {last : c_string} {dir find c : ℕ} {dno fno cno : inode}
    (hf : Found s s₃ path last dir find dno fno) (hc : ValidCwd s c cno) :
    is_same_dir s₃ find (some c) = .ok (fno.sector = cno.sector) := by
  obtain ⟨h, hx⟩ := hf.extra
  obtain ⟨cno', hc', hsec⟩ := hc.extra hx
  unfold Pintos.is_same_dir
  simp only [filesys.get_inode_eq_ok.mpr hf.find, filesys.get_inode_eq_ok.mpr hc'.is_open,
    Outcome.ok_bind, hsec]
  rfl

/-- Removing the current directory is refused. -/
theorem Found.refused {s₃ : filesys} {last : c_string} {dir find c : ℕ} {dno fno cno : inode}
    (hf : Found s s₃ path last dir find dno fno) (hc : ValidCwd s c cno)
    (hsame : fno.sector = cno.sector)
    (hrem : remove_found s₃ (some c) dir find last = .ok (success, s')) :
    success = false ∧ s'.disk = s.disk ∧ s'.fat = s.fat := by
  obtain ⟨h, hx⟩ := hf.extra
  unfold remove_found at hrem
  rw [hf.is_same_dir hc, Outcome.ok_bind] at hrem
  obtain ⟨s₄, hclose, hrem⟩ := Outcome.bind_eq_ok.mp hrem
  rw [if_pos (by simpa using hsame)] at hrem
  obtain ⟨s₅, hclose', hrem⟩ := Outcome.bind_eq_ok.mp hrem
  obtain ⟨rfl, rfl⟩ := Outcome.ok_pair hrem
  obtain ⟨n, hdir⟩ := filesys.inode_close_kept hx.wf hf.find hclose hf.dir (by
    intro hsec
    rw [hsec] at hx
    exact hx.two_le)
  have hx₄ := hx.close hf.find rfl hclose
  have hx₅ : filesys.Extra s s₄ (dno.sector ::ₘ (s.stuck fno.sector + h)) := by
    rwa [← Multiset.add_cons]
  have hx' := hx₅.close hdir rfl hclose'
  exact ⟨rfl, hx'.disk, hx'.fat⟩

end Remove

/-! ## All five -/

section Five

variable {s : filesys} {d : ℕ} {ino : inode} {path : c_string}

/-- Absolute paths, for any two valid current directories. -/
theorem absolute_calls (hwf : s.OpenWf) (hsel : select_sector s.disk ROOT_DIR_SECTOR)
    (habs : is_root_path path = true) {c c' : ℕ} {cno cno' : inode} (hc : ValidCwd s c cno)
    (hc' : ValidCwd s c' cno') : SameCalls s path (some c) (some c')
      ∧ (NamesFromRoot s path cno.sector → Refused s (some c) path)
      ∧ (¬ NamesFromRoot s path cno.sector → ¬ NamesFromRoot s path cno'.sector →
          filesys_remove s (some c) path = filesys_remove s (some c') path) := by
  have hstart : ∀ c : ℕ, start_dir s (some c) (is_root_path path)
      = start_dir s none (is_root_path path) := by
    intro c
    rw [habs]
    rfl
  have hchecked : ∀ c : ℕ, start_dir_checked s (some c) (is_root_path path)
      = start_dir_checked s none (is_root_path path) := by
    intro c
    rw [habs]
    rfl
  have hroot : start_sector s (some c) (is_root_path path) = ROOT_DIR_SECTOR := by
    unfold start_sector
    rw [Option.bind_some, hc.is_open, habs]
    rfl
  refine ⟨start_calls ((hstart c).trans (hstart c').symm) ((hchecked c).trans (hchecked c').symm)
    ((chdir_view_eq hwf hc hsel (hstart c)).trans (chdir_view_eq hwf hc' hsel (hstart c')).symm),
    ?_, ?_⟩
  · intro hnames success s' hrem
    rcases filesys_remove_cases hwf hroot hrem with ⟨rfl, hdisk, hfat, -⟩ | hfound
    · exact ⟨rfl, hdisk, hfat⟩
    · obtain ⟨s₃, dir, find, dno, fno, last, hf, hrem⟩ := hfound
      exact hf.refused hc (hf.names.unique hnames) hrem
  · intro hno hno'
    apply filesys_remove_congr hwf ((hstart c).trans (hstart c').symm) hroot
    intro s₃ dir find dno fno last hf
    have hne : ¬ fno.sector = cno.sector := fun h => hno (h ▸ hf.names)
    have hne' : ¬ fno.sector = cno'.sector := fun h => hno' (h ▸ hf.names)
    unfold remove_found
    rw [hf.is_same_dir hc, hf.is_same_dir hc', decide_eq_false hne, decide_eq_false hne']

/-- **The current directory matters exactly** when a thread that has none removes something that
exists. -/
theorem cwd_is_root_iff (hwf : s.OpenWf) (hd : ValidCwd s d ino)
    (hroot : ino.sector = ROOT_DIR_SECTOR) (hsel : select_sector s.disk ROOT_DIR_SECTOR)
    (hreturns : (filesys_remove s (some d) path).Returns) :
    CwdIsRoot s d path ↔ ¬ ∃ a, NamesFromRoot s path a := by
  have hstart := start_dir_root hwf hd.is_open hroot (is_root_path path)
  have hchecked := start_dir_checked_root hwf hd.is_open hroot (is_root_path path)
  constructor
  · rintro h ⟨a, hnames⟩
    obtain ⟨⟨success, s'⟩, hrem⟩ := hreturns
    rw [← h.remove] at hrem
    rcases filesys_remove_cases hwf rfl hrem with ⟨-, -, -, hno⟩ | hfound
    · exact hno a hnames
    · obtain ⟨s₃, dir, find, dno, fno, last, -, hrem⟩ := hfound
      -- `is_same_dir` follows the null pointer
      cases hrem
  · intro hno
    refine ⟨?_, ?_, fun habs c c' cno cno' hc hc' => absolute_calls hwf hsel habs hc hc'⟩
    · exact start_calls hstart.symm hchecked.symm (chdir_view_eq hwf hd hsel hstart).symm
    · apply filesys_remove_congr hwf hstart.symm rfl
      intro s₃ dir find dno fno last hf
      exact absurd ⟨_, hf.names⟩ hno

end Five

/-! ### A disk with a file in the root directory -/

/-- The root directory, open as inode 0, has the entry `a`, a file of one byte. -/
def one_byte_file : filesys where
  disk :=
    { capacity := 32
      sectors := fun k =>
        if k = 1 then
          inode_disk.encode { start := 1, length := 20, magic := INODE_MAGIC, isdir := true }
        else if k = 8 then dir_entry.fill zeros [97] 10
        else if k = 10 then
          inode_disk.encode { start := 4, length := 1, magic := INODE_MAGIC, isdir := false }
        else zeros
      written := [] }
  fat :=
    { bs := { magic := FAT_MAGIC, sectors_per_cluster := 1, total_sectors := 32
              fat_start := 1, fat_sectors := 1, root_dir_cluster := 1 }
      fat := fun k => if k = 1 ∨ k = 3 ∨ k = 4 then EOChain else 0
      fat_length := 16, data_start := 8, last_clst := 4 }
  inode i :=
    if i = 0 then some
      { sector := ROOT_DIR_SECTOR, open_cnt := 1, removed := false, deny_write_cnt := 0
        data := { start := 1, length := 20, magic := INODE_MAGIC, isdir := true } }
    else none
  next_inode := 1
  open_inodes := [0]
  file _ := none
  next_file := 0

theorem one_byte_file_wf : one_byte_file.OpenWf :=
  filesys.OpenWf.single rfl (fun _ hi => if_neg hi) rfl Nat.zero_lt_one le_rfl

/-- The path `/b` names nothing. -/
theorem no_b (a : ℕ) : ¬ NamesFromRoot one_byte_file [SLASH, 98] a := by
  rintro ⟨last, l, z, ofs, e, hlast, hroute, hentry, -⟩
  have hcomponents : path_components [SLASH, 98] = [[98]] := by decide
  rw [hcomponents] at hlast hroute
  have hlast' : last = [98] := (Option.some.inj hlast).symm
  obtain ⟨rfl, rfl⟩ := Prod.mk.inj (Option.some.inj (Outcome.ok.inj hroute))
  rw [hlast'] at hentry
  have hnone : (entry_at one_byte_file ROOT_DIR_SECTOR [98]).satisfies (·.isNone) = true := by
    decide +kernel
  obtain ⟨r, hr, hr'⟩ := Outcome.satisfies_iff.mp hnone
  rw [hr] at hentry
  rw [Outcome.ok.inj hentry] at hr'
  cases hr'

/-- The theorem at `/b`. -/
theorem b_needs_no_cwd : CwdIsRoot one_byte_file 0 [SLASH, 98] := by
  have hreturns : (filesys_remove one_byte_file (some 0) [SLASH, 98]).satisfies
      (fun _ => true) = true := by
    decide +kernel
  obtain ⟨r, hret, -⟩ := Outcome.satisfies_iff.mp hreturns
  apply (cwd_is_root_iff one_byte_file_wf ⟨rfl, rfl, rfl⟩ rfl (by decide) ⟨r, hret⟩).mpr
  rintro ⟨a, ha⟩
  exact no_b a ha

/-- A thread without a current directory that removes `a` brings the kernel down. With the root
as its current directory it succeeds. -/
theorem removing_a_follows_null : ¬ CwdIsRoot one_byte_file 0 [97]
    ∧ filesys_remove one_byte_file none [97] = .panic := by
  have hpanic : filesys_remove one_byte_file none [97] = .panic := by rfl
  have hrun : (filesys_remove one_byte_file (some 0) [97]).satisfies (fun r => r.1) = true := by
    decide +kernel
  obtain ⟨r, hret, -⟩ := Outcome.satisfies_iff.mp hrun
  refine ⟨fun h => ?_, hpanic⟩
  have hsame := h.remove
  rw [hpanic, hret] at hsame
  cases hsame

end Pintos
