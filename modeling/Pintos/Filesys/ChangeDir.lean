/-
Changing directory and then opening, against opening in one go.

`sys_chdir` and `filesys_open` walk the same components through the same directories,
so a row of names may be cut anywhere. In between, the old directory is closed: what
it showed from memory is then read from the disk. And the new directory has to pass the
test that `filesys_open` makes of the current directory and of no other: with a bad
magic number it is passed over in favour of the root, though the walk through it would
have gone on.
-/
import Pintos.Filesys.Absolute
import Pintos.Filesys.Resolve

set_option autoImplicit false

namespace Pintos

/-! ## Closing the old directory -/

/-- A valid current directory whose inode on the disk is the one in memory. -/
structure SyncedCwd (s : filesys) (c : ℕ) (ino : inode) : Prop extends ValidCwd s c ino where
  on_disk : select_sector s.disk ino.sector
  synced : ino.data = stored s.disk ino.sector

namespace filesys

variable {s s' t : filesys} {h : Multiset ℕ} {i c : ℕ} {ino : Pintos.inode}

/-- An inode that goes shows afterwards what is on the disk. -/
theorem view_free_inode (hwf : s.OpenWf) (hi : s.inode i = some ino) (a : ℕ) :
    (s.free_inode i).view a = if a = ino.sector then fresh_inode s.disk a else s.view a := by
  have hwf' := hwf.free_inode i
  by_cases hex : ∃ j jno, j ≠ i ∧ s.inode j = some jno ∧ jno.sector = a
  · obtain ⟨j, jno, hji, hj, rfl⟩ := hex
    have hne : ¬ jno.sector = ino.sector := fun hsec => hji (hwf.sector_inj hi hj hsec)
    rw [if_neg hne, view_of_open hwf' ((free_inode_other hji).trans hj), view_of_open hwf hj]
  · have hclosed : (s.free_inode i).view a = fresh_inode s.disk a := by
      apply view_of_closed hwf'
      intro j jno hj hsec
      obtain ⟨hji, hj⟩ := free_inode_cases hj
      exact hex ⟨j, jno, hji, hj, hsec⟩
    rw [hclosed]
    split
    · rfl
    · rename_i hne
      symm
      apply view_of_closed hwf
      intro j jno hj hsec
      apply hex
      refine ⟨j, jno, ?_, hj, hsec⟩
      rintro rfl
      rw [hi] at hj
      exact hne (hsec.symm.trans (congrArg Pintos.inode.sector (Option.some.inj hj).symm))

/-- **Closing the current directory** changes nothing that shows. -/
theorem Shows.close (hwf : s.OpenWf) (hc : SyncedCwd s c ino) (hclose : inode_close s c = .ok s') :
    s.Shows s' := by
  obtain ⟨ino₁, hc₁, hcases⟩ := inode_close_cases hclose
  rw [hc.is_open] at hc₁
  obtain rfl := Option.some.inj hc₁
  have hopen : ∀ a, s'.openable a = true ↔
      select_sector s'.disk a ∨ ∃ i ino, s'.inode i = some ino ∧ ino.sector = a :=
    fun a => openable_iff (refs_close hwf hc.is_open hclose).1
  rcases hcases with ⟨hmagic, -⟩ | ⟨-, hone, fs, hfs, rfl⟩ | ⟨-, hne, rfl⟩
  · exact absurd hc.good hmagic
  · have hsame : s.set_fat fs = s := by
      unfold inode_release at hfs
      rw [hc.kept] at hfs
      obtain rfl := Outcome.ok.inj hfs
      rfl
    rw [hsame] at hopen ⊢
    refine ⟨rfl, rfl, fun a => ?_, fun a => ?_⟩
    · rw [view_free_inode hwf hc.is_open]
      split
      · rename_i ha
        rw [ha, view_of_open hwf hc.is_open]
        exact hc.synced.symm
      · rfl
    · rw [Bool.eq_iff_iff, hopen, openable_iff hwf]
      constructor
      · rintro (hsel | ⟨j, jno, hj, hsec⟩)
        · exact .inl hsel
        · exact .inr ⟨j, jno, (free_inode_cases hj).2, hsec⟩
      · rintro (hsel | ⟨j, jno, hj, rfl⟩)
        · exact .inl hsel
        · by_cases hji : j = c
          · subst hji
            rw [hc.is_open] at hj
            obtain rfl := Option.some.inj hj
            exact .inl hc.on_disk
          · exact .inr ⟨j, jno, (free_inode_other hji).trans hj, rfl⟩
  · have hpos : 1 ≤ ino.open_cnt - 1 := by
      have := hwf.pos hc.is_open
      omega
    refine ⟨rfl, rfl, fun a => ?_, fun a => ?_⟩
    · rw [view_set_count hwf hc.is_open hpos]
    · rw [Bool.eq_iff_iff, hopen, openable_iff hwf]
      apply or_congr_right
      constructor
      · rintro ⟨j, jno, hj, hsec⟩
        rcases set_inode_cases hj with ⟨rfl, rfl⟩ | ⟨-, hj⟩
        · exact ⟨j, ino, hc.is_open, hsec⟩
        · exact ⟨j, jno, hj, hsec⟩
      · rintro ⟨j, jno, hj, rfl⟩
        by_cases hji : j = c
        · subst hji
          rw [hc.is_open] at hj
          obtain rfl := Option.some.inj hj
          exact ⟨j, _, Function.update_self _ _ _, rfl⟩
        · exact ⟨j, jno, (Function.update_of_ne hji _ _).trans hj, rfl⟩

end filesys

/-! ## `sys_chdir` -/

section Chdir

variable {s s' s₁ : filesys} {cwd cwd' : Option ℕ} {c j z : ℕ} {ino : inode} {path : c_string}

/-- It stays one under the handles of a walk. -/
theorem SyncedCwd.extra {h : Multiset ℕ} (hc : SyncedCwd s c ino) (hx : filesys.Extra s s₁ h) :
    ∃ ino', SyncedCwd s₁ c ino' ∧ ino'.sector = ino.sector := by
  obtain ⟨ino', hc', hsec⟩ := hc.toValidCwd.extra hx
  have hview := hx.view_open hc'.is_open
  rw [hsec, filesys.view_of_open hx.base hc.is_open, inode.mk.injEq] at hview
  obtain ⟨-, -, -, -, hdata⟩ := hview
  refine ⟨ino', ⟨hc', ?_, ?_⟩, hsec⟩
  · rw [hsec, hx.disk]
    exact hc.on_disk
  · rw [hdata, hsec, hx.disk]
    exact hc.synced

/-- `s'`, where inode `j` is the directory of sector `z`, shows what `s` shows. -/
structure Entered (s s' : filesys) (j z : ℕ) : Prop where
  wf : s'.OpenWf
  shows : s.Shows s'
  is_open : ∃ jno, s'.inode j = some jno ∧ jno.sector = z

/-- The old directory is closed, the new one stays. -/
theorem chdir_to_entered (hcwd : ∀ c, cwd = some c → ∃ ino, SyncedCwd s c ino)
    (hw : Walking s s₁ j z) (hrun : chdir_to s₁ cwd (some j) = .ok (true, cwd', s')) :
    cwd' = some j ∧ Entered s s' j z := by
  obtain ⟨h, jno, hj, hsec, hx, hh⟩ := hw
  obtain ⟨jno₁, hj₁, hrun⟩ := Outcome.bind_eq_ok.mp hrun
  rw [filesys.get_inode_eq_ok, hj] at hj₁
  obtain rfl := Option.some.inj hj₁
  split at hrun
  · cases Outcome.ok.inj hrun
  · obtain ⟨s₂, hclose, hrun⟩ := Outcome.bind_eq_ok.mp hrun
    obtain ⟨-, hrun⟩ := Outcome.ok_pair hrun
    obtain ⟨rfl, rfl⟩ := Prod.mk.inj hrun
    refine ⟨rfl, ?_⟩
    cases cwd with
    | none =>
        obtain rfl := Outcome.ok.inj hclose
        exact ⟨hx.wf, hx.shows hh, jno, hj, hsec⟩
    | some c =>
        obtain ⟨ino, hc⟩ := hcwd c rfl
        obtain ⟨ino', hc', hsec'⟩ := hc.extra hx
        obtain ⟨n, hj'⟩ := filesys.inode_close_kept hx.wf hc'.is_open hclose hj (by
          intro hsame
          have hzc : z = ino.sector := hsec.symm.trans (hsame.trans hsec')
          rw [hzc] at hx
          rw [hsec']
          exact hx.held_twice hc.is_open)
        exact ⟨(filesys.refs_close hx.wf hc'.is_open hclose).1,
          (hx.shows hh).trans (filesys.Shows.close hx.wf hc' hclose), _, hj', hsec⟩

/-- `chdir ("/")`. -/
theorem chdir_root_entered (hwf : s.OpenWf) (hcwd : ∀ c, cwd = some c → ∃ ino, SyncedCwd s c ino)
    (hclose : dir_close s cwd = .ok s₁) (hopen : dir_open_root s₁ = .ok (j, s')) :
    s.openable ROOT_DIR_SECTOR = true ∧ Entered s s' j ROOT_DIR_SECTOR := by
  have hclosed : s₁.OpenWf ∧ s.Shows s₁ := by
    cases cwd with
    | none =>
        obtain rfl := Outcome.ok.inj hclose
        exact ⟨hwf, rfl, rfl, fun _ => rfl, fun _ => rfl⟩
    | some c =>
        obtain ⟨ino, hc⟩ := hcwd c rfl
        exact ⟨(filesys.refs_close hwf hc.is_open hclose).1, filesys.Shows.close hwf hc hclose⟩
  obtain ⟨hwf₁, hshows⟩ := hclosed
  have hroot : s₁.openable ROOT_DIR_SECTOR = true := by
    by_contra hno
    have hfail := inode_open_resolves (filesys.Extra.refl hwf₁) (by simp) ROOT_DIR_SECTOR
    rw [if_neg hno, show inode_open s₁ ROOT_DIR_SECTOR = _ from hopen] at hfail
    cases hfail
  obtain ⟨hx, jno, hj, hsec⟩ := dir_open_root_started hwf₁ hopen
  have hopened : s₁.Shows s' := hx.shows fun b hb => by
    rw [Multiset.mem_singleton.mp hb]
    exact hroot
  exact ⟨hshows.openable _ ▸ hroot, hx.wf, hshows.trans hopened, jno, hj, hsec⟩

/-- A valid current directory is where every call starts. -/
theorem start_dir_valid (hcwd : ∀ c, cwd = some c → ∃ ino, SyncedCwd s c ino) (is_root : Bool) :
    start_dir s cwd is_root = start_dir_checked s cwd is_root := by
  cases cwd with
  | none => rfl
  | some c =>
      obtain ⟨ino, hc⟩ := hcwd c rfl
      have hgood : is_good_inode s c = true := by
        unfold is_good_inode
        rw [hc.is_open]
        exact decide_eq_true hc.good
      unfold start_dir start_dir_checked
      dsimp only
      rw [hgood, Bool.not_true, Bool.or_false]

/-- **`sys_chdir`** that succeeds has come to the directory its path leads to. -/
theorem sys_chdir_resolves (hwf : s.OpenWf) (hcwd : ∀ c, cwd = some c → ∃ ino, SyncedCwd s c ino)
    (hrun : sys_chdir s cwd path = .ok (true, cwd', s')) :
    ∃ a z j, start_resolved s (start_sector_checked s cwd (is_root_path path)) = .ok a
      ∧ resolve s (path_components path) a = .ok (some z) ∧ cwd' = some j ∧ Entered s s' j z := by
  obtain ⟨names, hnames, hrun⟩ := Outcome.bind_eq_ok.mp hrun
  obtain rfl := parse_path_eq_ok hnames
  split at hrun
  · rename_i hroot
    obtain ⟨s₁, hclose, hrun⟩ := Outcome.bind_eq_ok.mp hrun
    obtain ⟨⟨j, s₂⟩, hopen, hrun⟩ := Outcome.bind_eq_ok.mp hrun
    obtain ⟨-, hrun⟩ := Outcome.ok_pair hrun
    obtain ⟨rfl, rfl⟩ := Prod.mk.inj hrun
    obtain ⟨hsel, hentered⟩ := chdir_root_entered hwf hcwd hclose hopen
    refine ⟨ROOT_DIR_SECTOR, ROOT_DIR_SECTOR, j, ?_, ?_, rfl, hentered⟩
    · have hstart : start_sector_checked s cwd true = ROOT_DIR_SECTOR := by
        unfold start_sector_checked
        split
        · simp
        · rfl
      rw [hroot.1, hstart]
      exact if_pos hsel
    · rw [hroot.2]
      rfl
  · rw [start_dir_valid hcwd] at hrun
    obtain ⟨⟨i, s₁⟩, hstart, hrun⟩ := Outcome.bind_eq_ok.mp hrun
    obtain ⟨⟨r, s₂⟩, hwalk, hrun⟩ := Outcome.bind_eq_ok.mp hrun
    have hstarts := start_dir_checked_resolves hwf cwd (is_root_path path)
    rw [hstart] at hstarts
    obtain ⟨a, ha, hw⟩ := hstarts.of_ok
    have hwalks := dir_walk_resolves (path_components path) hw
    rw [hwalk] at hwalks
    obtain ⟨z, hz, hends⟩ := hwalks.of_ok
    cases z with
    | none =>
        obtain rfl : r = none := hends.1
        cases Outcome.ok.inj hrun
    | some z =>
        obtain ⟨j, hj, hw'⟩ := hends
        obtain rfl : r = some j := hj
        obtain ⟨rfl, hentered⟩ := chdir_to_entered hcwd hw' hrun
        exact ⟨a, z, j, ha, hz, rfl, hentered⟩

/-- What `filesys_open` finds in the new directory. -/
theorem open_target_entered {last : c_string} (he : Entered s s' j z)
    (hgood : is_good_inode s' j = true)
    (hrel : is_root_path path = false) (hlen : path.length < 128)
    (hlast : (path_components path).getLast? = some last) :
    open_target (filesys_open s' (some j) path)
      = resolve_file s (path_components path).dropLast last z >>= fun t => .ok (t.map some) := by
  obtain ⟨jno, hj, rfl⟩ := he.is_open
  have hstart : start_sector_checked s' (some j) false = jno.sector := by
    unfold is_good_inode at hgood
    rw [hj] at hgood
    unfold start_sector_checked
    rw [Option.bind_some, hj]
    simp [of_decide_eq_true hgood]
  have hopens := filesys_open_resolves he.wf (some j) hlen hlast
  rw [hrel, hstart, start_resolved, if_pos (filesys.openable_of_open he.wf hj), Outcome.ok_bind,
    he.shows.resolve_file] at hopens
  exact (hopens.bind fun q t hq => .ok hq.target).eq

/-- **Changing directory composes with opening**: in the directory of `p1`, provided its inode is
valid, `p2` is what `p1/p2` was before. -/
theorem chdir_composes (hwf : s.OpenWf) (hcwd : ∀ c, cwd = some c → ∃ ino, SyncedCwd s c ino)
    {p1 p2 : c_string} (hp1 : p1 ≠ []) (hrel : is_root_path p2 = false)
    (hp2 : path_components p2 ≠ []) (hlen : p1.length + 1 + p2.length < 128)
    (hchdir : sys_chdir s cwd p1 = .ok (true, cwd', s'))
    (hgood : ∀ j, cwd' = some j → is_good_inode s' j = true) :
    open_target (filesys_open s' cwd' p2)
      = open_target (filesys_open s cwd (p1 ++ SLASH :: p2)) := by
  obtain ⟨a, z, j, ha, hz, rfl, he⟩ := sys_chdir_resolves hwf hcwd hchdir
  obtain ⟨last, hlast⟩ : ∃ last, (path_components p2).getLast? = some last :=
    ⟨_, List.getLast?_eq_some_getLast hp2⟩
  rw [open_target_entered he (hgood j rfl) hrel (by omega) hlast]
  have hcomponents := path_components_append p1 p2
  have hlast' : (path_components (p1 ++ SLASH :: p2)).getLast? = some last := by
    rw [hcomponents, List.getLast?_append, hlast]
    rfl
  have hroot : is_root_path (p1 ++ SLASH :: p2) = is_root_path p1 := by
    unfold is_root_path
    rw [List.head?_append_of_ne_nil _ hp1]
  have hlong : (p1 ++ SLASH :: p2).length < 128 := by
    rw [List.length_append, List.length_cons]
    omega
  have hopens := filesys_open_resolves hwf cwd hlong hlast'
  rw [hroot, ha, Outcome.ok_bind, hcomponents, List.dropLast_append_of_ne_nil hp2,
    resolve_file_append, hz, Outcome.ok_bind] at hopens
  exact (hopens.bind fun q t hq => .ok hq.target).eq.symm

end Chdir

/-! ### A directory that is none any more -/

/-- The current directory `b` has lost its parent: the sector that `..` names holds the contents
of a file by now, with a byte where the flag of a directory would be. The root directory has
an entry `x`. -/
def orphan : filesys where
  disk :=
    { capacity := 32
      sectors := fun k =>
        if k = 1 then
          inode_disk.encode { start := 1, length := 20, magic := INODE_MAGIC, isdir := true }
        else if k = 8 then dir_entry.fill zeros [120] 10
        else if k = 10 then
          inode_disk.encode { start := 4, length := 1, magic := INODE_MAGIC, isdir := false }
        else if k = 12 then
          inode_disk.encode { start := 6, length := 20, magic := INODE_MAGIC, isdir := true }
        else if k = 13 then dir_entry.fill zeros DOTDOT 14
        else if k = 14 then
          inode_disk.encode { start := 8, length := 0, magic := 0, isdir := true }
        else zeros
      written := [] }
  fat :=
    { bs := { magic := FAT_MAGIC, sectors_per_cluster := 1, total_sectors := 32
              fat_start := 1, fat_sectors := 1, root_dir_cluster := 1 }
      fat := fun k => if k = 1 ∨ k = 3 ∨ k = 4 ∨ k = 5 ∨ k = 6 then EOChain else 0
      fat_length := 16, data_start := 8, last_clst := 6 }
  inode i :=
    if i = 0 then some
      { sector := 12, open_cnt := 1, removed := false, deny_write_cnt := 0
        data := { start := 6, length := 20, magic := INODE_MAGIC, isdir := true } }
    else none
  next_inode := 1
  open_inodes := [0]
  file _ := none
  next_file := 0

theorem orphan_wf : orphan.OpenWf :=
  filesys.OpenWf.single rfl (fun _ hi => if_neg hi) rfl Nat.zero_lt_one le_rfl

/-- Its current directory. -/
def orphan_inode : inode where
  sector := 12
  open_cnt := 1
  removed := false
  deny_write_cnt := 0
  data := { start := 6, length := 20, magic := INODE_MAGIC, isdir := true }

theorem orphan_cwd : SyncedCwd orphan 0 orphan_inode where
  is_open := rfl
  good := rfl
  kept := rfl
  on_disk := by decide
  synced := by decide +kernel

/-- The theorem at `chdir ("/")` and `x`. -/
theorem root_composes_with_x : ∃ cwd' s', sys_chdir orphan (some 0) [SLASH] = .ok (true, cwd', s')
    ∧ open_target (filesys_open s' cwd' [120])
      = open_target (filesys_open orphan (some 0) [SLASH, SLASH, 120]) := by
  have hrun : (sys_chdir orphan (some 0) [SLASH]).satisfies (fun r =>
      r.1 && r.2.1.all fun j => is_good_inode r.2.2 j) = true := by
    decide +kernel
  obtain ⟨⟨success, cwd', s'⟩, hret, hgood⟩ := Outcome.satisfies_iff.mp hrun
  obtain ⟨hsuccess, hgood⟩ := Bool.and_eq_true_iff.mp hgood
  obtain rfl : success = true := hsuccess
  refine ⟨cwd', s', hret, chdir_composes orphan_wf ?_ (by decide) rfl (by decide)
    (by decide) hret ?_⟩
  · intro c hc
    obtain rfl := Option.some.inj hc
    exact ⟨orphan_inode, orphan_cwd⟩
  · intro j hj
    obtain rfl : cwd' = some j := hj
    exact hgood

/-- After `chdir ("..")` the name `x` is looked up in the root directory and found. `../x` is
looked up where `..` leads to, and not found. -/
theorem x_behind_dotdot : orphan.OpenWf ∧ SyncedCwd orphan 0 orphan_inode
    ∧ ∃ cwd' s', sys_chdir orphan (some 0) DOTDOT = .ok (true, cwd', s')
      ∧ open_target (filesys_open s' cwd' [120])
        ≠ open_target (filesys_open orphan (some 0) (DOTDOT ++ SLASH :: [120])) := by
  have hrun : (sys_chdir orphan (some 0) DOTDOT).satisfies (fun r =>
      r.1 && decide (open_target (filesys_open r.2.2 r.2.1 [120])
        = .ok (some (some 10)))) = true := by
    decide +kernel
  obtain ⟨⟨success, cwd', s'⟩, hret, hfound⟩ := Outcome.satisfies_iff.mp hrun
  obtain ⟨hsuccess, hfound⟩ := Bool.and_eq_true_iff.mp hfound
  obtain rfl : success = true := hsuccess
  refine ⟨orphan_wf, orphan_cwd, cwd', s', hret, ?_⟩
  have hnone : open_target (filesys_open orphan (some 0) (DOTDOT ++ SLASH :: [120]))
      = .ok none := by
    decide +kernel
  rw [of_decide_eq_true hfound, hnone]
  decide

end Pintos
