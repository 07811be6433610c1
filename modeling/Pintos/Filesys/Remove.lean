/-
What `filesys_remove` reports.

The result is worked out twice: `dir_remove` says whether the entry was erased, and
afterwards the inode of the target is looked at once more. If that is a directory
which is still open somewhere, the call returns false, although the entry is gone
and the inode is marked. In every other case the result is right.

An entry is gone when its `in_use` byte is zero on the disk. That is its last byte,
so it is in the last piece that `inode_write_at` writes, and no later piece can hit
it; only the inode's own sector is written after it.
-/
import Pintos.Filesys.Balance

set_option autoImplicit false

namespace Pintos

/-! ## A write inside the file -/

section Inplace

variable {d d' : disk} {fs : fat_fs} {ino : inode}

end Inplace

/-! ## An entry on the disk -/

section Entry

variable {s s' : filesys} {ino : inode} {name : c_string}

/-- The byte on the disk that says whether the entry at `ofs` of the directory of
sector `a` is in use. -/
def HasFlag (s : filesys) (a ofs : ℕ) (d : disk) (v : UInt8) : Prop :=
  ∃ sec, byte_to_sector s.fat (s.view a) ((ofs + 19 : ℕ) : ℤ) = .ok sec
    ∧ d.sectors sec ((ofs + 19) % 512) = v

end Entry

/-! ## The mark -/

section Mark

variable {s s' : filesys} {t : ℕ}

/-- The inode of sector `t` is marked removed, or the mark has already been acted on:
nobody holds the inode any more, and its cluster is free. -/
def Marked (s : filesys) (t : ℕ) : Prop :=
  match s.open_at t with
  | some ino => ino.removed = true
  | none => s.fat.fat (sector_to_cluster s.fat t) = 0

theorem marked_iff (hwf : s.OpenWf) : Marked s t ↔
    (∀ i ino, s.inode i = some ino → ino.sector = t → ino.removed = true)
    ∧ ((∀ i ino, s.inode i = some ino → ino.sector ≠ t) →
      s.fat.fat (sector_to_cluster s.fat t) = 0) := by
  unfold Marked
  cases ht : s.open_at t with
  | some ino =>
      obtain ⟨i, hi, rfl⟩ := (filesys.open_at_eq_some hwf).mp ht
      constructor
      · intro hrem
        refine ⟨fun j jno hj hsec => ?_, fun hno => absurd rfl (hno i ino hi)⟩
        obtain rfl := hwf.sector_inj hi hj hsec
        rw [hi] at hj
        obtain rfl := Option.some.inj hj
        exact hrem
      · rintro ⟨hrem, -⟩
        exact hrem i ino hi rfl
  | none =>
      have hno : ∀ i ino, s.inode i = some ino → ino.sector ≠ t := by
        rintro i ino hi rfl
        rw [(filesys.open_at_eq_some hwf).mpr ⟨i, hi, rfl⟩] at ht
        cases ht
      constructor
      · exact fun hzero => ⟨fun i ino hi hsec => absurd hsec (hno i ino hi), fun _ => hzero⟩
      · exact fun h => h.2 hno

/-- Releasing a chain frees its first cluster, and what is free stays free. -/
theorem fat_remove_chain_loop_zero (fuel : ℕ) : ∀ {fs fs' : fat_fs} {clst : ℕ},
    fat_remove_chain_loop fuel fs clst = .ok fs' →
      fs'.fat_length = fs.fat_length ∧ fs'.data_start = fs.data_start
      ∧ (∀ k, fs.fat k = 0 → fs'.fat k = 0) ∧ (clst ≠ EOChain → fs'.fat clst = 0) := by
  induction fuel with
  | zero =>
      intro fs fs' clst h
      cases h
  | succ fuel ih =>
      intro fs fs' clst h
      rw [fat_remove_chain_loop] at h
      by_cases hend : clst = EOChain
      · rw [if_pos hend] at h
        obtain rfl := Outcome.ok.inj h
        exact ⟨rfl, rfl, fun _ hk => hk, fun hne => absurd hend hne⟩
      · rw [if_neg hend] at h
        obtain ⟨next, -, h⟩ := Outcome.bind_eq_ok.mp h
        obtain ⟨fs₁, hput, h⟩ := Outcome.bind_eq_ok.mp h
        unfold fat_put at hput
        split at hput
        · obtain rfl := Outcome.ok.inj hput
          -- the search position may move; the entries are those of the update
          obtain ⟨fs₂, hfs₂⟩ : ∃ fs₂, fs₂ = if fs.last_clst = clst then
              { fs with fat := Function.update fs.fat clst 0, last_clst := 2 }
              else { fs with fat := Function.update fs.fat clst 0 } := ⟨_, rfl⟩
          have hlen₂ : fs₂.fat_length = fs.fat_length := by rw [hfs₂]; split <;> rfl
          have hstart₂ : fs₂.data_start = fs.data_start := by rw [hfs₂]; split <;> rfl
          have hfat₂ : fs₂.fat = Function.update fs.fat clst 0 := by rw [hfs₂]; split <;> rfl
          have h₂ : fat_remove_chain_loop fuel fs₂ next = .ok fs' := by rw [hfs₂]; exact h
          obtain ⟨hlen, hstart, hzero, -⟩ := ih h₂
          refine ⟨hlen.trans hlen₂, hstart.trans hstart₂, fun k hk => ?_, fun _ => ?_⟩
          · apply hzero
            rw [hfat₂]
            by_cases hkc : k = clst
            · rw [hkc, Function.update_self]
            · rw [Function.update_of_ne hkc, hk]
          · apply hzero
            rw [hfat₂, Function.update_self]
        · cases hput

theorem fat_release_zero {fs fs' : fat_fs} {clst : ℕ} (hg : fs.Geometry)
    (h : fat_release fs clst = .ok fs') :
    fs'.fat_length = fs.fat_length ∧ fs'.data_start = fs.data_start
      ∧ (∀ k, fs.fat k = 0 → fs'.fat k = 0) ∧ fs'.fat clst = 0 := by
  obtain ⟨u, hassert, h⟩ := Outcome.bind_eq_ok.mp h
  have hlt : clst < fs.fat_length := Outcome.assert_eq_ok.mp hassert
  have hloop : fat_remove_chain_loop (fs.fat_length + 1) fs clst = .ok fs' := h
  obtain ⟨hlen, hstart, hzero, hself⟩ := fat_remove_chain_loop_zero _ hloop
  have hne : clst ≠ EOChain := by
    have := hg.length_le
    omega
  exact ⟨hlen, hstart, hzero, hself hne⟩

theorem Geometry_congr {fs fs' : fat_fs} (hg : fs.Geometry) (hlen : fs'.fat_length = fs.fat_length)
    (hstart : fs'.data_start = fs.data_start) : fs'.Geometry := by
  constructor
  · rw [hlen]; exact hg.two_lt
  · rw [hlen]; exact hg.length_le
  · rw [hstart]; exact hg.start_pos
  · rw [hlen, hstart]; exact hg.no_wrap

/-- The blocks of an inode that goes: those of a removed one are free. -/
theorem inode_release_zero {fs fs' : fat_fs} {ino : inode} (hg : fs.Geometry)
    (h : inode_release fs ino = .ok fs') :
    fs'.fat_length = fs.fat_length ∧ fs'.data_start = fs.data_start
      ∧ (∀ k, fs.fat k = 0 → fs'.fat k = 0)
      ∧ (ino.removed = true → fs'.fat (sector_to_cluster fs' ino.sector) = 0) := by
  unfold inode_release at h
  cases hrem : ino.removed with
  | false =>
      rw [hrem] at h
      obtain rfl := Outcome.ok.inj h
      exact ⟨rfl, rfl, fun _ hk => hk, fun hyes => by cases hyes⟩
  | true =>
      rw [hrem] at h
      obtain ⟨fs₁, hdata, hself⟩ := Outcome.bind_eq_ok.mp h
      obtain ⟨hlen₁, hstart₁, hzero₁, -⟩ := fat_release_zero hg hdata
      obtain ⟨hlen, hstart, hzero, hfree⟩ :=
        fat_release_zero (Geometry_congr hg hlen₁ hstart₁) hself
      refine ⟨hlen.trans hlen₁, hstart.trans hstart₁,
        fun k hk => hzero k (hzero₁ k hk), fun _ => ?_⟩
      have hcluster : sector_to_cluster fs' ino.sector = sector_to_cluster fs₁ ino.sector := by
        unfold sector_to_cluster
        rw [hstart]
      rw [hcluster]
      exact hfree

/-- **The mark survives closes**, its own included. -/
theorem Marked.close (hwf : s.OpenWf) (hg : s.fat.Geometry) {i : ℕ} (hm : Marked s t)
    (hclose : inode_close s i = .ok s') :
    Marked s' t ∧ s'.fat.Geometry ∧ s'.disk = s.disk := by
  obtain ⟨ino, hi, hcases⟩ := inode_close_cases hclose
  have hwf' := (filesys.refs_close hwf hi hclose).1
  rw [marked_iff hwf] at hm
  rw [marked_iff hwf']
  have hopen : ∀ k kno', s'.inode k = some kno' → kno'.sector = t → kno'.removed = true := by
    intro k kno' hk hsec
    obtain ⟨kno, hk₀, heq⟩ := filesys.inode_close_back hclose hk
    rw [heq] at hsec ⊢
    exact hm.1 k kno hk₀ hsec
  rcases hcases with ⟨-, rfl⟩ | ⟨-, hone, fs, hfs, rfl⟩ | ⟨-, hne, rfl⟩
  · exact ⟨hm, hg, rfl⟩
  · obtain ⟨hlen, hstart, hzero, hfree⟩ := inode_release_zero hg hfs
    refine ⟨⟨hopen, fun hno => ?_⟩, Geometry_congr hg hlen hstart, rfl⟩
    show fs.fat (sector_to_cluster fs t) = 0
    by_cases hself : ino.sector = t
    · -- the inode that goes is the one of `t`
      rw [← hself]
      exact hfree (hm.1 i ino hi hself)
    · have hcluster : sector_to_cluster fs t = sector_to_cluster s.fat t := by
        unfold sector_to_cluster
        rw [hstart]
      rw [hcluster]
      refine hzero _ (hm.2 fun k kno hk hsec => ?_)
      have hki : k ≠ i := by
        rintro rfl
        rw [hi] at hk
        obtain rfl := Option.some.inj hk
        exact hself hsec
      exact hno k kno ((filesys.free_inode_other hki).trans hk) hsec
  · refine ⟨⟨hopen, fun hno => hm.2 fun k kno hk hsec => ?_⟩, hg, rfl⟩
    by_cases hki : k = i
    · subst hki
      rw [hi] at hk
      obtain rfl := Option.some.inj hk
      exact hno k _ (Function.update_self _ _ _) hsec
    · exact hno k kno ((Function.update_of_ne hki _ _).trans hk) hsec

end Mark

/-! ## What is reported -/

section Report

variable {s₀ s s' : filesys} {cwd : Option ℕ} {path name : c_string} {b : Bool}

/-- The entries of a directory are not in the sector of its inode. -/
def Apart (s : filesys) (z : ℕ) : Prop := ∀ pos sec, pos < (s.view z).data.length →
  byte_to_sector s.fat (s.view z) pos = .ok sec → sec ≠ z

/-- The contents of every directory and the `removed` flag of every inode are as
before. -/
structure Same (s s' : filesys) : Prop where
  sectors : s'.disk.sectors = s.disk.sectors
  fat : s'.fat.fat = s.fat.fat
  view : ∀ a, s'.view a = s.view a

theorem filesys.Extra.same {h : Multiset ℕ} (hx : filesys.Extra s s' h) : Same s s' :=
  ⟨by rw [hx.disk], by rw [hx.fat], hx.view⟩

/-- The entry that the path names was there, is gone, and its inode is marked. -/
def Erased (s : filesys) (cwd : Option ℕ) (path : c_string) (s' : filesys) : Prop :=
  ∃ l z ofs e, remove_target s cwd path = .ok (some (l, z, ofs, e))
    ∧ HasFlag s z ofs s'.disk 0 ∧ Marked s' (dir_entry.inode_sector e)

/-- The result of `filesys_remove` says what happened. -/
def Reports (s : filesys) (cwd : Option ℕ) (path : c_string) (b : Bool) (s' : filesys) : Prop :=
  (b = true ↔ Erased s cwd path s') ∧ (b = false ↔ Same s s')

theorem HasFlag.unique {a ofs : ℕ} {d : disk} {v w : UInt8} (hv : HasFlag s a ofs d v)
    (hw : HasFlag s a ofs d w) : v = w := by
  obtain ⟨sec, hsec, rfl⟩ := hv
  obtain ⟨sec', hsec', rfl⟩ := hw
  rw [hsec] at hsec'
  obtain rfl := Outcome.ok.inj hsec'
  rfl

/-- The flag is where it was when the sectors are. -/
theorem HasFlag.congr {a ofs : ℕ} {d d' : disk} {v : UInt8} (h : HasFlag s a ofs d v)
    (hd : d'.sectors = d.sectors) : HasFlag s a ofs d' v := by
  obtain ⟨sec, hsec, hbyte⟩ := h
  exact ⟨sec, hsec, by rw [hd]; exact hbyte⟩

end Report

/-- A disk with an empty directory `d` in the root directory. The root directory is
the working directory; somebody else has `d` open. -/
def dir_d : filesys where
  disk :=
    { capacity := 32
      sectors := fun k =>
        if k = 1 then
          inode_disk.encode { start := 1, length := 20, magic := INODE_MAGIC, isdir := true }
        else if k = 8 then dir_entry.fill zeros [100] 10
        else if k = 10 then
          inode_disk.encode { start := 4, length := 0, magic := INODE_MAGIC, isdir := true }
        else zeros
      written := [] }
  fat :=
    { bs := { magic := FAT_MAGIC, sectors_per_cluster := 1, total_sectors := 32
              fat_start := 1, fat_sectors := 1, root_dir_cluster := 1 }
      fat := fun k => if k = 1 ∨ k = 3 ∨ k = 4 then EOChain else 0
      fat_length := 16, data_start := 8, last_clst := 4 }
  inode i :=
    if i = 0 then
      some { sector := 1, open_cnt := 1, removed := false, deny_write_cnt := 0
             data := { start := 1, length := 20, magic := INODE_MAGIC, isdir := true } }
    else if i = 1 then
      some { sector := 10, open_cnt := 1, removed := false, deny_write_cnt := 0
             data := { start := 4, length := 0, magic := INODE_MAGIC, isdir := true } }
    else none
  next_inode := 2
  open_inodes := [1, 0]
  file _ := none
  next_file := 0

end Pintos
