/-
`filesys/inode.c`: `inode_open`, `inode_reopen`, `inode_remove`, `inode_close`.

An inode that is open has one `struct inode`, however often it is opened; the
list `open_inodes` finds it by its sector. `inode_remove` only sets a flag. The
clusters go back to the table when the last holder closes.

`Life` is the invariant behind this. It is about the inodes of a set `live` of
sectors whose chains are sound, and about a list of handles: what was opened and
has not been closed yet. A step of `inode_step` is one of the four calls; each
handle is closed once because closing takes it out of the list.
-/
import Pintos.Filesys.File
import Pintos.Filesys.InodeAccess

set_option autoImplicit false

namespace Pintos

/-! ## The functions -/

namespace filesys

/-- `malloc` of a `struct inode`, linked in front of `open_inodes`. -/
@[simps] def new_inode (s : filesys) (ino : Pintos.inode) : filesys :=
  { s with inode := Function.update s.inode s.next_inode (some ino)
           next_inode := s.next_inode + 1
           open_inodes := s.next_inode :: s.open_inodes }

/-- `list_remove` and `free` of a `struct inode`. -/
@[simps] def free_inode (s : filesys) (i : ℕ) : filesys :=
  { s with inode := Function.update s.inode i none, open_inodes := s.open_inodes.erase i }

/-- The file system with another table. -/
@[simps] def set_fat (s : filesys) (fs : fat_fs) : filesys := { s with fat := fs }

end filesys

/-- The loop of `inode_open` over `open_inodes`. -/
def open_inodes_find (s : filesys) (sector : ℕ) : List ℕ → Outcome (Option ℕ)
  | [] => .ok none
  | i :: is => do
      let ino ← s.get_inode i
      if ino.sector = sector then return some i else open_inodes_find s sector is

/-- The end of `inode_open`, for an inode that is not open yet. -/
def inode_load (s : filesys) (sector : ℕ) : Outcome (ℕ × filesys) := do
  let b ← disk_read s.disk sector
  return (s.next_inode, s.new_inode
    { sector, open_cnt := 1, removed := false, deny_write_cnt := 0, data := inode_disk.decode b })

/-- `inode_open`. -/
def inode_open (s : filesys) (sector : ℕ) : Outcome (ℕ × filesys) := do
  let found ← open_inodes_find s sector s.open_inodes
  match found with
  | some i => do
      let s ← inode_reopen s i
      return (i, s)
  | none => inode_load s sector

/-- The blocks of a removed inode. -/
def inode_release (fs : fat_fs) (ino : inode) : Outcome fat_fs := do
  if ino.removed then
    let fs ← fat_release fs ino.data.start
    fat_release fs (sector_to_cluster fs ino.sector)
  else return fs

/-- `inode_close` of an inode that is not null. One with a bad magic number is
left alone, its count included. -/
def inode_close (s : filesys) (i : ℕ) : Outcome filesys := do
  let ino ← s.get_inode i
  if ino.data.magic ≠ INODE_MAGIC then return s
  else if ino.open_cnt - 1 = 0 then
    let fs ← inode_release s.fat ino
    return (s.set_fat fs).free_inode i
  else return s.set_inode i { ino with open_cnt := ino.open_cnt - 1 }

/-- `inode_remove`. -/
def inode_remove (s : filesys) (i : ℕ) : Outcome filesys := do
  let ino ← s.get_inode i
  return s.set_inode i { ino with removed := true }

/-! ## Runs -/

/-- The four calls. `reopen`, `remove` and `close` are made through a handle. -/
inductive inode_call
  | open (sector : ℕ)
  | reopen (i : ℕ)
  | remove (i : ℕ)
  | close (i : ℕ)
  deriving DecidableEq, Repr

/-- A file system, the handles on its inodes, and (ghost) the sectors of the
inodes whose clusters are allocated. -/
structure inode_holders where
  fs : filesys
  handles : List ℕ
  live : List ℕ

/-- The sectors that stay allocated when `i` is closed. -/
def live_after_close (x : inode_holders) (i : ℕ) : List ℕ :=
  match x.fs.inode i with
  | some ino => if ino.open_cnt = 1 ∧ ino.removed then x.live.filter (· ≠ ino.sector) else x.live
  | none => x.live

/-- One call, and the handle it gives or takes. -/
def inode_step (x : inode_holders) (c : inode_call) : Outcome inode_holders :=
  match c with
  | .open sector => do
      let (i, s) ← inode_open x.fs sector
      return { x with fs := s, handles := i :: x.handles }
  | .reopen i => do
      let s ← inode_reopen x.fs i
      return { x with fs := s, handles := i :: x.handles }
  | .remove i => do
      let s ← inode_remove x.fs i
      return { x with fs := s }
  | .close i => do
      let s ← inode_close x.fs i
      return { fs := s, handles := x.handles.erase i, live := live_after_close x i }

/-- A sequence of calls. -/
def inode_run : List inode_call → inode_holders → Outcome inode_holders
  | [], x => .ok x
  | c :: cs, x => do
      let x ← inode_step x c
      inode_run cs x

/-! ## The invariant -/

/-- The inode a sector holds. -/
def stored (d : disk) (sector : ℕ) : inode_disk := inode_disk.decode (d.sectors sector)

/-- The inode of `sector` has a cluster of its own, a chain of one. -/
def HasCluster (fs : fat_fs) (sector : ℕ) : Prop :=
  Chain fs (sector_to_cluster fs sector) [sector_to_cluster fs sector]

/-- The inodes of `live` have valid magic and data chains that are not empty, and
no cluster belongs to two of them. -/
structure InodesSound (d : disk) (fs : fat_fs) (live : List ℕ) (chain : ℕ → List ℕ) : Prop where
  wf : fs.Wf
  on_disk : ∀ a ∈ live, select_sector d a
  magic : ∀ a ∈ live, (stored d a).magic = INODE_MAGIC
  data : ∀ a ∈ live, chain a ≠ [] ∧ Chain fs (stored d a).start (chain a)
  disjoint : ∀ a ∈ live, ∀ b ∈ live, a ≠ b → ∀ k ∈ chain a, k ∉ chain b
  cluster : ∀ a ∈ live, ∀ b ∈ live, sector_to_cluster fs a ∉ chain b

/-- Who holds what. -/
structure inode_holders.Life (x : inode_holders) (chain : ℕ → List ℕ) : Prop where
  sound : InodesSound x.fs.disk x.fs.fat x.live chain
  nodup : x.fs.open_inodes.Nodup
  listed : ∀ i, i ∈ x.fs.open_inodes ↔ ∃ ino, x.fs.inode i = some ino
  fresh : ∀ {i ino}, x.fs.inode i = some ino → i < x.fs.next_inode
  /-- At most one `struct inode` for a sector. -/
  sector_inj : ∀ {i j ino ino'}, x.fs.inode i = some ino → x.fs.inode j = some ino' →
    ino'.sector = ino.sector → j = i
  live : ∀ {i ino}, x.fs.inode i = some ino → ino.sector ∈ x.live
  data : ∀ {i ino}, x.fs.inode i = some ino → ino.data = stored x.fs.disk ino.sector
  /-- The count is the number of handles that are out. -/
  count : ∀ {i ino}, x.fs.inode i = some ino → ino.open_cnt = x.handles.count i ∧ i ∈ x.handles
  held : ∀ i ∈ x.handles, ∃ ino, x.fs.inode i = some ino
  removed : ∀ {i ino}, x.fs.inode i = some ino → ino.removed = true →
    HasCluster x.fs.fat ino.sector

/-- A call with a handle that is out, or on an inode that is allocated. Only an
inode with a cluster of its own is removed. -/
def inode_holders.Allows (x : inode_holders) : inode_call → Prop
  | .open sector => sector ∈ x.live
  | .reopen i => i ∈ x.handles
  | .remove i => i ∈ x.handles ∧ ∀ ino, x.fs.inode i = some ino → HasCluster x.fs.fat ino.sector
  | .close i => i ∈ x.handles

section Find

variable {s : filesys} {sector : ℕ}

/-- The loop finds the open inode with this sector, if there is one. -/
theorem open_inodes_find_spec (sector : ℕ) (l : List ℕ)
    (hl : ∀ i ∈ l, ∃ ino, s.inode i = some ino) :
    (∃ i ino, i ∈ l ∧ s.inode i = some ino ∧ ino.sector = sector
      ∧ open_inodes_find s sector l = .ok (some i))
    ∨ ((∀ i ∈ l, ∀ ino, s.inode i = some ino → ino.sector ≠ sector)
      ∧ open_inodes_find s sector l = .ok none) := by
  induction l with
  | nil =>
      right
      exact ⟨by simp, rfl⟩
  | cons i l ih =>
      obtain ⟨ino, hino⟩ := hl i List.mem_cons_self
      rw [open_inodes_find, filesys.get_inode_eq_ok.mpr hino, Outcome.ok_bind]
      by_cases hsec : ino.sector = sector
      · left
        rw [if_pos hsec]
        exact ⟨i, ino, List.mem_cons_self, hino, hsec, rfl⟩
      · rw [if_neg hsec]
        rcases ih fun j hj => hl j (List.mem_cons_of_mem _ hj) with
          ⟨j, ino', hj, hino', hsec', hfind⟩ | ⟨hno, hfind⟩
        · left
          exact ⟨j, ino', List.mem_cons_of_mem _ hj, hino', hsec', hfind⟩
        · right
          refine ⟨fun j hj ino' hino' => ?_, hfind⟩
          rcases List.mem_cons.mp hj with rfl | hj
          · rw [hino] at hino'
            obtain rfl := Option.some.inj hino'
            exact hsec
          · exact hno j hj ino' hino'

end Find

/-! ## Reading through an inode -/

section Congr

variable {fs fs' : fat_fs} {ino : inode}

/-- The walk of `byte_to_sector` looks at the table on the chain only. -/
theorem byte_to_sector_loop_congr (hlen : fs'.fat_length = fs.fat_length)
    (hstart : fs'.data_start = fs.data_start) (l : List ℕ) :
    ∀ {c n : ℕ}, Path fs.fat c l EOChain → (∀ k ∈ l, k < fs.fat_length) → l ≠ [] →
      (∀ k ∈ l, fs'.fat k = fs.fat k) →
      byte_to_sector_loop fs' n c = byte_to_sector_loop fs n c := by
  induction l with
  | nil => exact fun _ _ h => absurd rfl h
  | cons x l ih =>
      intro c n hp hr _ hfat
      obtain ⟨rfl, hp⟩ := hp
      have hc := hr c List.mem_cons_self
      cases n with
      | zero =>
          rw [byte_to_sector_loop, byte_to_sector_loop, cluster_to_sector_congr hstart]
      | succ n =>
          rw [byte_to_sector_loop, byte_to_sector_loop, fat_get_ok hc, fat_get_ok (hlen ▸ hc),
            hfat c List.mem_cons_self]
          simp only [Outcome.ok_bind]
          by_cases hend : fs.fat c = EOChain
          · rw [if_pos hend, if_pos hend]
          · rw [if_neg hend, if_neg hend]
            refine ih hp (fun k hk => hr k (List.mem_cons_of_mem _ hk)) ?_
              fun k hk => hfat k (List.mem_cons_of_mem _ hk)
            rintro rfl
            exact hend hp

theorem byte_to_sector_congr (hlen : fs'.fat_length = fs.fat_length)
    (hstart : fs'.data_start = fs.data_start) {l : List ℕ} (hl : l ≠ [])
    (hch : Chain fs ino.data.start l) (hfat : ∀ k ∈ l, fs'.fat k = fs.fat k) :
    byte_to_sector fs' ino = byte_to_sector fs ino := by
  funext pos
  unfold byte_to_sector
  rw [byte_to_sector_loop_congr hlen hstart l hch.path (fun k hk => (hch.range k hk).2) hl hfat]

/-- Reading needs the table for nothing but `byte_to_sector`. -/
theorem inode_read_at_congr (h : byte_to_sector fs' ino = byte_to_sector fs ino) (d : disk) :
    inode_read_at d fs' ino = inode_read_at d fs ino := by
  have hloop : ∀ fuel, inode_read_at_loop d fs' ino fuel = inode_read_at_loop d fs ino fuel := by
    intro fuel
    induction fuel with
    | zero =>
        funext buffer size offset bytes_read
        rw [inode_read_at_loop, inode_read_at_loop]
    | succ fuel ih =>
        funext buffer size offset bytes_read
        rw [inode_read_at_loop, inode_read_at_loop, h, ih]
  funext buffer size offset
  unfold inode_read_at
  rw [hloop]

/-- Nor does the copy loop of a write. -/
theorem inode_write_at_loop_congr (h : byte_to_sector fs' ino = byte_to_sector fs ino)
    (buffer : Bytes) (fuel : ℕ) :
    inode_write_at_loop fs' ino buffer fuel = inode_write_at_loop fs ino buffer fuel := by
  induction fuel with
  | zero =>
      funext d size offset bytes_written
      rw [inode_write_at_loop, inode_write_at_loop]
  | succ fuel ih =>
      funext d size offset bytes_written
      rw [inode_write_at_loop, inode_write_at_loop, h, ih]

end Congr

/-! ## Releasing the clusters -/

section Release

variable {d : disk} {fs : fat_fs} {live : List ℕ} {chain : ℕ → List ℕ}

/-- The table without the clusters of the inode of `sector`. -/
def release_inode (fs : fat_fs) (sector : ℕ) (l : List ℕ) : fat_fs :=
  free_clusters (free_clusters fs l) [sector_to_cluster fs sector]

theorem release_inode_wf (h : fs.Wf) (sector : ℕ) (l : List ℕ) : (release_inode fs sector l).Wf :=
  free_clusters_wf (free_clusters_wf h l) _

/-- Elsewhere the table is as before. -/
theorem release_inode_other {sector k : ℕ} {l : List ℕ} (hl : k ∉ l)
    (hc : k ≠ sector_to_cluster fs sector) : (release_inode fs sector l).fat k = fs.fat k := by
  unfold release_inode free_clusters
  simp [hl, hc]

theorem release_inode_freed {sector k : ℕ} {l : List ℕ}
    (hk : k ∈ l ∨ k = sector_to_cluster fs sector) : (release_inode fs sector l).fat k = 0 := by
  unfold release_inode free_clusters
  rcases hk with hk | rfl
  · simp [hk]
  · simp

/-- Different sectors have different clusters. -/
theorem sector_to_cluster_inj (fs : fat_fs) {a b : ℕ} (ha : a < 2 ^ 28) (hb : b < 2 ^ 28)
    (h : sector_to_cluster fs a = sector_to_cluster fs b) : a = b := by
  unfold sector_to_cluster at h
  omega

/-- **The last close** of a removed inode frees its data chain and its cluster. -/
theorem inode_release_eq (h : InodesSound d fs live chain) {ino : inode} (hin : ino.sector ∈ live)
    (hdata : ino.data = stored d ino.sector)
    (hrem : ino.removed = true → HasCluster fs ino.sector) :
    inode_release fs ino = .ok
      (if ino.removed then release_inode fs ino.sector (chain ino.sector) else fs) := by
  unfold inode_release
  by_cases hr : ino.removed = true
  · rw [if_pos hr, if_pos hr]
    obtain ⟨hne, hch⟩ := h.data _ hin
    have hlt := (hch.range _ (hch.path.start_mem hne)).2
    have hfirst : fat_release fs ino.data.start
        = .ok (free_clusters fs (chain ino.sector)) := by
      rw [hdata]
      exact fat_remove_chain_eq h.wf hch hlt
    rw [hfirst, Outcome.ok_bind]
    -- the inode's own cluster is still a chain of one
    have hown := hrem hr
    have hown' : Chain (free_clusters fs (chain ino.sector)) (sector_to_cluster fs ino.sector)
        [sector_to_cluster fs ino.sector] := by
      refine Chain.congr hown ?_ fun k hk => ?_
      · rfl
      rw [List.mem_singleton] at hk
      subst hk
      exact if_neg (h.cluster _ hin _ hin)
    apply fat_remove_chain_eq (free_clusters_wf h.wf _) hown'
    exact (hown.range _ (List.mem_singleton_self _)).2
  · rw [if_neg hr, if_neg hr]
    rfl

/-- The other inodes do not notice. -/
theorem InodesSound.release (h : InodesSound d fs live chain) {sector : ℕ}
    (hin : sector ∈ live) :
    InodesSound d (release_inode fs sector (chain sector)) (live.filter (· ≠ sector)) chain := by
  have hmem : ∀ {a}, a ∈ live.filter (· ≠ sector) → a ∈ live ∧ a ≠ sector := by
    intro a ha
    simpa using List.mem_filter.mp ha
  constructor
  case wf => exact release_inode_wf h.wf _ _
  case on_disk => exact fun a ha => h.on_disk a (hmem ha).1
  case magic => exact fun a ha => h.magic a (hmem ha).1
  case data =>
    intro a ha
    obtain ⟨ha, hne⟩ := hmem ha
    obtain ⟨hnil, hch⟩ := h.data a ha
    refine ⟨hnil, hch.congr rfl fun k hk => ?_⟩
    apply release_inode_other
    · exact h.disjoint a ha sector hin hne k hk
    · rintro rfl
      exact h.cluster sector hin a ha hk
  case disjoint => exact fun a ha b hb => h.disjoint a (hmem ha).1 b (hmem hb).1
  case cluster => exact fun a ha b hb => h.cluster a (hmem ha).1 b (hmem hb).1

/-- Another inode keeps its own cluster. -/
theorem HasCluster.release (h : InodesSound d fs live chain) {sector a : ℕ} (hin : sector ∈ live)
    (ha : a ∈ live) (hne : a ≠ sector) (hown : HasCluster fs a) :
    HasCluster (release_inode fs sector (chain sector)) a := by
  refine Chain.congr hown ?_ fun k hk => ?_
  · rfl
  have hk : k = sector_to_cluster fs a := List.mem_singleton.mp hk
  subst hk
  apply release_inode_other
  · exact h.cluster a ha sector hin
  · intro heq
    exact hne (sector_to_cluster_inj fs (h.on_disk a ha).2 (h.on_disk sector hin).2 heq)

end Release

/-! ## One step -/

namespace inode_holders

variable {x : inode_holders} {chain : ℕ → List ℕ}

/-- Count and flag of an open inode change, and the handles with them. -/
theorem Life.set_inode (h : x.Life chain) {i : ℕ} {ino : inode} (hi : x.fs.inode i = some ino)
    (ino' : inode) (hs : List ℕ) (hsec : ino'.sector = ino.sector) (hdata : ino'.data = ino.data)
    (hself : ino'.open_cnt = hs.count i ∧ i ∈ hs)
    (hother : ∀ j, j ≠ i → hs.count j = x.handles.count j)
    (hrem : ino'.removed = true → HasCluster x.fs.fat ino.sector) :
    ({ x with fs := x.fs.set_inode i ino', handles := hs } : inode_holders).Life chain := by
  have hmem : ∀ j, j ≠ i → (j ∈ hs ↔ j ∈ x.handles) := by
    intro j hj
    rw [← List.count_pos_iff, hother j hj, List.count_pos_iff]
  -- an open inode after the step is `i`, or was open before
  have hcase : ∀ {j : ℕ} {jno : inode}, (x.fs.set_inode i ino').inode j = some jno →
      (j = i ∧ jno = ino') ∨ (j ≠ i ∧ x.fs.inode j = some jno) := by
    intro j jno hj
    rw [filesys.set_inode_inode] at hj
    by_cases hji : j = i
    · subst hji
      rw [Function.update_self] at hj
      exact .inl ⟨rfl, (Option.some.inj hj).symm⟩
    · rw [Function.update_of_ne hji] at hj
      exact .inr ⟨hji, hj⟩
  have hold : ∀ {j : ℕ} {jno : inode}, (x.fs.set_inode i ino').inode j = some jno →
      ∃ jno', x.fs.inode j = some jno' ∧ jno'.sector = jno.sector ∧ jno'.data = jno.data := by
    intro j jno hj
    rcases hcase hj with ⟨rfl, rfl⟩ | ⟨-, hj⟩
    · exact ⟨ino, hi, hsec.symm, hdata.symm⟩
    · exact ⟨jno, hj, rfl, rfl⟩
  constructor
  case sound => exact h.sound
  case nodup => exact h.nodup
  case listed =>
    intro j
    have hl := h.listed j
    show j ∈ x.fs.open_inodes ↔ ∃ jno, Function.update x.fs.inode i (some ino') j = some jno
    rw [hl]
    by_cases hji : j = i
    · subst hji
      simp [hi]
    · rw [Function.update_of_ne hji]
  case fresh =>
    intro j jno hj
    obtain ⟨jno', hj', -⟩ := hold hj
    exact h.fresh hj'
  case sector_inj =>
    intro j k jno kno hj hk hjk
    obtain ⟨jno', hj', hjs, -⟩ := hold hj
    obtain ⟨kno', hk', hks, -⟩ := hold hk
    apply h.sector_inj hj' hk'
    rw [hks, hjk, hjs]
  case live =>
    intro j jno hj
    obtain ⟨jno', hj', hjs, -⟩ := hold hj
    rw [← hjs]
    exact h.live hj'
  case data =>
    intro j jno hj
    obtain ⟨jno', hj', hjs, hjd⟩ := hold hj
    rw [← hjd, ← hjs]
    exact h.data hj'
  case count =>
    intro j jno hj
    rcases hcase hj with ⟨rfl, rfl⟩ | ⟨hji, hj⟩
    · exact hself
    · obtain ⟨hcnt, hin⟩ := h.count hj
      exact ⟨by rw [hcnt, hother j hji], (hmem j hji).mpr hin⟩
  case held =>
    intro j hj
    show ∃ jno, Function.update x.fs.inode i (some ino') j = some jno
    by_cases hji : j = i
    · subst hji
      exact ⟨ino', Function.update_self _ _ _⟩
    · rw [Function.update_of_ne hji]
      exact h.held j ((hmem j hji).mp hj)
  case removed =>
    intro j jno hj hr
    rcases hcase hj with ⟨rfl, rfl⟩ | ⟨-, hj⟩
    · show HasCluster x.fs.fat jno.sector
      rw [hsec]
      exact hrem hr
    · exact h.removed hj hr

/-- One more handle on an inode that is open. -/
theorem Life.reopen (h : x.Life chain) {i : ℕ} {ino : inode} (hi : x.fs.inode i = some ino) :
    ({ x with fs := x.fs.set_inode i { ino with open_cnt := ino.open_cnt + 1 }
              handles := i :: x.handles } : inode_holders).Life chain := by
  apply h.set_inode hi
  · rfl
  · rfl
  · refine ⟨?_, List.mem_cons_self⟩
    rw [List.count_cons_self, (h.count hi).1]
    push_cast
    rfl
  · intro j hj
    exact List.count_cons_of_ne (Ne.symm hj)
  · intro hr
    exact h.removed hi hr

/-- The flag is set. -/
theorem Life.remove (h : x.Life chain) {i : ℕ} {ino : inode} (hi : x.fs.inode i = some ino)
    (hc : HasCluster x.fs.fat ino.sector) :
    ({ x with fs := x.fs.set_inode i { ino with removed := true } } : inode_holders).Life
      chain := by
  apply h.set_inode hi
  · rfl
  · rfl
  · exact ⟨(h.count hi).1, (h.count hi).2⟩
  · exact fun _ _ => rfl
  · exact fun _ => hc

/-- A handle is closed that is not the last one. -/
theorem Life.close_shared (h : x.Life chain) {i : ℕ} {ino : inode} (hi : x.fs.inode i = some ino)
    (hin : i ∈ x.handles) (hcnt : ino.open_cnt ≠ 1) :
    ({ x with fs := x.fs.set_inode i { ino with open_cnt := ino.open_cnt - 1 }
              handles := x.handles.erase i } : inode_holders).Life chain := by
  have hcount := (h.count hi).1
  have hpos : 0 < x.handles.count i := List.count_pos_iff.mpr hin
  have herase : (x.handles.erase i).count i = x.handles.count i - 1 := List.count_erase_self
  apply h.set_inode hi
  · rfl
  · rfl
  · constructor
    · show ino.open_cnt - 1 = _
      omega
    · rw [← List.count_pos_iff]
      omega
  · intro j hj
    exact List.count_erase_of_ne hj
  · intro hr
    exact h.removed hi hr

/-- An inode is loaded that was not open. -/
theorem Life.load (h : x.Life chain) {sector : ℕ} (hlive : sector ∈ x.live)
    (hno : ∀ i ino, x.fs.inode i = some ino → ino.sector ≠ sector) :
    ({ x with fs := x.fs.new_inode { sector, open_cnt := 1, removed := false, deny_write_cnt := 0
                                     data := stored x.fs.disk sector }
              handles := x.fs.next_inode :: x.handles } : inode_holders).Life chain := by
  have hnone : x.fs.inode x.fs.next_inode = none := by
    cases hi : x.fs.inode x.fs.next_inode with
    | none => rfl
    | some ino => exact absurd (h.fresh hi) (lt_irrefl _)
  have hnot : x.fs.next_inode ∉ x.handles := by
    intro hin
    obtain ⟨ino, hi⟩ := h.held _ hin
    rw [hnone] at hi
    cases hi
  -- what is open afterwards is the new inode or was open before
  have hcase : ∀ {j : ℕ} {jno : inode},
      Function.update x.fs.inode x.fs.next_inode (some { sector, open_cnt := 1, removed := false
                                                         deny_write_cnt := 0
                                                         data := stored x.fs.disk sector }) j
        = some jno →
      (j = x.fs.next_inode ∧ jno.sector = sector ∧ jno.open_cnt = 1 ∧ jno.removed = false
        ∧ jno.data = stored x.fs.disk sector)
        ∨ (j ≠ x.fs.next_inode ∧ x.fs.inode j = some jno) := by
    intro j jno hj
    by_cases hji : j = x.fs.next_inode
    · subst hji
      rw [Function.update_self] at hj
      obtain rfl := Option.some.inj hj
      exact .inl ⟨rfl, rfl, rfl, rfl, rfl⟩
    · rw [Function.update_of_ne hji] at hj
      exact .inr ⟨hji, hj⟩
  constructor
  case sound => exact h.sound
  case nodup =>
    apply List.nodup_cons.mpr
    refine ⟨fun hin => ?_, h.nodup⟩
    obtain ⟨ino, hi⟩ := (h.listed _).mp hin
    rw [hnone] at hi
    cases hi
  case listed =>
    intro j
    rw [filesys.new_inode_open_inodes, filesys.new_inode_inode, List.mem_cons]
    by_cases hji : j = x.fs.next_inode
    · subst hji
      simp
    · rw [Function.update_of_ne hji, ← h.listed j]
      simp [hji]
  case fresh =>
    intro j jno hj
    show j < x.fs.next_inode + 1
    rcases hcase hj with ⟨rfl, -⟩ | ⟨-, hj⟩
    · exact Nat.lt_succ_self _
    · exact Nat.lt_succ_of_lt (h.fresh hj)
  case sector_inj =>
    intro j k jno kno hj hk hjk
    rcases hcase hj with ⟨rfl, hjs, -⟩ | ⟨-, hj⟩
    · rcases hcase hk with ⟨rfl, -⟩ | ⟨-, hk⟩
      · rfl
      · exact absurd (hjk.trans hjs) (hno k kno hk)
    · rcases hcase hk with ⟨rfl, hks, -⟩ | ⟨-, hk⟩
      · exact absurd (hjk.symm.trans hks) (hno j jno hj)
      · exact h.sector_inj hj hk hjk
  case live =>
    intro j jno hj
    rcases hcase hj with ⟨-, hjs, -⟩ | ⟨-, hj⟩
    · rw [hjs]
      exact hlive
    · exact h.live hj
  case data =>
    intro j jno hj
    rcases hcase hj with ⟨-, hjs, -, -, hjd⟩ | ⟨-, hj⟩
    · rw [hjs]
      exact hjd
    · exact h.data hj
  case count =>
    intro j jno hj
    rcases hcase hj with ⟨rfl, -, hcnt, -, -⟩ | ⟨hji, hj⟩
    · refine ⟨?_, List.mem_cons_self⟩
      rw [hcnt, List.count_cons_self, List.count_eq_zero.mpr hnot]
      rfl
    · obtain ⟨hcnt, hin⟩ := h.count hj
      rw [List.count_cons_of_ne (Ne.symm hji)]
      exact ⟨hcnt, List.mem_cons_of_mem _ hin⟩
  case held =>
    intro j hj
    rw [filesys.new_inode_inode]
    by_cases hji : j = x.fs.next_inode
    · subst hji
      exact ⟨_, Function.update_self _ _ _⟩
    · rw [Function.update_of_ne hji]
      exact h.held j ((List.mem_cons.mp hj).resolve_left hji)
  case removed =>
    intro j jno hj hr
    rcases hcase hj with ⟨-, -, -, hrem, -⟩ | ⟨-, hj⟩
    · rw [hrem] at hr
      cases hr
    · exact h.removed hj hr

/-- The last handle is closed. -/
theorem Life.close_last (h : x.Life chain) {i : ℕ} {ino : inode} (hi : x.fs.inode i = some ino)
    (hcnt : ino.open_cnt = 1) (fs' : fat_fs) (live' : List ℕ)
    (hsound : InodesSound x.fs.disk fs' live' chain)
    (hlive : ∀ a ∈ x.live, a ≠ ino.sector → a ∈ live')
    (hown : ∀ a ∈ x.live, a ≠ ino.sector → HasCluster x.fs.fat a → HasCluster fs' a) :
    ({ fs := (x.fs.set_fat fs').free_inode i, handles := x.handles.erase i
       live := live' } : inode_holders).Life chain := by
  have hone : x.handles.count i = 1 := by
    have := (h.count hi).1
    omega
  have hgone : i ∉ x.handles.erase i := by
    rw [← List.count_eq_zero, List.count_erase_self, hone]
  have hold : ∀ {j : ℕ} {jno : inode}, Function.update x.fs.inode i none j = some jno →
      j ≠ i ∧ x.fs.inode j = some jno ∧ jno.sector ≠ ino.sector := by
    intro j jno hj
    by_cases hji : j = i
    · subst hji
      rw [Function.update_self] at hj
      cases hj
    · rw [Function.update_of_ne hji] at hj
      exact ⟨hji, hj, fun heq => hji (h.sector_inj hi hj heq)⟩
  constructor
  case sound => exact hsound
  case nodup => exact h.nodup.erase i
  case listed =>
    intro j
    rw [filesys.free_inode_open_inodes, filesys.free_inode_inode, filesys.set_fat_open_inodes,
      h.nodup.mem_erase_iff, h.listed j]
    by_cases hji : j = i
    · subst hji
      simp
    · simp [hji]
  case fresh =>
    intro j jno hj
    exact h.fresh (hold hj).2.1
  case sector_inj =>
    intro j k jno kno hj hk hjk
    exact h.sector_inj (hold hj).2.1 (hold hk).2.1 hjk
  case live =>
    intro j jno hj
    obtain ⟨-, hj, hne⟩ := hold hj
    exact hlive _ (h.live hj) hne
  case data =>
    intro j jno hj
    exact h.data (hold hj).2.1
  case count =>
    intro j jno hj
    obtain ⟨hji, hj, -⟩ := hold hj
    obtain ⟨hcount, hin⟩ := h.count hj
    rw [List.count_erase_of_ne hji]
    exact ⟨hcount, (List.mem_erase_of_ne hji).mpr hin⟩
  case held =>
    intro j hj
    have hji : j ≠ i := by
      rintro rfl
      exact hgone hj
    obtain ⟨jno, hjno⟩ := h.held j ((List.mem_erase_of_ne hji).mp hj)
    refine ⟨jno, ?_⟩
    rw [filesys.free_inode_inode, Function.update_of_ne hji]
    exact hjno
  case removed =>
    intro j jno hj hr
    obtain ⟨-, hj, hne⟩ := hold hj
    exact hown _ (h.live hj) hne (h.removed hj hr)

/-- What a call does to the handles and to the table. -/
def Effect (chain : ℕ → List ℕ) (x : inode_holders) (c : inode_call) (x' : inode_holders) : Prop :=
  match c with
  | .open sector =>
      ∃ i ino, x'.handles = i :: x.handles ∧ x'.fs.inode i = some ino ∧ ino.sector = sector
        ∧ (∀ j jno, x.fs.inode j = some jno → jno.sector = sector → j = i)
        ∧ x'.fs.fat = x.fs.fat
  | .reopen i => x'.handles = i :: x.handles ∧ x'.fs.fat = x.fs.fat
  | .remove i =>
      x'.handles = x.handles ∧ (∃ ino, x'.fs.inode i = some ino ∧ ino.removed = true)
        ∧ x'.fs.fat = x.fs.fat
  | .close i =>
      x'.handles = x.handles.erase i ∧ ∃ ino, x.fs.inode i = some ino
        ∧ if ino.open_cnt = 1 ∧ ino.removed = true then
            x'.fs.inode i = none ∧ ino.sector ∉ x'.live
              ∧ (∀ k, k ∈ chain ino.sector ∨ k = sector_to_cluster x.fs.fat ino.sector →
                x.fs.fat.fat k ≠ 0 ∧ x'.fs.fat.fat k = 0)
              ∧ x'.fs.fat = release_inode x.fs.fat ino.sector (chain ino.sector)
          else x'.fs.fat = x.fs.fat

/-- What is open in `x'` is read and written as it was in `x`. -/
def Undisturbed (x x' : inode_holders) : Prop :=
  x'.fs.disk = x.fs.disk ∧ ∀ j jno, x'.fs.inode j = some jno →
    byte_to_sector x'.fs.fat jno = byte_to_sector x.fs.fat jno
      ∧ inode_read_at x'.fs.disk x'.fs.fat jno = inode_read_at x.fs.disk x.fs.fat jno
      ∧ ∀ buffer fuel, inode_write_at_loop x'.fs.fat jno buffer fuel
        = inode_write_at_loop x.fs.fat jno buffer fuel

/-- What no call changes. -/
structure Frame (x x' : inode_holders) : Prop where
  disk : x'.fs.disk = x.fs.disk
  fat_length : x'.fs.fat.fat_length = x.fs.fat.fat_length
  data_start : x'.fs.fat.data_start = x.fs.fat.data_start
  live : ∀ a ∈ x'.live, a ∈ x.live

theorem Frame.trans {x x' x'' : inode_holders} (h : Frame x x') (h' : Frame x' x'') :
    Frame x x'' where
  disk := h'.disk.trans h.disk
  fat_length := h'.fat_length.trans h.fat_length
  data_start := h'.data_start.trans h.data_start
  live a ha := h.live a (h'.live a ha)

/-- As long as the invariant holds, chains that are still live are as they were. -/
theorem Frame.undisturbed {x' : inode_holders} (hf : Frame x x') (h : x.Life chain)
    (h' : x'.Life chain) : Undisturbed x x' := by
  refine ⟨hf.disk, fun j jno hj => ?_⟩
  have hlive := h'.live hj
  obtain ⟨hne, hch'⟩ := h'.sound.data _ hlive
  obtain ⟨-, hch⟩ := h.sound.data _ (hf.live _ hlive)
  have hdata := h'.data hj
  rw [hf.disk] at hch' hdata
  rw [← hdata] at hch hch'
  have hbyte := byte_to_sector_congr hf.fat_length hf.data_start hne hch
    (hch.path.agree hch'.path)
  refine ⟨hbyte, ?_, fun buffer fuel => inode_write_at_loop_congr hbyte buffer fuel⟩
  rw [hf.disk]
  exact inode_read_at_congr hbyte x.fs.disk

theorem Frame.of_fat_eq {x' : inode_holders} (hd : x'.fs.disk = x.fs.disk)
    (hf : x'.fs.fat = x.fs.fat) (hl : x'.live = x.live) : Frame x x' where
  disk := hd
  fat_length := by rw [hf]
  data_start := by rw [hf]
  live a ha := hl ▸ ha

/-- Opening: the inode that is open already, or a new one. -/
theorem Life.step_open (h : x.Life chain) {sector : ℕ} (hin : sector ∈ x.live) :
    ∃ x', inode_step x (.open sector) = .ok x' ∧ x'.Life chain
      ∧ Effect chain x (.open sector) x' ∧ Frame x x' := by
  rcases open_inodes_find_spec sector x.fs.open_inodes
      (fun i hi => (h.listed i).mp hi) with ⟨i, ino, hmem, hi, hsec, hfind⟩ | ⟨hno, hfind⟩
  · have hstep : inode_step x (.open sector)
        = .ok { x with fs := x.fs.set_inode i { ino with open_cnt := ino.open_cnt + 1 }
                       handles := i :: x.handles } := by
      simp only [inode_step, inode_open, hfind, Outcome.ok_bind, inode_reopen,
        filesys.get_inode_eq_ok.mpr hi, Outcome.pure_eq]
    refine ⟨_, hstep, h.reopen hi, ⟨i, _, rfl, Function.update_self _ _ _, hsec, ?_, rfl⟩,
      .of_fat_eq rfl rfl rfl⟩
    intro j jno hj hjs
    exact h.sector_inj hi hj (hjs.trans hsec.symm)
  · have hno' : ∀ i ino, x.fs.inode i = some ino → ino.sector ≠ sector := fun i ino hi =>
      hno i ((h.listed i).mpr ⟨ino, hi⟩) ino hi
    have hstep : inode_step x (.open sector)
        = .ok { x with fs := x.fs.new_inode { sector, open_cnt := 1, removed := false
                                              deny_write_cnt := 0
                                              data := stored x.fs.disk sector }
                       handles := x.fs.next_inode :: x.handles } := by
      simp only [inode_step, inode_open, hfind, Outcome.ok_bind, inode_load,
        disk_read_ok (h.sound.on_disk sector hin), Outcome.pure_eq]
      rfl
    refine ⟨_, hstep, h.load hin hno', ⟨_, _, rfl, Function.update_self _ _ _, rfl, ?_, rfl⟩,
      .of_fat_eq rfl rfl rfl⟩
    intro j jno hj hjs
    exact absurd hjs (hno' j jno hj)

/-- Closing: the count goes down, and with it, at the end, the clusters. -/
theorem Life.step_close (h : x.Life chain) {i : ℕ} (hin : i ∈ x.handles) :
    ∃ x', inode_step x (.close i) = .ok x' ∧ x'.Life chain
      ∧ Effect chain x (.close i) x' ∧ Frame x x' := by
  obtain ⟨ino, hi⟩ := h.held i hin
  have hlive := h.live hi
  have hmagic : ¬ ino.data.magic ≠ INODE_MAGIC := by
    rw [h.data hi, not_not]
    exact h.sound.magic _ hlive
  by_cases hcnt : ino.open_cnt = 1
  · have hzero : ino.open_cnt - 1 = 0 := by omega
    have hrel := inode_release_eq h.sound hlive (h.data hi) (h.removed hi)
    by_cases hr : ino.removed = true
    · rw [if_pos hr] at hrel
      have hafter : live_after_close x i = x.live.filter (· ≠ ino.sector) := by
        unfold live_after_close
        rw [hi]
        exact if_pos ⟨hcnt, hr⟩
      have hstep : inode_step x (.close i)
          = .ok { fs := (x.fs.set_fat (release_inode x.fs.fat ino.sector
                    (chain ino.sector))).free_inode i
                  handles := x.handles.erase i
                  live := x.live.filter (· ≠ ino.sector) } := by
        simp only [inode_step, inode_close, filesys.get_inode_eq_ok.mpr hi, Outcome.ok_bind,
          if_neg hmagic, if_pos hzero, hrel, Outcome.pure_eq, hafter]
      have hown := h.removed hi hr
      refine ⟨_, hstep, h.close_last hi hcnt _ _ (h.sound.release hlive) ?_ ?_,
        ⟨rfl, ino, hi, ?_⟩, ⟨rfl, rfl, rfl, fun a ha => List.mem_of_mem_filter ha⟩⟩
      · intro a ha hne
        exact List.mem_filter.mpr ⟨ha, by simpa using hne⟩
      · intro a ha hne ha'
        exact ha'.release h.sound hlive ha hne
      · rw [if_pos ⟨hcnt, hr⟩]
        refine ⟨Function.update_self _ _ _, by simp, fun k hk => ⟨?_, release_inode_freed hk⟩, rfl⟩
        rcases hk with hk | rfl
        · exact (h.sound.data _ hlive).2.entry_ne_zero hk
        · exact Chain.entry_ne_zero hown (List.mem_singleton_self _)
    · rw [if_neg hr] at hrel
      have hafter : live_after_close x i = x.live := by
        unfold live_after_close
        rw [hi]
        exact if_neg fun hand => hr hand.2
      have hstep : inode_step x (.close i)
          = .ok { fs := (x.fs.set_fat x.fs.fat).free_inode i, handles := x.handles.erase i
                  live := x.live } := by
        simp only [inode_step, inode_close, filesys.get_inode_eq_ok.mpr hi, Outcome.ok_bind,
          if_neg hmagic, if_pos hzero, hrel, Outcome.pure_eq, hafter]
      refine ⟨_, hstep, h.close_last hi hcnt _ _ h.sound (fun a ha _ => ha) fun a _ _ ha => ha,
        ⟨rfl, ino, hi, ?_⟩, .of_fat_eq rfl rfl rfl⟩
      rw [if_neg fun hand => hr hand.2]
      rfl
  · have hzero : ¬ ino.open_cnt - 1 = 0 := by omega
    have hafter : live_after_close x i = x.live := by
      unfold live_after_close
      rw [hi]
      exact if_neg fun hand => hcnt hand.1
    have hstep : inode_step x (.close i)
        = .ok { fs := x.fs.set_inode i { ino with open_cnt := ino.open_cnt - 1 }
                handles := x.handles.erase i, live := x.live } := by
      simp only [inode_step, inode_close, filesys.get_inode_eq_ok.mpr hi, Outcome.ok_bind,
        if_neg hmagic, if_neg hzero, Outcome.pure_eq, hafter]
    refine ⟨_, hstep, h.close_shared hi hin hcnt, ⟨rfl, ino, hi, ?_⟩, .of_fat_eq rfl rfl rfl⟩
    rw [if_neg fun hand => hcnt hand.1]
    rfl

/-- **One call** returns, keeps the invariant, and does what `Effect` says. -/
theorem Life.step (h : x.Life chain) {c : inode_call} (hc : x.Allows c) :
    ∃ x', inode_step x c = .ok x' ∧ x'.Life chain ∧ Effect chain x c x' ∧ Frame x x' := by
  cases c with
  | «open» sector => exact h.step_open hc
  | reopen i =>
      obtain ⟨ino, hi⟩ := h.held i hc
      refine ⟨_, ?_, h.reopen hi, ⟨rfl, rfl⟩, .of_fat_eq rfl rfl rfl⟩
      simp only [inode_step, inode_reopen, filesys.get_inode_eq_ok.mpr hi, Outcome.ok_bind,
        Outcome.pure_eq]
  | remove i =>
      obtain ⟨hin, hown⟩ := hc
      obtain ⟨ino, hi⟩ := h.held i hin
      refine ⟨_, ?_, h.remove hi (hown ino hi), ⟨rfl, ⟨_, Function.update_self _ _ _, rfl⟩, rfl⟩,
        .of_fat_eq rfl rfl rfl⟩
      simp only [inode_step, inode_remove, filesys.get_inode_eq_ok.mpr hi, Outcome.ok_bind,
        Outcome.pure_eq]
  | close i => exact h.step_close hc

/-- Every call of the run is allowed where it is made. -/
def AllowsAll : List inode_call → inode_holders → Prop
  | [], _ => True
  | c :: cs, x => x.Allows c ∧ ∀ x', inode_step x c = .ok x' → AllowsAll cs x'

/-- **The life of open inodes.** Every sequence of calls returns. At each of them
the invariant holds before and after: one `struct inode` for a sector, its count
the number of handles that are out. A removed inode loses its clusters at the
close of its last handle, and the table changes at no other call. What is open is
read and written as at the beginning. -/
theorem open_inode_life_cycle (cs : List inode_call) : ∀ {x : inode_holders} {chain : ℕ → List ℕ},
    x.Life chain → AllowsAll cs x →
      (∃ x', inode_run cs x = .ok x' ∧ x'.Life chain ∧ Undisturbed x x')
      ∧ ∀ pre c post, cs = pre ++ c :: post → ∃ x₁ x₂, inode_run pre x = .ok x₁
        ∧ x₁.Life chain ∧ inode_step x₁ c = .ok x₂ ∧ x₂.Life chain ∧ Effect chain x₁ c x₂ := by
  -- the frame is what composes; that nothing is disturbed follows from it at the end
  have key : ∀ (cs : List inode_call) {x : inode_holders} {chain : ℕ → List ℕ}, x.Life chain →
      AllowsAll cs x → (∃ x', inode_run cs x = .ok x' ∧ x'.Life chain ∧ Frame x x')
        ∧ ∀ pre c post, cs = pre ++ c :: post → ∃ x₁ x₂, inode_run pre x = .ok x₁
          ∧ x₁.Life chain ∧ inode_step x₁ c = .ok x₂ ∧ x₂.Life chain ∧ Effect chain x₁ c x₂ := by
    intro cs
    induction cs with
    | nil =>
        intro x chain h _
        refine ⟨⟨x, rfl, h, .of_fat_eq rfl rfl rfl⟩, fun pre c post heq => ?_⟩
        simp at heq
    | cons c cs ih =>
        intro x chain h hall
        obtain ⟨x₁, hstep, h₁, heff, hfr⟩ := h.step hall.1
        obtain ⟨⟨x', hrun, h', hfr'⟩, hsteps⟩ := ih h₁ (hall.2 x₁ hstep)
        refine ⟨⟨x', ?_, h', hfr.trans hfr'⟩, fun pre c' post heq => ?_⟩
        · rw [inode_run, hstep, Outcome.ok_bind]
          exact hrun
        · cases pre with
          | nil =>
              obtain ⟨rfl, rfl⟩ := List.cons.inj heq
              exact ⟨x, x₁, rfl, h, hstep, h₁, heff⟩
          | cons d pre =>
              obtain ⟨rfl, htail⟩ := List.cons.inj heq
              obtain ⟨y₁, y₂, hrun₁, hrest⟩ := hsteps pre c' post htail
              refine ⟨y₁, y₂, ?_, hrest⟩
              rw [inode_run, hstep, Outcome.ok_bind]
              exact hrun₁
  intro x chain h hall
  obtain ⟨⟨x', hrun, h', hfr⟩, hsteps⟩ := key cs h hall
  exact ⟨⟨x', hrun, h', hfr.undisturbed h h'⟩, hsteps⟩

/-- A disk with one file: its inode in cluster 2, its data in cluster 3. -/
def one_file : inode_holders where
  fs :=
    { disk := { capacity := 16
                sectors := fun k => if k = 3 then
                  inode_disk.encode { start := 3, length := 5, magic := INODE_MAGIC, isdir := false }
                  else zeros
                written := [] }
      fat := { bs := { magic := FAT_MAGIC, sectors_per_cluster := 1, total_sectors := 16
                       fat_start := 1, fat_sectors := 1, root_dir_cluster := 1 }
               fat := fun k => if k = 2 ∨ k = 3 then EOChain else 0
               fat_length := 8, data_start := 2, last_clst := 3 }
      inode := fun _ => none, next_inode := 0, open_inodes := []
      file := fun _ => none, next_file := 0 }
  handles := []
  live := [3]

theorem one_file_life : one_file.Life fun _ => [3] := by
  have hmem : ∀ a ∈ one_file.live, a = 3 := fun a ha => List.mem_singleton.mp ha
  have hstored : stored one_file.fs.disk 3
      = { start := 3, length := 5, magic := INODE_MAGIC, isdir := false } :=
    inode_disk.decode_encode ⟨by decide, by decide, by decide⟩
  have hsound : InodesSound one_file.fs.disk one_file.fs.fat one_file.live fun _ => [3] := by
    constructor
    case wf => exact ⟨⟨by decide, by decide, by decide, by decide⟩, by decide, by decide⟩
    case on_disk =>
      intro a ha
      rw [hmem a ha]
      decide
    case magic =>
      intro a ha
      rw [hmem a ha, hstored]
    case data =>
      intro a ha
      rw [hmem a ha, hstored]
      exact ⟨by decide, by decide, by decide⟩
    case disjoint =>
      intro a ha b hb hne
      exact absurd ((hmem a ha).trans (hmem b hb).symm) hne
    case cluster =>
      intro a ha b _
      rw [hmem a ha]
      decide
  constructor
  case sound => exact hsound
  case nodup => exact List.nodup_nil
  case listed =>
    intro i
    constructor
    · intro hi
      cases hi
    · rintro ⟨ino, hi⟩
      cases hi
  case held =>
    intro i hi
    cases hi
  all_goals
    intros
    contradiction

/-- Open, remove, close: the hypotheses of the theorem hold of this run. -/
theorem one_file_removed : AllowsAll [.open 3, .remove 0, .close 0] one_file
    ∧ ∃ x', inode_run [.open 3, .remove 0, .close 0] one_file = .ok x'
      ∧ x'.Life (fun _ => [3]) := by
  have hall : AllowsAll [.open 3, .remove 0, .close 0] one_file := by
    refine ⟨List.mem_singleton_self 3, fun x₁ h₁ => ?_⟩
    obtain rfl := Outcome.ok.inj h₁
    refine ⟨⟨List.mem_singleton_self 0, fun ino hi => ?_⟩, fun x₂ h₂ => ?_⟩
    · obtain rfl := Option.some.inj hi
      exact ⟨by decide, by decide⟩
    · obtain rfl := Outcome.ok.inj h₂
      exact ⟨List.mem_singleton_self 0, fun _ _ => trivial⟩
  obtain ⟨⟨x', hrun, hlife, -⟩, -⟩ := open_inode_life_cycle _ one_file_life hall
  exact ⟨hall, x', hrun, hlife⟩

end inode_holders

end Pintos
