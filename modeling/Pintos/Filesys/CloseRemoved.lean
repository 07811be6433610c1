/-
Closing a removed inode.

`inode_close` releases the data chain and then the inode's own cluster. What it
needs of the table is that the chain of a file stays a chain, off the inode's
cluster, from `filesys_create` on and through every write (`Owned`). An empty file
has no chain: its `start` is 0, and `fat_release` takes that for a cluster number.
-/
import Pintos.Filesys.AllOrNothing
import Pintos.Filesys.DiskFull
import Pintos.Filesys.InodeCreate
import Pintos.Filesys.Remove

set_option autoImplicit false

namespace Pintos

/-! ## What a write leaves alone -/

/-- A write through `ino`, whose chain was `l`, and what it did: the chain is `l'`, made of old
clusters and free ones; no entry in use off the chain has changed; and no sector but those of
the inode, of the chain, of free clusters and of "cluster 0". -/
structure Wrote (d d' : disk) (fs fs' : fat_fs) (ino ino' : inode) (l l' : List ℕ) : Prop where
  linked : Linked fs' ino'.data.start l'
  length_nonneg : 0 ≤ ino'.data.length
  resized : Resized ino ino'
  fat_length : fs'.fat_length = fs.fat_length
  data_start : fs'.data_start = fs.data_start
  chain : ∀ k ∈ l', k ∈ l ∨ fs.fat k = 0
  table : ∀ k, k ∉ l → fs.fat k ≠ 0 → fs'.fat k = fs.fat k
  sectors : ∀ s, s ≠ ino.sector → s ≠ NO_SECTOR → s ≠ cluster_to_sector fs 0 →
    (∀ k, k ∈ l ∨ fs.fat k = 0 → k < fs.fat_length → s ≠ cluster_to_sector fs k) →
      d'.sectors s = d.sectors s

section Write

variable {d d' : disk} {fs fs' : fat_fs} {ino ino' : inode} {l cs : List ℕ} {buffer : Bytes}
  {size offset n : ℤ}

/-- `byte_to_sector` finds a sector of the file or none. -/
theorem byte_to_sector_mem (hg : fs.Geometry) (hch : DataChain fs ino.data.start l)
    {pos : ℤ} {s : ℕ}
    (h : byte_to_sector fs ino pos = .ok s) : s = NO_SECTOR ∨ ∃ k ∈ l,
    s = cluster_to_sector fs k := by
  unfold byte_to_sector at h
  split at h
  · exact .inl (Outcome.ok.inj h).symm
  · split at h
    · exact .inl (Outcome.ok.inj h).symm
    · rename_i hstart
      rcases hch with ⟨h0, -⟩ | ⟨hne, hch⟩
      · exact absurd (.inl h0) hstart
      · have hlt : ∀ k ∈ l, k < fs.fat_length := fun k hk => (hch.range k hk).2
        rcases Nat.lt_or_ge (pos.tdiv 512).toNat l.length with hin | hout
        · rw [byte_to_sector_loop_eq hg l hch.path hlt hin] at h
          refine .inr ⟨_, ?_, (Outcome.ok.inj h).symm⟩
          rw [List.getD_eq_getElem _ _ hin]
          exact List.getElem_mem hin
        · rw [byte_to_sector_loop_end l hch.path hlt hne hout] at h
          exact .inl (Outcome.ok.inj h).symm

/-- A sector that no position of the file is in is not written. -/
theorem inode_write_at_loop_frame {s : ℕ} (hs : ∀ pos, byte_to_sector fs ino pos ≠ .ok s)
    (fuel : ℕ) : ∀ {d d' : disk} {size offset written n : ℤ},
      inode_write_at_loop fs ino buffer fuel d size offset written = .ok (n, d') →
        d'.sectors s = d.sectors s := by
  induction fuel with
  | zero =>
      intro d d' size offset written n h
      cases h
  | succ fuel ih =>
      intro d d' size offset written n h
      rw [inode_write_at_loop] at h
      split at h
      · obtain ⟨-, rfl⟩ := Outcome.ok_pair h
        rfl
      · obtain ⟨sec, hsec, h⟩ := Outcome.bind_eq_ok.mp h
        have hne : s ≠ sec := by
          rintro rfl
          exact hs offset hsec
        -- how much is copied in this turn does not matter
        dsimp only at h
        generalize (if size < (if inode_length ino - offset < 512 - offset.tmod 512 then
            inode_length ino - offset else 512 - offset.tmod 512) then size
          else (if inode_length ino - offset < 512 - offset.tmod 512 then
            inode_length ino - offset else 512 - offset.tmod 512)) = chunk_size at h
        have hwrite : ∀ bounce, (do
            let d ← disk_write d sec bounce
            inode_write_at_loop fs ino buffer fuel d (size - chunk_size) (offset + chunk_size)
              (written + chunk_size)) = .ok (n, d') → d'.sectors s = d.sectors s := by
          intro bounce h
          obtain ⟨d₁, hd₁, h⟩ := Outcome.bind_eq_ok.mp h
          obtain ⟨-, rfl⟩ := disk_write_eq_ok.mp hd₁
          exact (ih h).trans (disk.put_sectors_of_ne hne)
        by_cases hdone : chunk_size ≤ 0
        · rw [if_pos hdone] at h
          obtain ⟨-, rfl⟩ := Outcome.ok_pair h
          rfl
        · rw [if_neg hdone] at h
          split at h
          · exact hwrite _ h
          · split at h
            · obtain ⟨b, -, h⟩ := Outcome.bind_eq_ok.mp h
              exact hwrite _ h
            · exact hwrite _ h

/-- The extension of a file, in these terms. -/
theorem Wrote.extend {len extend_size : ℕ} (h : Linked fs ino.data.start l)
    (hlen : ino.data.length = len) (hrun : inode_extend d fs ino extend_size
      = .ok (d', fs', ino')) :
    ∃ l', Wrote d d' fs fs' ino ino' l l' := by
  obtain ⟨cs, hcs, -, hres⟩ := (inode_extend_eq_ok h hlen _).mp hrun
  obtain ⟨rfl, rfl, rfl⟩ : d' = _ ∧ fs' = _ ∧ ino' = _ := by
    simpa only [Prod.mk.injEq] using hres
  obtain ⟨-, -, hfree⟩ := handout_spec _ h.wf hcs
  obtain ⟨hch, hwf, hds⟩ := grown_table_spec h.wf h.chain h.root hcs
  obtain ⟨hlen', hframe⟩ : (grown_table fs ino.data.start l cs).fat_length = fs.fat_length
      ∧ ∀ k, k ∉ l → k ∉ cs → (grown_table fs ino.data.start l cs).fat k = fs.fat k :=
      grown_table_frame h.chain
  have hroot : ROOT_DIR_CLUSTER ∉ cs := by
    intro hmem
    have := (hfree _ hmem).1
    unfold ROOT_DIR_CLUSTER at this
    omega
  refine ⟨grown ino.data.start l cs, ⟨hwf, hch, root_notMem_tail_grown h.root hroot⟩,
    Int.natCast_nonneg _, ⟨_, _, rfl⟩, hlen', hds, fun k hk => ?_, fun k hkl hk0 => ?_, ?_⟩
  · exact (mem_grown h.chain hk).imp_right fun hk => (hfree k hk).2.2
  · exact hframe k hkl fun hk => hk0 (hfree k hk).2.2
  · -- what is zeroed is a cluster that was free, or "cluster 0"
    intro s _ _ hs0 hs
    refine zero_clusters_frame _ _ _ fun k hk => ?_
    have hk' : k ∈ turn_clusters cs (grow_clusters ino.data.start len extend_size) := by
      unfold zeroed_clusters at hk
      split at hk
      · exact List.mem_of_mem_tail hk
      · exact hk
    rcases List.mem_append.mp hk' with hk' | hk'
    · exact hs k (.inr (hfree k hk').2.2) (hfree k hk').2.1
    · rw [List.eq_of_mem_replicate hk']
      exact hs0

/-- **A write that returns**, whatever is written and where. -/
theorem inode_write_at_wrote (h : Linked fs ino.data.start l) (h0 : 0 ≤ ino.data.length)
    (hrun : inode_write_at d fs ino buffer size offset = .ok (n, d', fs', ino')) :
    ∃ l', Wrote d d' fs fs' ino ino' l l' := by
  have hsame : Wrote d d fs fs ino ino l l :=
    ⟨h, h0, ⟨_, _, rfl⟩, rfl, rfl, fun _ hk => .inl hk, fun _ _ _ => rfl, fun _ _ _ _ _ => rfl⟩
  rcases inode_write_at_cases hrun with ⟨-, -, rfl, rfl, rfl⟩ | ⟨-, d₁, d₂, hext, hloop, hflush⟩
  · exact ⟨l, hsame⟩
  · have hw : ∃ l', Wrote d d₁ fs fs' ino ino' l l' := by
      rcases hext with ⟨hgrow, hext⟩ | ⟨-, rfl, rfl, rfl⟩
      · have hpos : 0 ≤ i32 (offset + size) := by
          unfold inode_length at hgrow
          omega
        obtain ⟨extend_size, he⟩ := Int.eq_ofNat_of_zero_le hpos
        obtain ⟨len, hlen⟩ := Int.eq_ofNat_of_zero_le h0
        rw [he] at hext
        exact Wrote.extend h hlen hext
      · exact ⟨l, hsame⟩
    obtain ⟨l', hw⟩ := hw
    refine ⟨l', { hw with sectors := fun s hino hnone hs0 hs => ?_ }⟩
    have hsec : ino'.sector = ino.sector := by
      obtain ⟨start, length, rfl⟩ := hw.resized
      rfl
    have hflush' := (disk_write_eq_ok.mp hflush).2
    have hout : ∀ pos, byte_to_sector fs' ino' pos ≠ .ok s := by
      intro pos hpos
      rcases byte_to_sector_mem hw.linked.wf.toGeometry hw.linked.chain hpos with hno | ⟨k, hk, rfl⟩
      · exact hnone hno
      · have hlt := (hw.linked.chain.range k hk).2
        rw [hw.fat_length] at hlt
        exact hs k (hw.chain k hk) hlt (cluster_to_sector_congr hw.data_start k)
    rw [hflush', disk.put_sectors_of_ne (by rw [hsec]; exact hino),
      inode_write_at_loop_frame hout _ hloop, hw.sectors s hino hnone hs0 hs]

end Write

/-! ## A file and its two chains -/

/-- The inode of cluster `c`: its data chain is `l`, and `c` is a chain of its own, off that one. -/
structure Owned (fs : fat_fs) (c : ℕ) (ino : inode) (l : List ℕ) : Prop where
  linked : Linked fs ino.data.start l
  length_nonneg : 0 ≤ ino.data.length
  off_chain : c ∉ l
  two_le : 2 ≤ c
  lt : c < fs.fat_length
  entry : fs.fat c = EOChain
  sector : ino.sector = cluster_to_sector fs c

/-- Cluster `c` of an inode that is open and not removed is in use. -/
theorem Owned.ne_zero {fs : fat_fs} {c : ℕ} {ino : inode} {l : List ℕ} (h : Owned fs c ino l) :
    fs.fat c ≠ 0 := by
  rw [h.entry]
  decide

theorem Owned.cluster {fs : fat_fs} {c : ℕ} {ino : inode} {l : List ℕ} (h : Owned fs c ino l) :
    sector_to_cluster fs ino.sector = c := by
  rw [h.sector]
  exact sector_to_cluster_to_sector h.linked.wf.toGeometry (by have := h.two_le; omega)
    (Nat.le_of_lt h.lt)

/-- The step: a write through the inode keeps it. -/
theorem Owned.write {d d' : disk} {fs fs' : fat_fs} {c : ℕ} {ino ino' : inode} {l l' : List ℕ}
    (h : Owned fs c ino l) (hw : Wrote d d' fs fs' ino ino' l l') : Owned fs' c ino' l' where
  linked := hw.linked
  length_nonneg := hw.length_nonneg
  off_chain hc := by
    rcases hw.chain c hc with hc | hc
    · exact h.off_chain hc
    · exact h.ne_zero hc
  two_le := h.two_le
  lt := by
    rw [hw.fat_length]
    exact h.lt
  entry := (hw.table c h.off_chain h.ne_zero).trans h.entry
  sector := by
    obtain ⟨start, length, rfl⟩ := hw.resized
    rw [cluster_to_sector_congr hw.data_start]
    exact h.sector

/-! ## Writing, removing, closing -/

/-- `inode_write_at` on the open inode `i`. -/
def write_inode (i : ℕ) (w : write_args) (s : filesys) : Outcome filesys := do
  let ino ← s.get_inode i
  let (_, d, fs, ino) ← inode_write_at s.disk s.fat ino w.buffer w.size w.offset
  return s.write_back i d fs ino

/-- A sequence of writes to it. -/
def write_all (i : ℕ) : List write_args → filesys → Outcome filesys
  | [], s => .ok s
  | w :: ws, s => do
      let s ← write_inode i w s
      write_all i ws s

/-- The inode is removed, and the last handle is closed. -/
def remove_and_close (s : filesys) (i : ℕ) : Outcome filesys := do
  let s ← inode_remove s i
  inode_close s i

/-- **What is asked of the close**: it returns, the clusters of the data chain and the inode's
cluster are free, and every other entry is as before. -/
def FreesOwn (s : filesys) (i : ℕ) (ino : inode) : Prop :=
  ∃ l s', DataChain s.fat ino.data.start l ∧ remove_and_close s i = .ok s'
    ∧ ∀ k, s'.fat.fat k
        = if k ∈ l ∨ k = sector_to_cluster s.fat ino.sector then 0 else s.fat.fat k

/-- A file that is open once, with its two chains. -/
structure OpenOnce (s : filesys) (i c : ℕ) (ino : inode) (l : List ℕ) : Prop where
  is_open : s.inode i = some ino
  owned : Owned s.fat c ino l
  open_cnt : ino.open_cnt = 1

section Close

variable {s s' : filesys} {i c : ℕ} {ino : inode} {l : List ℕ}

theorem write_inode_open_once (h : OpenOnce s i c ino l) {w : write_args}
    (hrun : write_inode i w s = .ok s') : ∃ ino' l', OpenOnce s' i c ino' l' := by
  rw [write_inode, filesys.get_inode_eq_ok.mpr h.is_open, Outcome.ok_bind] at hrun
  obtain ⟨⟨n, d, fs, ino'⟩, hwrite, hret⟩ := Outcome.bind_eq_ok.mp hrun
  obtain rfl := Outcome.ok.inj hret
  obtain ⟨l', hw⟩ := inode_write_at_wrote h.owned.linked h.owned.length_nonneg hwrite
  refine ⟨ino', l', Function.update_self _ _ _, h.owned.write hw, ?_⟩
  obtain ⟨start, length, rfl⟩ := hw.resized
  exact h.open_cnt

/-- The run lemma. -/
theorem write_all_open_once (ws : List write_args) : ∀ {s s' : filesys} {ino : inode} {l : List ℕ},
    OpenOnce s i c ino l → write_all i ws s = .ok s' → ∃ ino' l', OpenOnce s' i c ino' l' := by
  induction ws with
  | nil =>
      intro s s' ino l h hrun
      obtain rfl := Outcome.ok.inj hrun
      exact ⟨ino, l, h⟩
  | cons w ws ih =>
      intro s s' ino l h hrun
      obtain ⟨s₁, h₁, hrun⟩ := Outcome.bind_eq_ok.mp hrun
      obtain ⟨ino₁, l₁, hopen⟩ := write_inode_open_once h h₁
      exact ih hopen hrun

/-- What the last close of a removed inode with a valid magic number does. -/
theorem remove_and_close_eq (h : OpenOnce s i c ino l) (hmagic : ino.data.magic = INODE_MAGIC) :
    remove_and_close s i = .ok s' ↔ ∃ fs, inode_release s.fat { ino with removed := true } = .ok fs
      ∧ s' = ((s.set_inode i { ino with removed := true }).set_fat fs).free_inode i := by
  have hremove : inode_remove s i = .ok (s.set_inode i { ino with removed := true }) := by
    rw [inode_remove, filesys.get_inode_eq_ok.mpr h.is_open]
    rfl
  have hget : (s.set_inode i { ino with removed := true }).get_inode i
      = .ok { ino with removed := true } :=
    filesys.get_inode_eq_ok.mpr (Function.update_self _ _ _)
  rw [remove_and_close, hremove, Outcome.ok_bind, inode_close, hget, Outcome.ok_bind]
  dsimp only
  rw [if_neg (not_not.mpr hmagic), h.open_cnt, if_pos (by norm_num), Outcome.bind_eq_ok]
  exact exists_congr fun fs => and_congr_right fun _ =>
    ⟨fun heq => (Outcome.ok.inj heq).symm, fun heq => heq ▸ rfl⟩

/-- The release of a file with a data chain. -/
theorem Owned.release (h : Owned s.fat c ino l) (hl : l ≠ []) :
    inode_release s.fat { ino with removed := true }
      = .ok (release_inode s.fat ino.sector l) := by
  rcases h.linked.chain with ⟨-, hnil⟩ | ⟨-, hch⟩
  · exact absurd hnil hl
  have hlt := (hch.range _ (hch.path.start_mem hl)).2
  have hfirst : fat_release s.fat ino.data.start = .ok (free_clusters s.fat l) :=
    fat_remove_chain_eq h.linked.wf hch hlt
  have hown : Chain (free_clusters s.fat l) c [c] := by
    refine ⟨⟨rfl, ?_⟩, fun k hk => ?_⟩
    · show (if c ∈ l then 0 else s.fat.fat c) = EOChain
      rw [if_neg h.off_chain, h.entry]
    · rw [List.mem_singleton.mp hk]
      exact ⟨by have := h.two_le; omega, h.lt⟩
  have hsecond : fat_release (free_clusters s.fat l) c
      = .ok (free_clusters (free_clusters s.fat l) [c]) :=
    fat_remove_chain_eq (free_clusters_wf h.linked.wf l) hown h.lt
  rw [inode_release, if_pos rfl]
  dsimp only
  rw [hfirst, Outcome.ok_bind]
  show fat_release (free_clusters s.fat l) (sector_to_cluster s.fat ino.sector) = _
  rw [release_inode, h.cluster]
  exact hsecond

/-- An empty file: the loop of `fat_remove_chain` does not leave entry 0, or clears it. -/
theorem Owned.release_empty (h : Owned s.fat c ino l) (h0 : ino.data.start = 0) {fs : fat_fs}
    (hrel : inode_release s.fat { ino with removed := true } = .ok fs) :
    s.fat.fat 0 ≠ 0 ∧ fs.fat 0 = 0 := by
  rw [inode_release, if_pos rfl] at hrel
  dsimp only at hrel
  rw [h0] at hrel
  obtain ⟨fs₁, hfirst, hsecond⟩ := Outcome.bind_eq_ok.mp hrel
  have hg := h.linked.wf.toGeometry
  obtain ⟨hlen, hstart, -, hzero⟩ := fat_release_zero hg hfirst
  obtain ⟨-, -, hkeep, -⟩ := fat_release_zero (Geometry_congr hg hlen hstart) hsecond
  refine ⟨fun hfree => ?_, hkeep 0 hzero⟩
  obtain ⟨-, -, hloop⟩ := Outcome.bind_eq_ok.mp hfirst
  exact fat_remove_chain_loop_stuck _ hfree hloop

/-- **The last close of a removed inode** frees what it owns exactly if the inode is valid and the
file has a first cluster. -/
theorem frees_own_iff (h : OpenOnce s i c ino l) :
    FreesOwn s i ino ↔ ino.data.magic = INODE_MAGIC ∧ ino.data.start ≠ 0 := by
  have hc := h.owned.cluster
  have hc2 := h.owned.two_le
  constructor
  · rintro ⟨l', s', hch', hrun, hfat⟩
    rw [hc] at hfat
    have hmagic : ino.data.magic = INODE_MAGIC := by
      by_contra hbad
      -- the close looks at nothing but the magic number
      obtain ⟨s₁, hremove, hclose⟩ := Outcome.bind_eq_ok.mp hrun
      obtain ⟨ino₁, hi, rfl⟩ := inode_remove_eq_ok hremove
      rw [h.is_open] at hi
      obtain rfl := Option.some.inj hi
      have hget : (s.set_inode i { ino with removed := true }).get_inode i
          = .ok { ino with removed := true } :=
        filesys.get_inode_eq_ok.mpr (Function.update_self _ _ _)
      rw [inode_close, hget, Outcome.ok_bind, if_pos hbad] at hclose
      obtain rfl := Outcome.ok.inj hclose
      have hfree := hfat c
      rw [if_pos (.inr rfl)] at hfree
      exact h.owned.ne_zero hfree
    refine ⟨hmagic, fun h0 => ?_⟩
    obtain ⟨fs, hrel, rfl⟩ := (remove_and_close_eq h hmagic).mp hrun
    obtain ⟨hused, hzero⟩ := h.owned.release_empty h0 hrel
    have hl' : l' = [] := DataChain.eq_nil_of_start (h0 ▸ hch')
    have hkeep : fs.fat 0 = _ := hfat 0
    rw [hl', if_neg (by simp; omega), hzero] at hkeep
    exact hused hkeep.symm
  · rintro ⟨hmagic, hstart⟩
    have hl : l ≠ [] := by
      rintro rfl
      rcases h.owned.linked.chain with ⟨h0, -⟩ | ⟨hne, -⟩
      · exact hstart h0
      · exact hne rfl
    refine ⟨l, _, h.owned.linked.chain,
      (remove_and_close_eq h hmagic).mpr ⟨_, h.owned.release hl, rfl⟩, fun k => ?_⟩
    split
    · next hk => exact release_inode_freed hk
    · next hk =>
        obtain ⟨hkl, hkc⟩ := not_or.mp hk
        exact release_inode_other hkl hkc

end Close

/-! ## The file that `filesys_create` makes -/

/-- A successful `fat_allocate` leaves a chain at its start, of clusters that were free, or none. -/
theorem fat_allocate_linked {fs fs' : fat_fs} (hwf : fs.Wf) {n start : ℕ}
    (h : fat_allocate fs n 0 = .ok (true, start, fs')) :
    ∃ l, Linked fs' start l ∧ (∀ k ∈ l, fs.fat k = 0) ∧ (∀ k, fs.fat k ≠ 0 → fs'.fat k = fs.fat k)
      ∧ fs'.fat_length = fs.fat_length ∧ fs'.data_start = fs.data_start := by
  have hnone : ∀ {fs' : fat_fs}, fs'.Wf → Linked fs' 0 [] := fun hwf' =>
    ⟨hwf', .inl ⟨rfl, rfl⟩, List.not_mem_nil⟩
  rcases Nat.eq_zero_or_pos n with rfl | hn
  · obtain ⟨-, hres⟩ := Outcome.ok_pair h
    obtain ⟨rfl, rfl⟩ := Prod.mk.inj hres
    exact ⟨[], hnone hwf, fun k hk => absurd hk List.not_mem_nil, fun _ _ => rfl, rfl, rfl⟩
  · obtain ⟨c, rest, hcs, hres⟩ := fat_allocate_ok hwf hn h
    obtain ⟨-, -, hfree⟩ := handout_spec n hwf hcs
    obtain ⟨hch, hframe, hwf', hlen, hds⟩ := link_handout hwf hcs
    rcases hres with ⟨-, rfl, rfl⟩ | ⟨-, rfl, rfl⟩
    · refine ⟨start :: rest, ⟨hwf', .inr ⟨List.cons_ne_nil _ _, hch⟩, fun hroot => ?_⟩,
        fun k hk => (hfree k hk).2.2, fun k hk => hframe k fun hmem => hk (hfree k hmem).2.2,
        hlen, hds⟩
      have := (hfree _ (List.mem_cons_of_mem _ hroot)).1
      unfold ROOT_DIR_CLUSTER at this
      omega
    · -- too few clusters: they are given back, and the start stays 0
      refine ⟨[], hnone (free_clusters_wf hwf' _), fun k hk => absurd hk List.not_mem_nil,
        fun k hk => ?_, hlen, hds⟩
      have hkc : k ∉ c :: rest := fun hmem => hk (hfree k hmem).2.2
      exact (if_neg hkc).trans (hframe k hkc)

/-- One cluster. -/
theorem fat_allocate_one {fs fs' : fat_fs} (hwf : fs.Wf) {c : ℕ}
    (h : fat_allocate fs 1 0 = .ok (true, c, fs')) :
    fs' = claim_cluster fs c ∧ 2 ≤ c ∧ c < fs.fat_length ∧ fs.fat c = 0 := by
  obtain ⟨c', rest, hcs, hres⟩ := fat_allocate_ok hwf Nat.one_pos h
  obtain ⟨hlen, -, hfree⟩ := handout_spec 1 hwf hcs
  obtain rfl : rest = [] := List.eq_nil_of_length_eq_zero (by simpa using hlen)
  rcases hres with ⟨-, rfl, rfl⟩ | ⟨hshort, -, -⟩
  · exact ⟨rfl, hfree c List.mem_cons_self⟩
  · exact absurd (Nat.le_add_left 1 1) hshort

/-- The start of a chain is a 32-bit number. -/
theorem Linked.start_lt {fs : fat_fs} {start : ℕ} {l : List ℕ} (h : Linked fs start l) :
    start < 2 ^ 32 := by
  have hle := h.wf.length_le
  unfold EOChain at hle
  rcases h.chain with ⟨rfl, -⟩ | ⟨hne, hch⟩
  · decide
  · have := (hch.range _ (hch.path.start_mem hne)).2
    omega

section Create

variable {d d' : disk} {fs fs' : fat_fs} {c : ℕ} {l : List ℕ} {size : ℤ}

/-- **`inode_create`** for a claimed cluster: what can be read from its sector is an inode with its
two chains. Where the run of zeros has passed that sector, it is one without data. -/
theorem inode_create_owned (hwf : fs.Wf) (hc2 : 2 ≤ c) (hclt : c < fs.fat_length)
    (hfree : fs.fat c = 0) (hsize : IsI32 size) {is_dir : Bool}
    (h : inode_create d (claim_cluster fs c) (cluster_to_sector fs c) size is_dir
      = .ok (true, d', fs')) :
    (∃ l, Owned fs' c (fresh_inode d' (cluster_to_sector fs c)) l ∧ ∀ k ∈ l, fs.fat k = 0)
      ∧ cluster_to_sector fs c ≠ NO_SECTOR
      ∧ (∀ k, fs.fat k ≠ 0 → fs'.fat k = fs.fat k)
      ∧ fs'.fat_length = fs.fat_length ∧ fs'.data_start = fs.data_start := by
  obtain ⟨hsize0, start, halloc, hsel, hloop⟩ := inode_create_eq_ok.mp h
  obtain ⟨l, hlinked, hnew, hkeep, hlen, hds⟩ :=
    fat_allocate_linked (claim_cluster_wf hwf hc2 hclt) halloc
  obtain ⟨-, hzero, -, hrecord, -⟩ := inode_create_written (cluster_to_sector_lt _ _) hloop
  have hused : ∀ k, fs.fat k ≠ 0 → k ≠ c := fun k hk hkc => hk (hkc ▸ hfree)
  have hentry : fs'.fat c = EOChain := by
    rw [hkeep c (by rw [claim_cluster_fat_self]; decide), claim_cluster_fat_self]
  have hoff : c ∉ l := by
    intro hmem
    have h0 := hnew c hmem
    rw [claim_cluster_fat_self] at h0
    exact absurd h0 (by decide)
  have hfree' : ∀ k ∈ l, fs.fat k = 0 := by
    intro k hk
    rw [← claim_cluster_fat_of_ne fun hkc : k = c => hoff (hkc ▸ hk)]
    exact hnew k hk
  have hsector : cluster_to_sector fs c = cluster_to_sector fs' c :=
    (cluster_to_sector_congr hds c).symm
  have howned : ∀ l', Linked fs' (stored d' (cluster_to_sector fs c)).start l' →
      0 ≤ (stored d' (cluster_to_sector fs c)).length → c ∉ l' →
      Owned fs' c (fresh_inode d' (cluster_to_sector fs c)) l' := fun l' h₁ h₂ h₃ =>
    ⟨h₁, h₂, h₃, hc2, hlen ▸ hclt, hentry, hsector⟩
  refine ⟨?_, ?_, fun k hk => ?_, hlen, hds⟩
  · by_cases hpass : ∃ j < bytes_to_sectors size,
        cluster_to_sector fs c = cluster_to_sector fs' start + j
    · obtain ⟨j, hj, hjc⟩ := hpass
      have hstored : stored d' (cluster_to_sector fs c) = inode_disk.decode zeros := by
        rw [stored, hjc, hzero j hj]
      refine ⟨[], howned [] ?_ ?_ List.not_mem_nil, fun k hk => absurd hk List.not_mem_nil⟩
      · rw [hstored]
        exact ⟨hlinked.wf, .inl ⟨rfl, rfl⟩, List.not_mem_nil⟩
      · rw [hstored]
        decide
    · have hstored : stored d' (cluster_to_sector fs c)
          = { start, length := size, magic := INODE_MAGIC, isdir := is_dir } := by
        rw [stored, hrecord fun j hj hjc => hpass ⟨j, hj, hjc⟩,
          inode_disk.decode_encode ⟨hlinked.start_lt, hsize, show INODE_MAGIC < 2 ^ 32 by decide⟩]
      refine ⟨l, howned l ?_ ?_ hoff, hfree'⟩
      · rw [hstored]
        exact hlinked
      · rw [hstored]
        exact hsize0
  · intro hno
    rw [hno] at hsel
    exact absurd hsel.2 (by decide)
  · rw [hkeep k (by rwa [claim_cluster_fat_of_ne (hused k hk)]),
      claim_cluster_fat_of_ne (hused k hk)]

/-- A write through another inode leaves it alone. -/
theorem Owned.other_write {ino ino' : inode} {m m' : List ℕ} {a : ℕ}
    (h : Owned fs c (fresh_inode d a) l) (hw : Wrote d d' fs fs' ino ino' m m')
    (hc : c ∉ m) (hl : ∀ k ∈ l, k ∉ m) (hsec : ino.sector ≠ a) (hno : a ≠ NO_SECTOR) :
    Owned fs' c (fresh_inode d' a) l := by
  have hg := h.linked.wf.toGeometry
  have ha : a = cluster_to_sector fs c := h.sector
  have hc1 : 1 ≤ c := le_trans one_le_two h.two_le
  have hstored : d'.sectors a = d.sectors a := by
    apply hw.sectors a hsec.symm hno
    · rw [ha]
      exact cluster_zero_ne hg hc1 h.lt
    · rintro k hk hlt hak
      rw [ha] at hak
      obtain rfl := cluster_to_sector_inj hg (Nat.le_of_lt h.lt) (Nat.le_of_lt hlt) hak
      exact hk.elim hc h.ne_zero
  have hdata : stored d' a = stored d a := by
    rw [stored, stored, hstored]
  have hstart : (fresh_inode d' a).data.start = (fresh_inode d a).data.start :=
    congrArg inode_disk.start hdata
  refine ⟨⟨hw.linked.wf, ?_, h.linked.root⟩, ?_, h.off_chain, h.two_le, hw.fat_length ▸ h.lt,
    (hw.table c hc h.ne_zero).trans h.entry,
    ha.trans (cluster_to_sector_congr hw.data_start c).symm⟩
  · rw [hstart]
    exact h.linked.chain.congr hw.fat_length fun k hk =>
      hw.table k (hl k hk) (h.linked.chain.entry_ne_zero k hk)
  · show 0 ≤ (stored d' a).length
    rw [hdata]
    exact h.length_nonneg

end Create

/-- The directory that the path leads to is sound: its chain is one, its length is no negative
number, and its inode is not in a free cluster. -/
structure SoundDir (s : filesys) (cwd : Option ℕ) (path : c_string) : Prop where
  wf : s.fat.Wf
  dir : ∀ l z, route s (path_dirs path) (start_sector_checked s cwd (is_root_path path))
      = .ok (some (l, z)) →
    (∃ m, Linked s.fat (s.view z).data.start m) ∧ 0 ≤ (s.view z).data.length ∧ NotFreeSector s.fat z

section Created

variable {s s₀ s₁ s₂ s₃ : filesys} {cwd : Option ℕ} {path name : c_string} {size : ℤ} {c i j : ℕ}
  {fs : fat_fs} {jno ino : inode} {m : List ℕ}

/-- A successful `filesys_create` in the directory that the path leads to. -/
theorem filesys_create_walk (hwf : s₀.OpenWf)
    (h : filesys_create s₀ cwd path size = .ok (true, s₁)) :
    ∃ l z j jno s extra, route s₀ (path_dirs path)
        (start_sector_checked s₀ cwd (is_root_path path)) = .ok (some (l, z))
      ∧ s.inode j = some jno ∧ jno.sector = z ∧ filesys.Extra s₀ s extra
      ∧ create_in s j (path_last path) size = .ok (true, s₁) := by
  have hne : path_components path ≠ [] := fun hnil => by
    obtain ⟨hfalse, -⟩ := filesys_create_nil h hnil
    cases hfalse
  obtain ⟨path_lst, hparse, h⟩ := Outcome.bind_eq_ok.mp h
  obtain rfl := parse_path_eq_ok hparse
  rw [getLast?_path hne] at h
  obtain ⟨⟨cur, s'⟩, hstart, h⟩ := Outcome.bind_eq_ok.mp h
  obtain ⟨⟨r, s⟩, hwalk, h⟩ := Outcome.bind_eq_ok.mp h
  rcases (start_dir_checked_started hwf hstart).walk hwalk with
    ⟨l, z, j, jno, rfl, hroute, hj, hz, hx⟩ | ⟨rfl, -, -⟩
  · change (if (path_last path).length ≤ 14 then _ else _) = _ at h
    split at h
    · exact ⟨l, z, j, jno, s, _, hroute, hj, hz, hx, h⟩
    · cases h
  · cases h

/-- A successful `dir_add` has written an entry. -/
theorem dir_add_write {sector : ℕ} (h : dir_add s j name sector = .ok (true, s₁)) :
    ∃ e ofs, write_entry s j e ofs = .ok (true, s₁) := by
  unfold dir_add at h
  split at h
  · cases h
  · obtain ⟨entry, -, h⟩ := Outcome.bind_eq_ok.mp h
    split at h
    · cases h
    · obtain ⟨r, -, h⟩ := Outcome.bind_eq_ok.mp h
      exact ⟨_, _, h⟩

/-- **The new inode**, as it can be read when `filesys_create` is done. -/
theorem create_in_owned (hwf : s.fat.Wf) (hsize : IsI32 size) (hj : s.inode j = some jno)
    (hdir : Linked s.fat jno.data.start m) (hlen : 0 ≤ jno.data.length)
    (hplace : NotFreeSector s.fat jno.sector) (hclst : fat_allocate s.fat 1 0 = .ok (true, c, fs))
    (h : create_in s j name size = .ok (true, s₁)) :
    ∃ l, Owned s₁.fat c (fresh_inode s₁.disk (cluster_to_sector s.fat c)) l := by
  obtain ⟨rfl, hc2, hclt, hfree⟩ := fat_allocate_one hwf hclst
  rw [create_in, hclst, Outcome.ok_bind] at h
  obtain ⟨⟨created, d₂, fs₂⟩, hcreate, h⟩ := Outcome.bind_eq_ok.mp h
  cases created with
  | false => cases h
  | true =>
      obtain ⟨⟨l, howned, hl⟩, hno, hkeep, hlen₂, -⟩ :=
        inode_create_owned hwf hc2 hclt hfree hsize hcreate
      obtain ⟨e, ofs, hentry⟩ := dir_add_write h
      obtain ⟨jno', hj', hrest⟩ := Outcome.bind_eq_ok.mp hentry
      rw [filesys.get_inode_eq_ok] at hj'
      obtain rfl := Option.some.inj (hj.symm.trans hj')
      obtain ⟨⟨n, d₃, fs₃, ino'⟩, hwrite, hret⟩ := Outcome.bind_eq_ok.mp hrest
      obtain ⟨-, rfl⟩ := Outcome.ok_pair hret
      -- the directory's chain is as it was: none of its clusters was free
      have hused := hdir.chain.entry_ne_zero
      have hdir₂ : Linked fs₂ jno.data.start m :=
        ⟨howned.linked.wf, hdir.chain.congr hlen₂ fun k hk => hkeep k (hused k hk), hdir.root⟩
      obtain ⟨m', hw⟩ := inode_write_at_wrote hdir₂ hlen hwrite
      exact ⟨l, howned.other_write hw (fun hc => hused c hc hfree)
        (fun k hk hm => hused k hm (hl k hk)) (hplace c hc2 hclt hfree).symm hno⟩

/-- **Closing a removed file**: the file is created in a sound directory, opened for the first
time, written to in any way, removed and closed. What it owns is freed exactly if its inode is
valid and the file has a first cluster. -/
theorem close_removed_frees_own_iff {ws : List write_args} (hwf : s₀.OpenWf) (hsize : IsI32 size)
    (hdir : SoundDir s₀ cwd path) (hcreate : filesys_create s₀ cwd path size = .ok (true, s₁))
    (hclst : fat_allocate s₀.fat 1 0 = .ok (true, c, fs))
    (hnew : s₁.refs (cluster_to_sector s₀.fat c) = 0)
    (hopen : inode_open s₁ (cluster_to_sector s₀.fat c) = .ok (i, s₂))
    (hwrite : write_all i ws s₂ = .ok s₃) (hino : s₃.inode i = some ino) :
    FreesOwn s₃ i ino ↔ ino.data.magic = INODE_MAGIC ∧ ino.data.start ≠ 0 := by
  obtain ⟨l, z, j, jno, s, extra, hroute, hj, rfl, hx, hin⟩ := filesys_create_walk hwf hcreate
  obtain ⟨⟨m, hm⟩, hlen, hplace⟩ := hdir.dir l jno.sector hroute
  rw [← hx.view_open hj] at hm hlen
  rw [← hx.fat] at hm hplace hclst hnew hopen
  obtain ⟨l₁, howned⟩ := create_in_owned (hx.fat ▸ hdir.wf) hsize hj hm hlen hplace hclst hin
  -- the first open loads the inode
  have hwf₁ : s₁.OpenWf := (create_in_steady hin).wf hx.wf
  have hfirst : OpenOnce s₂ i c (fresh_inode s₁.disk (cluster_to_sector s.fat c)) l₁ := by
    rcases inode_open_cases hwf₁ hopen with ⟨ino₁, hi, hsec, -⟩ | ⟨-, rfl, rfl⟩
    · rw [← hsec, filesys.refs_of_open hwf₁ hi] at hnew
      have := hwf₁.pos hi
      omega
    · exact ⟨Function.update_self _ _ _, howned, rfl⟩
  obtain ⟨ino₃, l₃, hlast⟩ := write_all_open_once ws hfirst hwrite
  obtain rfl := Option.some.inj (hlast.is_open.symm.trans hino)
  exact frees_own_iff hlast

end Created

/-! ### Next to the file `a` -/

/-- The root directory of that disk. -/
theorem file_a_root_sound (name : UInt8) (h : name ≠ SLASH) : SoundDir file_a none [name] where
  wf := file_a_fat
  dir l z hroute := by
    have hroot : is_root_path [name] = false := decide_eq_false fun he => h (Option.some.inj he)
    have hdirs : path_dirs [name] = [] := by
      rw [path_dirs, path_components, parse_path_loop, if_neg h]
      rfl
    rw [hroot, hdirs] at hroute
    obtain ⟨-, hz⟩ := Prod.mk.inj (Option.some.inj (Outcome.ok.inj hroute))
    obtain rfl : ROOT_DIR_SECTOR = z := hz
    have hstart : (file_a.view ROOT_DIR_SECTOR).data.start = 1 := by decide
    have hlen : (file_a.view ROOT_DIR_SECTOR).data.length = 20 := by decide
    refine ⟨⟨[1], file_a_fat, ?_, by decide⟩, ?_, fun c h2 hlt _ => ?_⟩
    · rw [hstart]
      exact .inr ⟨by decide, ⟨rfl, rfl⟩, by decide⟩
    · show 0 ≤ (file_a.view ROOT_DIR_SECTOR).data.length
      rw [hlen]
      decide
    · show cluster_to_sector file_a.fat c ≠ 1
      rw [cluster_to_sector_eq file_a_fat.toGeometry (by omega) (Nat.le_of_lt hlt)]
      show 8 + c - 1 ≠ 1
      omega

/-- The theorem at an empty file `b` that is written to once. -/
theorem written_file_freed : ∃ s₁ s₂ s₃ i ino,
    filesys_create file_a none [98] 0 = .ok (true, s₁)
    ∧ inode_open s₁ (cluster_to_sector file_a.fat 4) = .ok (i, s₂)
    ∧ write_all i [{ buffer := zeros, size := 5, offset := 0 }] s₂ = .ok s₃
    ∧ (FreesOwn s₃ i ino ↔ ino.data.magic = INODE_MAGIC ∧ ino.data.start ≠ 0) := by
  have hrun : (filesys_create file_a none [98] 0).satisfies (fun r =>
      r.1 && decide (r.2.refs (cluster_to_sector file_a.fat 4) = 0)
        && (inode_open r.2 (cluster_to_sector file_a.fat 4)).satisfies fun q =>
          (write_all q.1 [{ buffer := zeros, size := 5, offset := 0 }] q.2).satisfies fun t =>
            (t.inode q.1).isSome) = true := by
    decide +kernel
  obtain ⟨⟨b, s₁⟩, hcreate, hrest⟩ := Outcome.satisfies_iff.mp hrun
  rw [Bool.and_eq_true, Bool.and_eq_true, decide_eq_true_iff] at hrest
  obtain ⟨⟨rfl, hnew⟩, hopens⟩ := hrest
  obtain ⟨⟨i, s₂⟩, hopen, hwrites⟩ := Outcome.satisfies_iff.mp hopens
  obtain ⟨s₃, hwrite, hsome⟩ := Outcome.satisfies_iff.mp hwrites
  obtain ⟨ino, hino⟩ := Option.isSome_iff_exists.mp hsome
  exact ⟨s₁, s₂, s₃, i, ino, hcreate, hopen, hwrite,
    close_removed_frees_own_iff file_a_wf (by decide)
    (file_a_root_sound 98 (by decide)) hcreate rfl hnew hopen hwrite hino⟩

/-- **An empty file**: it is created, opened, removed and closed, and the close does not return. -/
theorem empty_file_close_hangs : ¬ ∀ (s₀ s₁ s₂ s₃ : filesys) (cwd : Option ℕ) (path : c_string)
    (size : ℤ) (ws : List write_args) (c i : ℕ) (fs : fat_fs) (ino : inode), s₀.OpenWf →
    IsI32 size → SoundDir s₀ cwd path → filesys_create s₀ cwd path size = .ok (true, s₁) →
    fat_allocate s₀.fat 1 0 = .ok (true, c, fs) → s₁.refs (cluster_to_sector s₀.fat c) = 0 →
    inode_open s₁ (cluster_to_sector s₀.fat c) = .ok (i, s₂) → write_all i ws s₂ = .ok s₃ →
    s₃.inode i = some ino → FreesOwn s₃ i ino := by
  intro hall
  have hrun : (filesys_create file_a none [98] 0).satisfies (fun r =>
      r.1 && decide (r.2.refs (cluster_to_sector file_a.fat 4) = 0)
        && (inode_open r.2 (cluster_to_sector file_a.fat 4)).satisfies fun q =>
          (q.2.inode q.1).isSome && !(remove_and_close q.2 q.1).satisfies fun _ =>
          true) = true := by
    decide +kernel
  obtain ⟨⟨b, s₁⟩, hcreate, hrest⟩ := Outcome.satisfies_iff.mp hrun
  rw [Bool.and_eq_true, Bool.and_eq_true, decide_eq_true_iff] at hrest
  obtain ⟨⟨rfl, hnew⟩, hopens⟩ := hrest
  obtain ⟨⟨i, s₂⟩, hopen, hlast⟩ := Outcome.satisfies_iff.mp hopens
  rw [Bool.and_eq_true, Bool.not_eq_true'] at hlast
  obtain ⟨hsome, hhangs⟩ := hlast
  obtain ⟨ino, hino⟩ := Option.isSome_iff_exists.mp hsome
  obtain ⟨l, s', -, hclose, -⟩ := hall file_a s₁ s₂ s₂ none [98] 0 [] 4 i _ ino
    file_a_wf (by decide) (file_a_root_sound 98 (by decide)) hcreate rfl hnew hopen rfl hino
  rw [Outcome.satisfies_iff.mpr ⟨s', hclose, rfl⟩] at hhangs
  cases hhangs

end Pintos
