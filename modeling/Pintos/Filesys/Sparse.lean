/-
Writing past the end of a file: what the gap reads as.

The bytes between the old end and the first byte written come from three places. Those in
clusters that the extension loop appends are zeroed there. Those behind the old end, but in a
cluster the file already has, are left as they are. And the first cluster of an empty file is
claimed in front of the loop, and not zeroed: it shows what was in it before (`grown_byte`).
-/
import Pintos.Filesys.ByteFile
import Pintos.Filesys.InodeCreate

set_option autoImplicit false

namespace Pintos

/-! ## The clusters of a file that has grown -/

/-- How many clusters a file keeps when it grows: all of them, but for the root directory, whose
second cluster is replaced. -/
def kept_clusters (start len extend_size : ℕ) (l : List ℕ) : ℕ :=
  if start = ROOT_DIR_CLUSTER ∧ grow_clusters start len extend_size ≠ 0 then 1 else l.length

/-- The sector of the inode is none of the file's own, and that of no free cluster. -/
structure InodeApart (fs : fat_fs) (ino : inode) (l : List ℕ) : Prop where
  own : ∀ k ∈ l, cluster_to_sector fs k ≠ ino.sector
  free : NotFreeSector fs ino.sector

section Grown

variable {d : disk} {fs fs' : fat_fs} {start len extend_size i : ℕ} {l cs : List ℕ}

/-- Cluster number `i` of the grown file is an old one, or the first one of a file that had
none, or one of those that are zeroed. -/
theorem grown_cluster (hch : DataChain fs start l)
    (hcount : cs.length = grow_clusters start len extend_size)
    (hi : i < (grown start l cs).length) :
    (i < kept_clusters start len extend_size l ∧ (grown start l cs).getD i 0 = l.getD i 0
        ∧ (grown start l cs).getD i 0 ∈ l)
      ∨ (start = 0 ∧ i = 0 ∧ cs ≠ [] ∧ (grown start l cs).getD i 0 = cs.headD 0)
      ∨ (kept_clusters start len extend_size l ≤ i ∧ ¬ (start = 0 ∧ i = 0)
          ∧ (grown start l cs).getD i 0 ∈ zeroed_clusters start cs) := by
  unfold kept_clusters zeroed_clusters
  by_cases h0 : start = 0
  · -- a file that had none
    obtain rfl : l = [] := DataChain.eq_nil_of_start (h0 ▸ hch)
    have hroot : start ≠ ROOT_DIR_CLUSTER := by
      rw [h0]
      decide
    have hg : grown start [] cs = cs := by
      rw [grown, dif_neg fun h => hroot h.1, List.nil_append]
    rw [hg] at hi ⊢
    right
    cases cs with
    | nil => exact absurd hi (Nat.not_lt_zero i)
    | cons c cs =>
        cases i with
        | zero => exact .inl ⟨h0, rfl, by simp, rfl⟩
        | succ i =>
            right
            rw [if_neg fun h => hroot h.1, if_pos h0]
            refine ⟨Nat.zero_le _, fun h => absurd h.2 (Nat.succ_ne_zero i), ?_⟩
            have hi' : i < cs.length := Nat.lt_of_succ_lt_succ hi
            rw [List.getD_cons_succ, List.getD_eq_getElem _ _ hi']
            exact List.getElem_mem hi'
  · rw [if_neg h0]
    by_cases hroot : start = ROOT_DIR_CLUSTER ∧ cs ≠ []
    · -- the root directory: the first cluster stays, the last new one is behind it
      have hne : grow_clusters start len extend_size ≠ 0 := by
        rw [← hcount]
        exact Nat.ne_of_gt (List.length_pos_of_ne_nil hroot.2)
      rw [if_pos ⟨hroot.1, hne⟩]
      rw [grown, dif_pos hroot] at hi ⊢
      rcases hch with ⟨h, -⟩ | ⟨hl, hch⟩
      · exact absurd h h0
      · cases i with
        | zero =>
            have hmem := hch.path.start_mem hl
            cases l with
            | nil => exact absurd rfl hl
            | cons x l =>
                have hx : x = start := hch.path.1.symm
                rw [hroot.1] at hx hmem
                exact .inl ⟨Nat.one_pos, hx.symm, hmem⟩
        | succ i =>
            right; right
            obtain rfl : i = 0 := Nat.lt_one_iff.mp (Nat.lt_of_succ_lt_succ hi)
            exact ⟨le_rfl, fun h => h0 h.1, List.getLast_mem hroot.2⟩
    · have hkept : ¬ (start = ROOT_DIR_CLUSTER ∧ grow_clusters start len extend_size ≠ 0) := by
        rintro ⟨h1, hne⟩
        rw [← hcount] at hne
        exact hroot ⟨h1, List.ne_nil_of_length_pos (Nat.pos_of_ne_zero hne)⟩
      rw [if_neg hkept]
      rw [grown, dif_neg hroot] at hi ⊢
      by_cases hold : i < l.length
      · left
        rw [List.getD_append _ _ _ _ hold]
        refine ⟨hold, rfl, ?_⟩
        rw [List.getD_eq_getElem _ _ hold]
        exact List.getElem_mem hold
      · right; right
        rw [List.length_append] at hi
        have hi' : i - l.length < cs.length := by omega
        rw [List.getD_append_right _ _ _ _ (Nat.le_of_not_lt hold), List.getD_eq_getElem _ _ hi']
        exact ⟨Nat.le_of_not_lt hold, fun h => h0 h.1, List.getElem_mem hi'⟩

/-- A cluster that is none of those zeroed keeps its bytes. -/
theorem zero_clusters_other (hg : fs.Geometry) {c : ℕ} (hc : c < fs.fat_length)
    (hcs : ∀ k ∈ cs, k < fs.fat_length) (hne : c ∉ cs) :
    (zero_clusters d fs cs).sectors (cluster_to_sector fs c)
    = d.sectors (cluster_to_sector fs c) := by
  apply zero_clusters_frame
  intro k hk heq
  have hck := cluster_to_sector_inj hg (Nat.le_of_lt hc) (Nat.le_of_lt (hcs k hk)) heq
  exact hne (hck ▸ hk)

/-- **A byte of the grown file**, before anything is written to it. -/
theorem grown_byte (hwf : fs.Wf) (hch : DataChain fs start l)
    (hcs : handout fs cs.length = .ok cs)
    (hcount : cs.length = grow_clusters start len extend_size)
    (hds : fs'.data_start = fs.data_start)
    {p : ℕ} (hp : p < 512 * (grown start l cs).length) :
    file_byte (zero_clusters d fs (zeroed_clusters start cs)) fs' (grown start l cs) p
      = if p < 512 * kept_clusters start len extend_size l then file_byte d fs l p
        else if start = 0 ∧ p < 512 then d.sectors (cluster_to_sector fs (cs.headD 0)) p
        else 0 := by
  obtain ⟨-, hnd, hfree⟩ := handout_spec _ hwf hcs
  have hzeroed : ∀ k ∈ zeroed_clusters start cs, k ∈ cs := by
    intro k hk
    unfold zeroed_clusters at hk
    split at hk
    · exact List.mem_of_mem_tail hk
    · exact hk
  have hlt : ∀ k ∈ zeroed_clusters start cs, k < fs.fat_length :=
    fun k hk => (hfree k (hzeroed k hk)).2.1
  unfold file_byte
  rw [cluster_to_sector_congr hds]
  rcases grown_cluster hch hcount (show p / 512 < (grown start l cs).length by omega) with
    ⟨hkept, hsame, hmem⟩ | ⟨h0, hp0, hne, hhead⟩ | ⟨hkept, hnot, hmem⟩
  · -- an old cluster: it is in use, so it is not one of those handed out
    rw [if_pos (by omega), ← hsame, zero_clusters_other hwf.toGeometry (hch.range _ hmem).2 hlt]
    intro hin
    exact hch.entry_ne_zero _ hmem (hfree _ (hzeroed _ hin)).2.2
  · have hk0 : kept_clusters start len extend_size l = 0 := by
      obtain rfl : l = [] := DataChain.eq_nil_of_start (h0 ▸ hch)
      rw [kept_clusters, if_neg]
      · rfl
      · rw [h0]
        rintro ⟨h, -⟩
        exact absurd h (by decide)
    have hmod : p % 512 = p := by omega
    rw [if_neg (by omega), if_pos ⟨h0, by omega⟩, hmod]
    obtain ⟨c, rest, rfl⟩ := List.exists_cons_of_ne_nil hne
    have hout : c ∉ zeroed_clusters start (c :: rest) := by
      rw [zeroed_clusters, if_pos h0]
      exact (List.nodup_cons.mp hnd).1
    rw [hhead, List.headD_cons]
    rw [zero_clusters_other hwf.toGeometry (hfree c List.mem_cons_self).2.1 hlt hout]
  · rw [if_neg (by omega), if_neg (by omega)]
    have hz := zero_clusters_mem fs (zeroed_clusters start cs) d ⟨_, hmem, rfl⟩
    rw [hz]
    rfl

end Grown

/-! ## The write -/

/-- What is asked of a write that starts behind the end of the file: it returns, and afterwards
every byte between the old end and the first byte written reads as zero. -/
def GapReadsZero (d : disk) (fs : fat_fs) (ino : inode) (buffer : Bytes) (size offset : ℕ) : Prop :=
  ∃ n d' fs' ino', inode_write_at d fs ino buffer size offset = .ok (n, d', fs', ino')
    ∧ ∀ p : ℕ, ino.data.length ≤ p → p < offset →
        ∀ b, ∃ b', inode_read_at d' fs' ino' b 1 p = .ok (1, b') ∧ b' 0 = 0

/-- **The condition on the state before**: writing is allowed and the end is an `off_t`, the chain
is one that grows well, what the file keeps of its clusters is zero in the gap, and so is, for a
file without clusters, the first free cluster. -/
structure GapClear (d : disk) (fs : fat_fs) (ino : inode) (l : List ℕ)
    (size offset : ℕ) : Prop where
  allowed : ino.deny_write_cnt = 0
  end_fits : offset + size < 2 ^ 31
  grows : GrowOk ino.data.start (content_length ino) (offset + size) l
  tail : ∀ p, content_length ino ≤ p → p < offset →
    p < 512 * kept_clusters ino.data.start (content_length ino) (offset + size) l →
      file_byte d fs l p = 0
  first : ino.data.start = 0 → ∀ c, find_free_cluster fs = .ok c →
    ∀ p < min offset 512, d.sectors (cluster_to_sector fs c) p = 0

section Write

variable {d : disk} {fs : fat_fs} {ino : inode} {l : List ℕ} {buffer : Bytes} {size offset : ℕ}

/-- Behind the end of the file nothing is read. -/
theorem Backed.read_past (h : Backed d fs ino l) {p : ℕ} (hp : content_length ino ≤ p) (b : Bytes) :
    ¬ ∃ b', inode_read_at d fs ino b 1 p = .ok (1, b') ∧ b' 0 = 0 := by
  rintro ⟨b', hread, -⟩
  obtain ⟨b'', hrun, -⟩ := inode_read_at_readable h b 1 p
  rw [Nat.cast_one, hread] at hrun
  have hn := (Outcome.ok_pair hrun).1
  unfold readable at hn
  omega

/-- Inside the file, one byte is. -/
theorem Backed.read_byte (h : Backed d fs ino l) {p : ℕ} (hp : p < content_length ino) (b : Bytes) :
    (∃ b', inode_read_at d fs ino b 1 p = .ok (1, b') ∧ b' 0 = 0) ↔ file_byte d fs l p = 0 := by
  obtain ⟨b'', hrun, hb⟩ := inode_read_at_readable h b 1 p
  have hone : readable ino 1 p = 1 := by
    unfold readable
    omega
  rw [hone, Nat.cast_one] at hrun
  have hbyte : b'' 0 = file_byte d fs l p := by
    rw [hb 0, hone, if_pos Nat.one_pos, Nat.add_zero]
  rw [← hbyte]
  constructor
  · rintro ⟨b', hread, hzero⟩
    rw [hread] at hrun
    rwa [← (Outcome.ok_pair hrun).2]
  · exact fun hzero => ⟨b'', hrun, hzero⟩

/-- A write whose end is no `off_t`: the sum is negative, nothing is extended, and there is no
sector to write to. -/
theorem inode_write_at_wrapped (h : Backed d fs ino l) (buffer : Bytes)
    (hallowed : ino.deny_write_cnt = 0)
    (hpast : content_length ino < offset) (hoff : offset < 2 ^ 31) (hsize : size < 2 ^ 31)
    (hend : 2 ^ 31 ≤ offset + size) : inode_write_at d fs ino buffer size offset
      = .ok (0, d.put ino.sector ino.data.encode, fs, ino) := by
  have hlen : inode_length ino = (content_length ino : ℤ) := h.length_eq
  have h32 : i32 ((offset : ℤ) + size) < 0 := by
    unfold i32
    omega
  have hno : ¬ i32 ((offset : ℤ) + size) > inode_length ino := by omega
  have hs : byte_to_sector fs ino offset = .ok NO_SECTOR := by
    unfold inode_length at hlen
    rw [byte_to_sector, if_pos (by omega)]
  have hloop : inode_write_at_loop fs ino buffer ((size : ℤ).toNat + 1) d size offset 0
      = .ok (0, d) := by
    rw [inode_write_at_loop]
    split
    · rfl
    · rw [hs]
      simp only [Outcome.ok_bind, tmod_512, hlen]
      rw [if_pos]
      · rfl
      · split_ifs <;> omega
  rw [inode_write_at, if_neg (not_not.mpr hallowed)]
  simp only [if_neg hno, Outcome.ok_bind, hloop, inode_flush, disk_write_ok h.inode_on_disk,
    Outcome.pure_eq]

/-- A write that leaves the inode as it is leaves no gap that could be read. -/
theorem not_gapReadsZero_of_same {m : ℤ} {d₁ : disk} (h : Backed d fs ino l)
    (hpast : content_length ino < offset)
    (hrun : inode_write_at d fs ino buffer size offset = .ok (m, d₁, fs, ino))
    (hcap : d₁.capacity = d.capacity) :
    ¬ GapReadsZero d fs ino buffer size offset := by
  rintro ⟨n, d', fs', ino', hrun', hgap⟩
  rw [hrun] at hrun'
  have heq := Outcome.ok.inj hrun'
  simp only [Prod.mk.injEq] at heq
  obtain ⟨-, rfl, rfl, rfl⟩ := heq
  exact (h.disk_congr hcap).read_past le_rfl zeros (hgap _ h.length_eq.le hpast zeros)

/-- A growing write that finds its clusters, in full: the zeroed clusters, then the request, then
the inode. -/
theorem inode_write_at_grows {cs : List ℕ} (hcov : Covered d fs ino l)
    (hapart : InodeApart fs ino l) (buffer : Bytes)
    (hallowed : ino.deny_write_cnt = 0) (hend : offset + size < 2 ^ 31)
    (hpast : content_length ino < offset + size)
    (hcs : handout fs (grow_clusters ino.data.start (content_length ino) (offset + size)) = .ok cs)
    (hcount : cs.length = grow_clusters ino.data.start (content_length ino) (offset + size))
    (hsel : ∀ k ∈ cs, select_sector d (cluster_to_sector fs k))
    (hok : GrowOk ino.data.start (content_length ino) (offset + size) l) :
    ∃ fs' ino' d₂, inode_write_at d fs ino buffer size offset
        = .ok ((size : ℤ), d₂.put ino.sector ino'.data.encode, fs', ino')
      ∧ content_length ino' = offset + size ∧ fs'.data_start = fs.data_start
      ∧ FileWritten fs' (grown ino.data.start l cs) buffer offset size
          (zero_clusters d fs (zeroed_clusters ino.data.start cs)) d₂
      ∧ ino'.sector = ino.sector
      ∧ Backed (zero_clusters d fs (zeroed_clusters ino.data.start cs)) fs' ino'
          (grown ino.data.start l cs) := by
  have hlen : ino.data.length = (content_length ino : ℤ) :=
    (Int.toNat_of_nonneg hcov.length_nonneg).symm
  have hcovers := hcov.covers
  have hext := inode_extend_spec hcov hlen hcs hcount hsel
  obtain ⟨-, -, hds⟩ := grown_table_spec hcov.wf hcov.chain hcov.root hcs
  have hfits := (grown_covers_iff hcov.chain (by omega) (by omega) hcount).mpr hok
  have hcap := zero_clusters_capacity fs (zeroed_clusters ino.data.start cs) d
  have hcov' := hcov.extended hcs hcap hsel hend hfits
  have hback := hcov'.backed (fun k hk => by
    rw [cluster_to_sector_congr hds]
    rcases mem_grown hcov.chain hk with hold | hnew
    · exact hapart.own k hold
    · obtain ⟨h2, hlt, hfree⟩ := (handout_spec _ hcov.wf hcs).2.2 k hnew
      exact hapart.free k h2 hlt hfree)
  obtain ⟨d₂, hrun, -, hw⟩ := inode_write_at_extended buffer hallowed hend (by omega) hext hback
    (Int.toNat_natCast _)
  exact ⟨_, _, d₂, hrun, Int.toNat_natCast _, hds, hw, rfl, hback⟩

/-- Once the file has grown, what is asked is a matter of its bytes. -/
theorem gapReadsZero_iff_grown {cs : List ℕ} (hcov : Covered d fs ino l)
    (hapart : InodeApart fs ino l) (hallowed : ino.deny_write_cnt = 0)
    (hend : offset + size < 2 ^ 31) (hpast : content_length ino < offset)
    (hcs : handout fs (grow_clusters ino.data.start (content_length ino) (offset + size)) = .ok cs)
    (hcount : cs.length = grow_clusters ino.data.start (content_length ino) (offset + size))
    (hsel : ∀ k ∈ cs, select_sector d (cluster_to_sector fs k))
    (hok : GrowOk ino.data.start (content_length ino) (offset + size) l) :
    GapReadsZero d fs ino buffer size offset ↔
      ∀ p, content_length ino ≤ p → p < offset →
        (if p < 512 * kept_clusters ino.data.start (content_length ino) (offset + size) l
          then file_byte d fs l p
          else if ino.data.start = 0 ∧ p < 512
            then d.sectors (cluster_to_sector fs (cs.headD 0)) p else 0) = 0 := by
  obtain ⟨fs', ino', d₂, hrun, hlen', hds, hw, hsector, hback⟩ := inode_write_at_grows hcov hapart
    buffer hallowed hend (Nat.lt_of_lt_of_le hpast (Nat.le_add_right _ _)) hcs hcount hsel hok
  have hfinal : Backed (d₂.put ino.sector ino'.data.encode) fs' ino' (grown ino.data.start l cs) :=
    hback.disk_congr hw.capacity
  have hlen : ino.data.length = (content_length ino : ℤ) :=
    (Int.toNat_of_nonneg hcov.length_nonneg).symm
  have hcovers := hback.covers
  rw [hback.length_eq, hlen'] at hcovers
  rw [← hcount] at hcs
  -- a byte in the gap is one of the grown file, which the request leaves
  have hbyte : ∀ p, content_length ino ≤ p → p < offset → ∀ b,
      (∃ b', inode_read_at (d₂.put ino.sector ino'.data.encode) fs' ino' b 1 p
        = .ok (1, b') ∧ b' 0 = 0)
        ↔ (if p < 512 * kept_clusters ino.data.start (content_length ino) (offset + size) l
          then file_byte d fs l p
          else if ino.data.start = 0 ∧ p < 512
            then d.sectors (cluster_to_sector fs (cs.headD 0)) p else 0) = 0 := by
    intro p hp hlt b
    rw [hfinal.read_byte (by omega) b, ← hsector, file_byte_flushed hback hw (by omega),
      if_neg (by omega), grown_byte hcov.wf hcov.chain hcs hcount hds (by omega)]
  constructor
  · rintro ⟨n, d', fs'', ino'', hrun', hgap⟩ p hp hlt
    rw [hrun] at hrun'
    have heq := Outcome.ok.inj hrun'
    simp only [Prod.mk.injEq] at heq
    obtain ⟨-, rfl, rfl, rfl⟩ := heq
    exact (hbyte p hp hlt zeros).mp (hgap p (by omega) hlt zeros)
  · intro hzero
    refine ⟨_, _, fs', ino', hrun, fun p hp hlt b => ?_⟩
    exact (hbyte p (by omega) hlt b).mpr (hzero p (by omega) hlt)

/-- The condition on the bytes, in terms of the state before. -/
theorem gap_clear_iff_grown {cs : List ℕ} (hcov : Covered d fs ino l)
    (hallowed : ino.deny_write_cnt = 0) (hend : offset + size < 2 ^ 31)
    (hok : GrowOk ino.data.start (content_length ino) (offset + size) l)
    (hcs : handout fs (grow_clusters ino.data.start (content_length ino) (offset + size)) = .ok cs)
    (hcount : cs.length = grow_clusters ino.data.start (content_length ino) (offset + size)) :
    GapClear d fs ino l size offset ↔
      ∀ p, content_length ino ≤ p → p < offset →
        (if p < 512 * kept_clusters ino.data.start (content_length ino) (offset + size) l
          then file_byte d fs l p
          else if ino.data.start = 0 ∧ p < 512
            then d.sectors (cluster_to_sector fs (cs.headD 0)) p else 0) = 0 := by
  have hcovers := hcov.covers
  -- the first free cluster is the first one handed out
  have hfirst : ino.data.start = 0 → l = [] ∧ find_free_cluster fs = .ok (cs.headD 0) := by
    intro h0
    have hne : cs ≠ [] := by
      rintro rfl
      rw [grow_clusters, if_pos h0, List.length_nil] at hcount
      omega
    obtain ⟨c, rest, rfl⟩ := List.exists_cons_of_ne_nil hne
    rw [← hcount] at hcs
    exact ⟨DataChain.eq_nil_of_start (h0 ▸ hcov.chain), (handout_cons hcov.wf hcs).1⟩
  have hkept : ino.data.start = 0 →
      kept_clusters ino.data.start (content_length ino) (offset + size) l = 0 := by
    intro h0
    rw [kept_clusters, if_neg, (hfirst h0).1, List.length_nil]
    rw [h0]
    exact fun h => absurd h.1 (by decide)
  constructor
  · intro h p hp hlt
    split
    · exact h.tail p hp hlt ‹_›
    · split
      · rename_i hstart
        exact h.first hstart.1 _ (hfirst hstart.1).2 p (by omega)
      · rfl
  · intro h
    refine ⟨hallowed, hend, hok, fun p hp hlt hold => ?_, fun h0 c hc p hp => ?_⟩
    · simpa only [if_pos hold] using h p hp hlt
    · rw [(hfirst h0).2] at hc
      obtain rfl := Outcome.ok.inj hc
      have hzero := h p (by
        unfold content_length inode_length
        rw [(hfirst h0).1, List.length_nil] at hcovers
        omega) (by omega)
      rwa [hkept h0, if_neg (by omega), if_pos ⟨h0, by omega⟩] at hzero

/-- **Sparse growth reads as zero, exactly under `GapClear`**: for every inode whose chain covers
its length, every write behind the end of the file for which the clusters are there. -/
theorem sparse_growth_reads_zero_iff (hcov : Covered d fs ino l) (hapart : InodeApart fs ino l)
    (buffer : Bytes) (hsize : 0 < size) (hsize' : size < 2 ^ 31) (hoff : offset < 2 ^ 31)
    (hpast : ino.data.length < offset)
    (hdel : Delivers d fs (grow_clusters ino.data.start (content_length ino) (offset + size))) :
    GapReadsZero d fs ino buffer size offset ↔ GapClear d fs ino l size offset := by
  have hback := hcov.backed hapart.own
  have hlen := hback.length_eq
  have hpast' : content_length ino < offset := by omega
  by_cases hallowed : ino.deny_write_cnt = 0
  · by_cases hend : offset + size < 2 ^ 31
    · by_cases hok : GrowOk ino.data.start (content_length ino) (offset + size) l
      · obtain ⟨cs, hcs, hcount, hsel⟩ := hdel
        rw [gapReadsZero_iff_grown hcov hapart hallowed hend hpast' hcs hcount hsel hok,
          gap_clear_iff_grown hcov hallowed hend hok hcs hcount]
      · -- the chain comes out short, and the write does not come back
        have hbad := (inode_write_at_past hcov buffer hallowed hsize hend (by omega)
          hdel).2 hok
        exact iff_of_false (fun ⟨n, d', fs', ino', hrun, _⟩ => hbad _ hrun) fun h => hok h.grows
    · have hrun := inode_write_at_wrapped hback buffer hallowed hpast' hoff hsize' (by omega)
      exact iff_of_false (not_gapReadsZero_of_same hback hpast' hrun rfl) fun h => hend h.end_fits
  · have hrun : inode_write_at d fs ino buffer size offset = .ok (0, d, fs, ino) := by
      rw [inode_write_at, if_pos hallowed]
      rfl
    exact iff_of_false (not_gapReadsZero_of_same hback hpast' hrun rfl) fun h => hallowed h.allowed

end Write

/-! ### An empty file on a used disk -/

/-- A disk on which every byte is 7: what is free was written to before. -/
def stale_disk : disk where
  capacity := 16
  sectors := fun _ _ => 7
  written := []

/-- An empty file, as `filesys_create` leaves it, with its inode in cluster 3. -/
def empty_inode : inode where
  sector := 4
  open_cnt := 1
  removed := false
  deny_write_cnt := 0
  data := { start := 0, length := 0, magic := INODE_MAGIC, isdir := false }

theorem one_cluster_apart {ino : inode} (hsector : ino.sector = 4) {l : List ℕ}
    (hl : ∀ k ∈ l, k = 2) : InodeApart one_cluster_fat ino l := by
  constructor
  · intro k hk
    rw [hl k hk, hsector]
    decide
  · intro c _ hlt hfree heq
    -- the free clusters are those from 4 on
    have h4 : ¬ c < 4 := fun h => absurd ((if_pos h).symm.trans hfree) (by decide)
    have hsec := cluster_to_sector_inj one_cluster_wf.toGeometry (Nat.le_of_lt hlt)
      (show 3 ≤ one_cluster_fat.fat_length by decide) (heq.trans hsector)
    omega

/-- On a blank disk the gap behind 100 bytes reads as zero. -/
theorem blank_gap_reads_zero :
    GapReadsZero blank_disk one_cluster_fat (one_cluster_inode 100) zeros 1 600 := by
  have hcov := one_cluster_covered 100 (by decide) (by decide)
  have hapart : InodeApart one_cluster_fat (one_cluster_inode 100) [2] :=
    one_cluster_apart rfl fun k hk => List.mem_singleton.mp hk
  have hdel : Delivers blank_disk one_cluster_fat (grow_clusters 2 100 601) :=
    ⟨[4], rfl, by decide, by decide⟩
  have hclear : GapClear blank_disk one_cluster_fat (one_cluster_inode 100) [2] 1 600 :=
    ⟨rfl, by decide, ⟨by decide, by decide⟩, fun _ _ _ _ => rfl, fun h => absurd h (by decide)⟩
  have hiff : GapReadsZero blank_disk one_cluster_fat (one_cluster_inode 100) zeros 1 600
      ↔ GapClear blank_disk one_cluster_fat (one_cluster_inode 100) [2] 1 600 :=
    sparse_growth_reads_zero_iff hcov hapart zeros (by decide) (by decide) (by decide)
      (by decide) hdel
  exact hiff.mpr hclear

/-- **One byte at offset 100 of an empty file**: the gap shows what was in the first cluster. -/
theorem stale_gap : Covered stale_disk one_cluster_fat empty_inode []
    ∧ InodeApart one_cluster_fat empty_inode []
    ∧ Delivers stale_disk one_cluster_fat (grow_clusters 0 0 101)
    ∧ ¬ GapReadsZero stale_disk one_cluster_fat empty_inode zeros 1 100 := by
  have hcov : Covered stale_disk one_cluster_fat empty_inode [] :=
    { wf := one_cluster_wf, chain := .inl ⟨rfl, rfl⟩, length_nonneg := by decide,
      length_lt := by decide, covers := by decide, on_disk := by simp, inode_on_disk := by decide,
      root := by simp }
  have hapart : InodeApart one_cluster_fat empty_inode [] := one_cluster_apart rfl (by simp)
  have hcs : handout one_cluster_fat (grow_clusters 0 0 (100 + 1)) = .ok [4] := rfl
  have hsel : ∀ k ∈ [4], select_sector stale_disk (cluster_to_sector one_cluster_fat k) := by decide
  refine ⟨hcov, hapart, ⟨[4], hcs, rfl, hsel⟩, fun h => ?_⟩
  have hgrows : GrowOk 0 0 (100 + 1) [] := ⟨.inl rfl, fun h => absurd h (by decide)⟩
  have hclear : GapClear stale_disk one_cluster_fat empty_inode [] 1 100 :=
    (gap_clear_iff_grown hcov rfl (by decide) hgrows hcs rfl).mpr
      ((gapReadsZero_iff_grown hcov hapart rfl (by decide) (by decide) hcs rfl hsel hgrows).mp h)
  exact absurd (hclear.first rfl 4 rfl 0 (by decide)) (by decide)

end Pintos
