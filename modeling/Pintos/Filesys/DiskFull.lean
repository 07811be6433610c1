/-
A growing write on a full disk.

`inode_write_at` does not look at what `fat_create_chain` returns. On a full disk that is 0, and
the turn goes on with it: the length grows all the same, and the zeros go to "cluster 0", the
sector in front of the data area. That is the last sector of the table. If the file ends up
longer than its chain, the copy loop then finds no sector and the disk's assertion fails.

So the write fails cleanly only if that sector is the inode's own, and the chain had clusters to
spare (`full_disk_clean_iff`).
-/
import Pintos.Filesys.AllOrNothing
import Pintos.Filesys.ByteFile

set_option autoImplicit false

namespace Pintos

/-! ## What is written -/

section Written

variable {d d' : disk} {fs : fat_fs} {ino : inode}

theorem zero_clusters_written (cs : List ℕ) : ∀ d : disk,
    (zero_clusters d fs cs).written = (cs.map (cluster_to_sector fs)).reverse ++ d.written := by
  induction cs with
  | nil => intro d; rfl
  | cons c cs ih =>
      intro d
      rw [zero_clusters, ih, disk.put_written, List.map_cons, List.reverse_cons, List.append_assoc]
      rfl

/-- The copy loop writes sectors of the file. -/
theorem inode_write_at_loop_written (buffer : Bytes) (fuel : ℕ) :
    ∀ {size offset written : ℕ} {d d' : disk} {n : ℤ}, (offset : ℤ) + size ≤ inode_length ino →
      inode_write_at_loop fs ino buffer fuel d size offset written = .ok (n, d') →
        ∃ ws, d'.written = ws ++ d.written
          ∧ ∀ s ∈ ws, ∃ p : ℕ, p < offset + size ∧ byte_to_sector fs ino p = .ok s := by
  induction fuel with
  | zero =>
      intro size offset written d d' n hfit h
      cases h
  | succ fuel ih =>
      intro size offset written d d' n hfit h
      rcases Nat.eq_zero_or_pos size with rfl | hsize
      · rw [inode_write_at_loop, if_pos (by simp)] at h
        obtain ⟨-, rfl⟩ := Outcome.ok_pair h
        exact ⟨[], rfl, by simp⟩
      · obtain ⟨sec, hsec, hsel⟩ := inode_write_at_loop_sector hsize hfit h
        have hle := chunk_le size offset
        obtain ⟨bounce, -, hturn⟩ :=
          inode_write_at_loop_turn buffer fuel written hsize hfit hsec hsel
        rw [hturn] at h
        obtain ⟨ws, hws, hall⟩ := ih (by push_cast; omega) h
        refine ⟨ws ++ [sec], ?_, fun s hs => ?_⟩
        · rw [hws, disk.put_written, List.append_assoc]
          rfl
        · rcases List.mem_append.mp hs with hs | hs
          · obtain ⟨p, hp, hps⟩ := hall s hs
            exact ⟨p, by omega, hps⟩
          · obtain rfl := List.mem_singleton.mp hs
            exact ⟨offset, by omega, hsec⟩

/-- The same from the start of the loop. -/
theorem inode_write_at_loop_sectors {buffer : Bytes} {fuel size offset : ℕ} {n : ℤ}
    (hfit : (offset : ℤ) + size ≤ inode_length ino)
    (h : inode_write_at_loop fs ino buffer fuel d size offset 0 = .ok (n, d')) :
    ∃ ws, d'.written = ws ++ d.written
      ∧ ∀ s ∈ ws, ∃ p : ℕ, p < offset + size ∧ byte_to_sector fs ino p = .ok s := by
  rw [← Nat.cast_zero] at h
  exact inode_write_at_loop_written buffer fuel hfit h

end Written

/-! ## The statement -/

/-- The free clusters run out: no run of `n` searches delivers `n` of them. -/
def RunsOut (fs : fat_fs) (n : ℕ) : Prop := ∀ cs, handout fs n = .ok cs → cs.length < n

/-- In particular when fewer than `n` clusters are free. -/
theorem runsOut_of_few_free {fs : fat_fs} {n : ℕ} (hwf : fs.Wf) (h : (free_set fs).card < n) :
    RunsOut fs n := by
  intro cs hcs
  obtain ⟨-, hnd, hfree⟩ := handout_spec n hwf hcs
  have hsub : cs.toFinset ⊆ free_set fs := fun c hc =>
    mem_free_set.mpr (hfree c (List.mem_toFinset.mp hc))
  have hcard := Finset.card_le_card hsub
  rw [List.toFinset_card_of_nodup hnd] at hcard
  omega

/-- What is asked of the write: it returns, it has written to no sector but those of the file's
chain and of its inode, the chain covers the length, and what it says it has written can be
read back. -/
def FailsCleanly (d : disk) (fs : fat_fs) (ino : inode) (buffer : Bytes) (size offset : ℕ) : Prop :=
  ∃ (n : ℕ) (d' : disk) (fs' : fat_fs) (ino' : inode) (l' ws : List ℕ),
    inode_write_at d fs ino buffer size offset = .ok ((n : ℤ), d', fs', ino')
    ∧ DataChain fs' ino'.data.start l'
    ∧ d'.written = ws ++ d.written
    ∧ (∀ s ∈ ws, s = ino'.sector ∨ ∃ k ∈ l', s = cluster_to_sector fs' k)
    ∧ ino'.data.length ≤ 512 * l'.length
    ∧ ∀ b, ∃ b', inode_read_at d' fs' ino' b n offset = .ok ((n : ℤ), b') ∧ ∀ k < n, b' k = buffer k

/-- **The condition on the state before**: the searches stay inside the table and hand out `cs`; the
inode is in the sector that "cluster 0" stands for; what is zeroed is on the chain and on the disk;
and the chain, with what it gets, is long enough all the same. -/
structure StaysInside (d : disk) (fs : fat_fs) (ino : inode) (l cs : List ℕ) (extend_size : ℕ) :
    Prop where
  handed : handout fs (grow_clusters ino.data.start (content_length ino) extend_size) = .ok cs
  own_sector : ino.sector = cluster_to_sector fs 0
  linked : ∀ c ∈ cs, c ∈ grown ino.data.start l cs
  on_disk : ∀ c ∈ cs, select_sector d (cluster_to_sector fs c)
  covers : extend_size ≤ 512 * (grown ino.data.start l cs).length

section Full

variable {d : disk} {fs : fat_fs} {ino : inode} {l cs : List ℕ} {buffer : Bytes}
  {size offset : ℕ}

/-- The first cluster of an empty file is not one too many: with clusters missing, the chain of
such a file is too short. -/
theorem grown_empty_short (h0 : ino.data.start = 0) (hl : DataChain fs ino.data.start l)
    {extend_size : ℕ} (hpast : content_length ino < extend_size)
    (hshort : cs.length < grow_clusters ino.data.start (content_length ino) extend_size) :
    512 * (grown ino.data.start l cs).length < extend_size := by
  obtain rfl : l = [] := DataChain.eq_nil_of_start (h0 ▸ hl)
  rw [grow_clusters, if_pos h0] at hshort
  rw [grown, dif_neg, List.nil_append]
  · omega
  · rw [h0]
    exact fun h => absurd h.1 (by decide)

/-- A write past the end that returns has extended the file. -/
theorem inode_write_at_extends {r : ℤ × disk × fat_fs × inode} (hallowed : ino.deny_write_cnt = 0)
    (hend : offset + size < 2 ^ 31) (hpast : ino.data.length < (offset : ℤ) + size)
    (h : inode_write_at d fs ino buffer size offset = .ok r) :
    ∃ res, inode_extend d fs ino ((offset + size : ℕ) : ℤ) = .ok res := by
  have h32 : i32 ((offset : ℤ) + size) = ((offset + size : ℕ) : ℤ) := by
    rw [i32_of_isI32 (by unfold IsI32; omega), Nat.cast_add]
  have hgrow : ((offset + size : ℕ) : ℤ) > inode_length ino := by
    unfold inode_length
    omega
  rw [inode_write_at, if_neg (not_not.mpr hallowed)] at h
  simp only [h32, if_pos hgrow] at h
  obtain ⟨res, hres, -⟩ := Outcome.bind_eq_ok.mp h
  exact ⟨res, hres⟩

/-- A sector of a cluster is not that of "cluster 0". -/
theorem cluster_zero_ne (hg : fs.Geometry) {c : ℕ} (h1 : 1 ≤ c) (hlt : c < fs.fat_length) :
    cluster_to_sector fs c ≠ cluster_to_sector fs 0 := by
  intro heq
  have := cluster_to_sector_inj hg (Nat.le_of_lt hlt) (Nat.zero_le _) heq
  omega

/-- **Nothing but the condition will do.** -/
theorem staysInside_of_clean (hcov : Covered d fs ino l) (hallowed : ino.deny_write_cnt = 0)
    (hend : offset + size < 2 ^ 31) (hpast : content_length ino < offset + size)
    (hout : RunsOut fs (grow_clusters ino.data.start (content_length ino) (offset + size)))
    (h : FailsCleanly d fs ino buffer size offset) :
    ∃ cs, StaysInside d fs ino l cs (offset + size) := by
  have hlen : ino.data.length = (content_length ino : ℤ) :=
    (Int.toNat_of_nonneg hcov.length_nonneg).symm
  obtain ⟨n, d', fs', ino', l', ws, hrun, hch', hws, hinside, hcovers, -⟩ := h
  obtain ⟨res, hext⟩ := inode_write_at_extends hallowed hend (by omega) hrun
  obtain ⟨cs, hcs, hsel, rfl⟩ := (inode_extend_eq_ok hcov.linked hlen res).mp hext
  obtain ⟨hch, hwf, hds⟩ := grown_table_spec hcov.wf hcov.chain hcov.root hcs
  have hshort := hout cs hcs
  obtain ⟨-, -, hfree⟩ := handout_spec _ hcov.wf hcs
  -- the run, piece by piece
  rw [inode_write_at_extend buffer hallowed hend (by omega) hext] at hrun
  obtain ⟨⟨m, d₂⟩, hloop, hrun⟩ := Outcome.bind_eq_ok.mp hrun
  obtain ⟨d₃, hflush, hrun⟩ := Outcome.bind_eq_ok.mp hrun
  obtain ⟨-, rfl⟩ := disk_write_eq_ok.mp hflush
  have heq := Outcome.ok.inj hrun
  simp only [Prod.mk.injEq] at heq
  obtain ⟨-, rfl, rfl, rfl⟩ := heq
  obtain rfl := hch'.unique hwf.toGeometry hch
  have hfit : offset + size ≤ 512 * (grown ino.data.start l cs).length := by
    simp only [inode.set_data_length] at hcovers
    omega
  have h0 : ino.data.start ≠ 0 := by
    intro h0
    have := grown_empty_short h0 hcov.chain hpast hshort
    omega
  rw [zeroed_clusters, if_neg h0] at hsel hloop
  -- every sector zeroed is among those written
  obtain ⟨ws₂, hws₂, -⟩ :=
    inode_write_at_loop_sectors (le_of_eq (Nat.cast_add offset size).symm) hloop
  have hzeroed : ∀ c ∈ turn_clusters cs
      (grow_clusters ino.data.start (content_length ino) (offset + size)),
      cluster_to_sector fs c ∈ ws := by
    intro c hc
    have hsplit : ws = ino.sector :: ws₂ ++ ((turn_clusters cs
        (grow_clusters ino.data.start (content_length ino) (offset + size))).map
          (cluster_to_sector fs)).reverse := by
      have hall : ws ++ d.written = (ino.sector :: ws₂ ++ ((turn_clusters cs
          (grow_clusters ino.data.start (content_length ino) (offset + size))).map
            (cluster_to_sector fs)).reverse) ++ d.written := by
        rw [← hws, disk.put_written, hws₂, zero_clusters_written, List.append_assoc]
        rfl
      exact List.append_cancel_right hall
    rw [hsplit]
    apply List.mem_append_right
    rw [List.mem_reverse]
    exact List.mem_map_of_mem hc
  -- a sector written that is not the inode's own is on the chain
  have hon : ∀ c, c < fs.fat_length → cluster_to_sector fs c ∈ ws →
      cluster_to_sector fs c = ino.sector ∨ c ∈ grown ino.data.start l cs := by
    intro c hlt hc
    rcases hinside _ hc with hown | ⟨k, hk, hsec⟩
    · exact .inl hown
    · right
      rw [cluster_to_sector_congr hds] at hsec
      have hklt : k < fs.fat_length := by
        rcases mem_grown hcov.chain hk with hk | hk
        · exact (hcov.chain.range k hk).2
        · exact (hfree k hk).2.1
      rwa [cluster_to_sector_inj hcov.wf.toGeometry (Nat.le_of_lt hlt) (Nat.le_of_lt hklt) hsec]
  have hpos : 0 < fs.fat_length := lt_trans Nat.zero_lt_two hcov.wf.two_lt
  have hmissing : 0 ∈ turn_clusters cs
      (grow_clusters ino.data.start (content_length ino) (offset + size)) :=
    List.mem_append_right _ (List.mem_replicate.mpr ⟨by omega, rfl⟩)
  have hown : ino.sector = cluster_to_sector fs 0 := by
    rcases hon 0 hpos (hzeroed 0 hmissing) with hown | hmem
    · exact hown.symm
    · exact absurd (hch.range 0 hmem).1 (by decide)
  refine ⟨cs, hcs, hown, fun c hc => ?_, fun c hc => hsel c (List.mem_append_left _ hc), hfit⟩
  obtain ⟨h2, hlt, -⟩ := hfree c hc
  rcases hon c hlt (hzeroed c (List.mem_append_left _ hc)) with heq | hmem
  · exact absurd (heq.trans hown) (cluster_zero_ne hcov.wf.toGeometry (by omega) hlt)
  · exact hmem

/-- What the extension zeroes is on the chain, or is the inode's own sector. -/
theorem StaysInside.zeroed {extend_size n c : ℕ} (h : StaysInside d fs ino l cs extend_size)
    (hc : c ∈ zeroed_clusters ino.data.start (turn_clusters cs n)) :
    cluster_to_sector fs c = ino.sector ∨ c ∈ cs := by
  have hmem : c ∈ turn_clusters cs n := by
    unfold zeroed_clusters at hc
    split at hc
    · exact List.mem_of_mem_tail hc
    · exact hc
  rcases List.mem_append.mp hmem with hmem | hmem
  · exact .inr hmem
  · rw [(List.mem_replicate.mp hmem).2]
    exact .inl h.own_sector.symm

/-- **The condition is enough.** -/
theorem clean_of_staysInside (hcov : Covered d fs ino l) (hallowed : ino.deny_write_cnt = 0)
    (hend : offset + size < 2 ^ 31) (hpast : content_length ino < offset + size)
    (h : StaysInside d fs ino l cs (offset + size)) :
    FailsCleanly d fs ino buffer size offset := by
  have hlen : ino.data.length = (content_length ino : ℤ) :=
    (Int.toNat_of_nonneg hcov.length_nonneg).symm
  obtain ⟨hch, -, hds⟩ := grown_table_spec hcov.wf hcov.chain hcov.root h.handed
  -- the extension returns
  have hsel : ∀ c ∈ zeroed_clusters ino.data.start (turn_clusters cs
      (grow_clusters ino.data.start (content_length ino) (offset + size))),
      select_sector d (cluster_to_sector fs c) := by
    intro c hc
    rcases h.zeroed hc with hown | hmem
    · rw [hown]
      exact hcov.inode_on_disk
    · exact h.on_disk c hmem
  have hext := (inode_extend_eq_ok hcov.linked hlen _).mpr ⟨cs, h.handed, hsel, rfl⟩
  have hcap := zero_clusters_capacity fs (zeroed_clusters ino.data.start (turn_clusters cs
    (grow_clusters ino.data.start (content_length ino) (offset + size)))) d
  have hcov' := hcov.extended h.handed hcap h.on_disk hend h.covers
  have hback := hcov'.backed (fun k hk => by
    have hkr := hch.range k hk
    have hne := cluster_zero_ne hcov'.wf.toGeometry hkr.1 hkr.2
    rw [cluster_to_sector_congr hds 0, ← h.own_sector] at hne
    exact hne)
  -- and so does the copy loop
  have hlen' : content_length (ino.set_data (grown_start ino.data.start cs)
      ((offset + size : ℕ) : ℤ)) = offset + size := Int.toNat_natCast _
  obtain ⟨d₂, hrun, hloop, hw⟩ :=
    inode_write_at_extended buffer hallowed hend (by omega) hext hback hlen'
  obtain ⟨ws, hws, hsectors⟩ :=
    inode_write_at_loop_sectors (le_of_eq (Nat.cast_add offset size).symm) hloop
  have hwritten : (d₂.put ino.sector (ino.set_data (grown_start ino.data.start cs)
      ((offset + size : ℕ) : ℤ)).data.encode).written
      = (ino.sector :: ws ++ ((zeroed_clusters ino.data.start (turn_clusters cs
          (grow_clusters ino.data.start (content_length ino) (offset + size)))).map
            (cluster_to_sector fs)).reverse) ++ d.written := by
    rw [disk.put_written, hws, zero_clusters_written, List.append_assoc]
    rfl
  refine ⟨size, _, _, _, _, _, hrun, hch, hwritten, fun s hs => ?_, hcov'.covers,
    hback.read_back hw hlen'.symm.le _⟩
  rcases List.mem_append.mp hs with hs | hs
  · rcases List.mem_cons.mp hs with rfl | hs
    · exact .inl rfl
    · -- copied: a sector of the file
      obtain ⟨p, hp, hsec⟩ := hsectors s hs
      have hcovers := h.covers
      have hq : p / 512 < (grown ino.data.start l cs).length := by omega
      rw [byte_to_sector_eq hback.geometry hback.extent p
        (by rw [hback.length_eq, hlen']; omega) hq] at hsec
      refine .inr ⟨_, ?_, (Outcome.ok.inj hsec).symm⟩
      rw [List.getD_eq_getElem _ _ hq]
      exact List.getElem_mem hq
  · rw [List.mem_reverse] at hs
    obtain ⟨c, hc, rfl⟩ := List.mem_map.mp hs
    rcases h.zeroed hc with hown | hmem
    · exact .inl hown
    · exact .inr ⟨c, h.linked c hmem, (cluster_to_sector_congr hds c).symm⟩

/-- **A growing write on a full disk fails cleanly, exactly when it stays inside.** -/
theorem full_disk_clean_iff (hcov : Covered d fs ino l) (buffer : Bytes)
    (hallowed : ino.deny_write_cnt = 0) (hend : offset + size < 2 ^ 31)
    (hpast : ino.data.length < (offset : ℤ) + size)
    (hout : RunsOut fs (grow_clusters ino.data.start (content_length ino) (offset + size))) :
    FailsCleanly d fs ino buffer size offset
      ↔ ∃ cs, StaysInside d fs ino l cs (offset + size) := by
  have hnonneg := hcov.length_nonneg
  have hpast' : content_length ino < offset + size := by
    unfold content_length inode_length
    omega
  constructor
  · exact staysInside_of_clean hcov hallowed hend hpast' hout
  · rintro ⟨cs, h⟩
    exact clean_of_staysInside hcov hallowed hend hpast' h

end Full

/-! ### A table of one sector

Eight clusters, all of them in use. The sector of "cluster 0" is sector 1, the only one of the
table, and also the one that holds the inode of the root directory. -/

/-- The table; the root directory has clusters 1 and 5, and a file has cluster 2. -/
def used_up_fat : fat_fs where
  bs := one_cluster_fat.bs
  fat := fun k => if k = 1 then 5 else EOChain
  fat_length := 8
  data_start := 2
  last_clst := 3

def spare_root_inode : inode where
  sector := 1
  open_cnt := 1
  removed := false
  deny_write_cnt := 0
  data := { start := 1, length := 100, magic := INODE_MAGIC, isdir := true }

theorem used_up_wf : used_up_fat.Wf :=
  { two_lt := by decide, length_le := by decide, start_pos := by decide,
    no_wrap := by decide, last_ge := by decide, last_lt := by decide }

theorem used_up_runs_out (n : ℕ) (hn : 0 < n) : RunsOut used_up_fat n := by
  apply runsOut_of_few_free used_up_wf
  have hnone : (free_set used_up_fat).card = 0 := by decide
  rw [hnone]
  exact hn

/-- The root directory, with a cluster to spare and its inode in sector 1, grows to 600 bytes. -/
theorem spare_root_clean : FailsCleanly blank_disk used_up_fat spare_root_inode zeros 20 580 := by
  have hcov : Covered blank_disk used_up_fat spare_root_inode [1, 5] :=
    { wf := used_up_wf
      chain := .inr ⟨by decide, show Path used_up_fat.fat 1 [1, 5] EOChain by decide, by decide⟩
      length_nonneg := by decide, length_lt := by decide, covers := by decide
      on_disk := by decide, inode_on_disk := by decide, root := by decide }
  have hstays : StaysInside blank_disk used_up_fat spare_root_inode [1, 5] [] 600 :=
    { handed := rfl, own_sector := by decide, linked := by simp, on_disk := by simp
      covers := by decide }
  have hiff : FailsCleanly blank_disk used_up_fat spare_root_inode zeros 20 580
      ↔ ∃ cs, StaysInside blank_disk used_up_fat spare_root_inode [1, 5] cs 600 :=
    full_disk_clean_iff hcov zeros rfl (by decide) (by decide) (used_up_runs_out _ (by decide))
  exact hiff.mpr ⟨[], hstays⟩

/-- **One byte at offset 600 of a file of 100 bytes**: the zeros go to the table's sector, and the
kernel panics. -/
theorem full_disk_panics :
    Covered blank_disk used_up_fat (one_cluster_inode 100) [2]
    ∧ RunsOut used_up_fat (grow_clusters 2 100 601)
    ∧ inode_write_at blank_disk used_up_fat (one_cluster_inode 100) zeros 1 600 = .panic
    ∧ ¬ FailsCleanly blank_disk used_up_fat (one_cluster_inode 100) zeros 1 600 := by
  have hpanic :
      inode_write_at blank_disk used_up_fat (one_cluster_inode 100) zeros 1 600 = .panic := rfl
  refine ⟨?_, used_up_runs_out _ (by decide), hpanic, ?_⟩
  · exact
      { wf := used_up_wf
        chain := .inr ⟨by decide, show Path used_up_fat.fat 2 [2] EOChain by decide, by decide⟩
        length_nonneg := by decide, length_lt := by decide, covers := by decide
        on_disk := by decide, inode_on_disk := by decide, root := by decide }
  · rintro ⟨n, d', fs', ino', l', ws, hrun, -⟩
    have hrun' : inode_write_at blank_disk used_up_fat (one_cluster_inode 100) zeros 1 600
        = .ok ((n : ℤ), d', fs', ino') := hrun
    rw [hpanic] at hrun'
    cases hrun'

end Pintos
