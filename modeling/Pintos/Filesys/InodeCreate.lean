/-
`inode_create`: what it writes, and when that leaves other files alone.

The zero-filling loop of `inode_create` does not follow the chain that
`fat_allocate` has just built. It writes `cluster_to_sector (start) + i`, the
sectors that come after the first cluster's on the disk. Those are the new
file's own sectors only when the chain is a run of consecutive clusters.

So the isolation property (`CreateIsolates`: only the inode's sector and the new
chain's sectors are written, every other file keeps its inode and its bytes, and
the new file reads as zeros) is equivalent to a condition on the table *before*
the call (`ConsecutiveFree`): the cluster the search finds first is followed by
enough free ones. The equivalence is `inode_create_isolates_iff`. The condition
also excludes the hand-outs that are too short, which `fat_allocate` reports as
successes.
-/
import Pintos.Filesys.InodeAccess

set_option autoImplicit false

namespace Pintos

/-! ## The statement -/

/-- A file or directory that exists: where its inode is, and its data chain. -/
structure live_file where
  inode_sector : ℕ
  chain : List ℕ

/-- The sector of no free cluster. -/
def NotFreeSector (fs : fat_fs) (s : ℕ) : Prop :=
  ∀ c, 2 ≤ c → c < fs.fat_length → fs.fat c = 0 → cluster_to_sector fs c ≠ s

/-- `f` is a file of this disk and table, and has nothing to do with `sector`. -/
structure live_file.Apart (f : live_file) (d : disk) (fs : fat_fs) (sector : ℕ) : Prop where
  chain : DataChain fs (inode_disk.decode (d.sectors f.inode_sector)).start f.chain
  allocated : NotFreeSector fs f.inode_sector
  inode_ne : f.inode_sector ≠ sector
  data_ne : ∀ c ∈ f.chain, cluster_to_sector fs c ≠ sector

/-- The outcome `(d', fs')` of creating an inode at `sector` touches nothing but
the new file, and the new file is all zeros. -/
def CreateIsolates (d : disk) (fs : fat_fs) (sector : ℕ) (length : ℤ) (is_dir : Bool)
    (live : Set live_file) (d' : disk) (fs' : fat_fs) : Prop :=
  ∃ start chain,
    -- the new file: its inode, and its chain, of clusters that were free
    inode_disk.decode (d'.sectors sector)
        = { start, length, magic := INODE_MAGIC, isdir := is_dir }
      ∧ DataChain fs' start chain
      ∧ (∀ c ∈ chain, 2 ≤ c ∧ c < fs.fat_length ∧ fs.fat c = 0)
    -- the sectors written
      ∧ (∃ ws, d'.written = ws ++ d.written
          ∧ ∀ s ∈ ws, s = sector ∨ ∃ c ∈ chain, s = cluster_to_sector fs c)
    -- every byte reads as zero
      ∧ (∀ p : ℕ, (p : ℤ) < length → p / 512 < chain.length ∧ file_byte d' fs' chain p = 0)
    -- every other file keeps its inode, its chain and its bytes
      ∧ ∀ f ∈ live, d'.sectors f.inode_sector = d.sectors f.inode_sector
          ∧ DataChain fs' (inode_disk.decode (d'.sectors f.inode_sector)).start f.chain
          ∧ ∀ p, p / 512 < f.chain.length →
              file_byte d' fs' f.chain p = file_byte d fs f.chain p

/-- The `n` entries from the first free cluster on, in the order of the search,
are free and in the table. -/
def ConsecutiveFree (fs : fat_fs) (n : ℕ) : Prop :=
  n = 0 ∨ ∃ c, find_free_cluster fs = .ok c
    ∧ ∀ i < n, 2 ≤ c + i ∧ c + i < fs.fat_length ∧ fs.fat (c + i) = 0

/-! ## Consecutive clusters from consecutive searches -/

theorem handout_head {fs : fat_fs} {n c : ℕ} {rest : List ℕ}
    (h : handout fs n = .ok (c :: rest)) : find_free_cluster fs = .ok c := by
  cases n with
  | zero => cases h
  | succ n =>
      rw [handout, Outcome.bind_eq_ok] at h
      obtain ⟨k, hk, h⟩ := h
      by_cases h0 : k = 0
      · rw [if_pos h0] at h
        cases h
      · rw [if_neg h0, Outcome.bind_eq_ok] at h
        obtain ⟨cs, -, hcs⟩ := h
        obtain ⟨rfl, -⟩ := List.cons.inj (Outcome.ok.inj hcs)
        exact hk

/-- Searches that start before a run of free clusters hand out the run. -/
theorem handout_consecutive (n : ℕ) : ∀ {fs : fat_fs} {c : ℕ}, fs.Wf →
    find_free_cluster fs = .ok c →
    (∀ i < n, 2 ≤ c + i ∧ c + i < fs.fat_length ∧ fs.fat (c + i) = 0) →
      handout fs n = .ok (List.range' c n) := by
  induction n with
  | zero => intro fs c _ _ _; rfl
  | succ n ih =>
      intro fs c hwf hc hfree
      have hc2 := (hfree 0 (by omega)).1
      have hclt := (hfree 0 (by omega)).2.1
      rw [Nat.add_zero] at hc2 hclt
      rw [handout, hc]
      simp only [Outcome.ok_bind, show ¬ c = 0 by omega, if_false]
      -- the next search starts right behind `c`, where the run goes on
      have hrest : handout (claim_cluster fs c) n = .ok (List.range' (c + 1) n) := by
        cases n with
        | zero => rfl
        | succ n =>
            have hnext := hfree 1 (by omega)
            refine ih (claim_cluster_wf hwf hc2 hclt) (find_free_cluster_next hnext.2.1 ?_) ?_
            · exact (claim_cluster_fat_of_ne (by simp)).trans hnext.2.2
            · intro i hi
              have hi' := hfree (i + 1) (by omega)
              rw [show c + (i + 1) = c + 1 + i by omega] at hi'
              exact ⟨hi'.1, hi'.2.1, (claim_cluster_fat_of_ne (by omega)).trans hi'.2.2⟩
      rw [hrest]
      rfl

/-! ## The zero-filling loop -/

/-- The loop writes zeros to `n` sectors in a row, if all of them are on the
disk. -/
theorem inode_create_loop_ok (first n : ℕ) : ∀ {d d' : disk} {i : ℕ},
    inode_create_loop first d i n = .ok d' →
      (∀ j < n, select_sector d ((first + (i + j)) % 2 ^ 32))
        ∧ (∀ j < n, d'.sectors ((first + (i + j)) % 2 ^ 32) = zeros)
        ∧ (∀ s, (∀ j < n, s ≠ (first + (i + j)) % 2 ^ 32) → d'.sectors s = d.sectors s)
        ∧ d'.written
            = ((List.range' i n).map fun j => (first + j) % 2 ^ 32).reverse ++ d.written := by
  induction n with
  | zero =>
      intro d d' i h
      obtain rfl : d = d' := Outcome.ok.inj h
      simp
  | succ n ih =>
      intro d d' i h
      rw [inode_create_loop, Outcome.bind_eq_ok] at h
      obtain ⟨d₁, h₁, h⟩ := h
      obtain ⟨hsel, rfl⟩ := disk_write_eq_ok.mp h₁
      obtain ⟨hs, hz, hf, hw⟩ := ih h
      have hshift : ∀ j, first + (i + (j + 1)) = first + (i + 1 + j) := fun j => by omega
      refine ⟨?_, ?_, ?_, ?_⟩
      · intro j hj
        cases j with
        | zero => exact hsel
        | succ j =>
            rw [hshift]
            exact hs j (by omega)
      · intro j hj
        cases j with
        | zero =>
            -- written in this turn; a later turn could only zero it again
            by_cases hagain : ∃ k < n, (first + (i + 0)) % 2 ^ 32 = (first + (i + 1 + k)) % 2 ^ 32
            · obtain ⟨k, hk, heq⟩ := hagain
              rw [heq]
              exact hz k hk
            · rw [hf _ fun k hk heq => hagain ⟨k, hk, heq⟩]
              exact disk.put_sectors_self _ _ _
        | succ j =>
            rw [hshift]
            exact hz j (by omega)
      · intro s hne
        have hlater : ∀ j < n, s ≠ (first + (i + 1 + j)) % 2 ^ 32 := by
          intro j hj
          have := hne (j + 1) (by omega)
          rwa [hshift] at this
        rw [hf s hlater]
        exact disk.put_sectors_of_ne (hne 0 (by omega))
      · rw [hw]
        simp [List.range'_succ]

/-- All the sectors of a run that lies on the disk are below `2 ^ 28`, so the
run does not wrap. -/
theorem run_no_wrap {d : disk} {first n : ℕ} (hfirst : first < 2 ^ 32)
    (h : ∀ j < n, select_sector d ((first + (0 + j)) % 2 ^ 32)) :
    ∀ j < n, first + j < 2 ^ 28 := by
  intro j
  induction j with
  | zero =>
      intro hj
      have h0 := (h 0 hj).2
      omega
  | succ j ih =>
      intro hj
      have hprev := ih (by omega)
      have hnext := (h (j + 1) hj).2
      omega

/-- A zeroed sector holds no inode. -/
theorem decode_zeros_magic : (inode_disk.decode zeros).magic = 0 := rfl

/-! ## What a successful call has done -/

/-- The parts of a successful `inode_create`: the allocation, the inode's sector,
the zero-filled run. -/
theorem inode_create_eq_ok {d d' : disk} {fs fs' : fat_fs} {sector : ℕ} {length : ℤ}
    {is_dir : Bool} :
    inode_create d fs sector length is_dir = .ok (true, d', fs') ↔
      0 ≤ length ∧ ∃ start, fat_allocate fs (bytes_to_sectors length) 0 = .ok (true, start, fs')
        ∧ select_sector d sector
        ∧ inode_create_loop (cluster_to_sector fs' start)
            (d.put sector (inode_disk.encode
              { start, length, magic := INODE_MAGIC, isdir := is_dir })) 0
            (bytes_to_sectors length) = .ok d' := by
  constructor
  · intro h
    rw [inode_create, Outcome.bind_eq_ok] at h
    obtain ⟨⟨⟩, hlen, h⟩ := h
    rw [Outcome.bind_eq_ok] at h
    obtain ⟨⟨allocated, start, fs₁⟩, halloc, h⟩ := h
    cases allocated with
    | false => cases h
    | true =>
        simp only [if_true, Outcome.bind_eq_ok] at h
        obtain ⟨d₁, hput, d₂, hloop, hres⟩ := h
        obtain ⟨hsel, rfl⟩ := disk_write_eq_ok.mp hput
        have hres' := Outcome.ok.inj hres
        simp only [Prod.mk.injEq, true_and] at hres'
        obtain ⟨rfl, rfl⟩ := hres'
        exact ⟨Outcome.assert_eq_ok.mp hlen, start, halloc, hsel, hloop⟩
  · rintro ⟨hlen, start, halloc, hsel, hloop⟩
    rw [inode_create, Outcome.assert_pos hlen]
    simp [halloc, disk_write_ok hsel, hloop]

/-- What a successful `fat_allocate` of a positive count returns. -/
theorem fat_allocate_ok {fs fs' : fat_fs} (hwf : fs.Wf) {n start : ℕ} (hn : 0 < n)
    (h : fat_allocate fs n 0 = .ok (true, start, fs')) :
    ∃ c rest, handout fs n = .ok (c :: rest)
      ∧ ((n ≤ rest.length + 2 ∧ start = c ∧ fs' = link_clusters (claim_cluster fs c) c rest) ∨
         (¬ n ≤ rest.length + 2 ∧ start = 0
          ∧ fs' = free_clusters (link_clusters (claim_cluster fs c) c rest) (c :: rest))) := by
  rw [fat_allocate_spec hwf hn, Outcome.bind_eq_ok] at h
  obtain ⟨cs, hcs, h⟩ := h
  cases cs with
  | nil =>
      simp only at h
      by_cases h1 : n = 1
      · rw [if_pos h1] at h
        cases h
      · rw [if_neg h1, Outcome.bind_eq_ok] at h
        obtain ⟨fs₁, -, h⟩ := h
        cases h
  | cons c rest =>
      refine ⟨c, rest, hcs, ?_⟩
      simp only at h
      by_cases hfit : n ≤ rest.length + 2
      · rw [if_pos hfit] at h
        have h' := Outcome.ok.inj h
        simp only [Prod.mk.injEq, true_and] at h'
        exact .inl ⟨hfit, h'.1.symm, h'.2.symm⟩
      · rw [if_neg hfit] at h
        have h' := Outcome.ok.inj h
        simp only [Prod.mk.injEq, true_and] at h'
        exact .inr ⟨hfit, h'.1.symm, h'.2.symm⟩

/-! ## Isolation -/

/-- No byte of a file lies behind the last sector that is counted for it, also
where the count overflows. -/
theorem byte_lt_sectors {length : ℤ} (h0 : 0 ≤ length) (hlen : IsI32 length) {p : ℕ}
    (hp : (p : ℤ) < length) : p / 512 < bytes_to_sectors length := by
  obtain ⟨m, rfl⟩ := Int.eq_ofNat_of_zero_le h0
  unfold IsI32 at hlen
  by_cases hov : m + 511 < 2 ^ 31
  · rw [bytes_to_sectors_eq hov]
    omega
  · have := bytes_to_sectors_overflow (n := m) (by omega) (by omega)
    omega

/-- What a successful call has written: `sector`, then the run of zeros. The
run does not pass `sector` when an inode can be read from there afterwards. -/
theorem inode_create_written {d d' : disk} {sector first n : ℕ} {b : Bytes}
    (hfirst : first < 2 ^ 32) (h : inode_create_loop first (d.put sector b) 0 n = .ok d') :
    (∀ j < n, first + j < 2 ^ 28)
      ∧ (∀ j < n, d'.sectors (first + j) = zeros)
      ∧ (∀ s, s ≠ sector → (∀ j < n, s ≠ first + j) → d'.sectors s = d.sectors s)
      ∧ ((∀ j < n, sector ≠ first + j) → d'.sectors sector = b)
      ∧ ∃ ws, d'.written = ws ++ d.written
          ∧ ∀ s, s ∈ ws ↔ s = sector ∨ ∃ j < n, s = first + j := by
  obtain ⟨hsel, hz, hf, hw⟩ := inode_create_loop_ok first n h
  have hlt := run_no_wrap hfirst hsel
  have hmod : ∀ j < n, (first + (0 + j)) % 2 ^ 32 = first + j := by
    intro j hj
    have := hlt j hj
    omega
  refine ⟨hlt, ?_, ?_, ?_, ?_⟩
  · intro j hj
    rw [← hmod j hj]
    exact hz j hj
  · intro s hs hne
    rw [hf s fun j hj => by rw [hmod j hj]; exact hne j hj]
    exact disk.put_sectors_of_ne hs
  · intro hne
    rw [hf sector fun j hj => by rw [hmod j hj]; exact hne j hj]
    exact disk.put_sectors_self _ _ _
  · refine ⟨((List.range' 0 n).map fun j => (first + j) % 2 ^ 32).reverse ++ [sector], ?_, ?_⟩
    · rw [hw]
      simp
    · intro s
      simp only [List.mem_append, List.mem_reverse, List.mem_map, List.mem_singleton,
        List.mem_range'_1]
      constructor
      · rintro (⟨j, hj, rfl⟩ | rfl)
        · have := hmod j (by omega)
          rw [Nat.zero_add] at this
          exact .inr ⟨j, by omega, this⟩
        · exact .inl rfl
      · rintro (rfl | ⟨j, hj, rfl⟩)
        · exact .inr rfl
        · have := hmod j hj
          rw [Nat.zero_add] at this
          exact .inl ⟨j, by omega, this⟩

/-- The inode that a successful call leaves at `sector`, provided there is one. -/
theorem inode_create_start {d d' : disk} {sector first n start start' : ℕ} {length length' : ℤ}
    {is_dir is_dir' : Bool} (hfirst : first < 2 ^ 32) (hstart : start < 2 ^ 32)
    (hlen : IsI32 length)
    (h : inode_create_loop first (d.put sector (inode_disk.encode
        { start, length, magic := INODE_MAGIC, isdir := is_dir })) 0 n = .ok d')
    (hino : inode_disk.decode (d'.sectors sector)
        = { start := start', length := length', magic := INODE_MAGIC, isdir := is_dir' }) :
    start' = start ∧ ∀ j < n, sector ≠ first + j := by
  obtain ⟨-, hz, -, hkeep, -⟩ := inode_create_written hfirst h
  have hout : ∀ j < n, sector ≠ first + j := by
    intro j hj hs
    have hmagic := congrArg inode_disk.magic hino
    rw [hs, hz j hj, decode_zeros_magic] at hmagic
    exact absurd hmagic (show (0 : ℕ) ≠ INODE_MAGIC by decide)
  refine ⟨?_, hout⟩
  rw [hkeep hout, inode_disk.decode_encode ⟨hstart, hlen, by simp [INODE_MAGIC]⟩] at hino
  exact (congrArg inode_disk.start hino).symm

/-- A call that isolates has found its clusters in a row: the run of zeros has
to stay on the chain, and the chain consists of clusters that were free. -/
theorem consecutiveFree_of_isolates {d d' : disk} {fs fs' : fat_fs} {sector : ℕ} {length : ℤ}
    {is_dir : Bool} {live : Set live_file} (hwf : fs.Wf) (hlen : IsI32 length)
    (h : inode_create d fs sector length is_dir = .ok (true, d', fs'))
    (hiso : CreateIsolates d fs sector length is_dir live d' fs') :
    ConsecutiveFree fs (bytes_to_sectors length) := by
  obtain ⟨-, start, halloc, -, hloop⟩ := inode_create_eq_ok.mp h
  obtain ⟨start', chain, hino, hchain, hfree, ⟨ws, hws, hin⟩, -, -⟩ := hiso
  rcases Nat.eq_zero_or_pos (bytes_to_sectors length) with hn | hn
  · exact .inl hn
  have hfirst := cluster_to_sector_lt fs' start
  obtain ⟨hrun, -, -, -, ws', hws', hmem⟩ := inode_create_written hfirst hloop
  obtain rfl : ws = ws' := List.append_cancel_right (hws.symm.trans hws')
  obtain ⟨c, rest, hcs, ⟨-, hsc, hfs⟩ | ⟨-, hsc, hfs⟩⟩ := fat_allocate_ok hwf hn halloc
  · -- the chain was linked: each sector of the run is the sector of a member
    obtain ⟨hch, -, -, hlen', hds⟩ := link_handout hwf hcs
    obtain ⟨-, -, hcsmem⟩ := handout_spec _ hwf hcs
    obtain ⟨hc2, hclt, -⟩ := hcsmem c List.mem_cons_self
    have hle := hwf.length_le
    have hwrap := hwf.no_wrap
    obtain ⟨hst, hout⟩ := inode_create_start hfirst (by unfold EOChain at hle; omega)
      hlen hloop hino
    refine .inr ⟨c, handout_head hcs, fun i hi => ?_⟩
    have hsec : cluster_to_sector fs' start = fs.data_start + c - 1 := by
      rw [hfs, cluster_to_sector_congr hds, hsc, cluster_to_sector_eq hwf.toGeometry] <;> omega
    obtain hs | ⟨c', hc', hs⟩ := hin _ ((hmem _).mpr (.inr ⟨i, hi, rfl⟩))
    · exact absurd hs.symm (hout i hi)
    · obtain ⟨hc'2, hc'lt, hc'0⟩ := hfree c' hc'
      rw [hsec, cluster_to_sector_eq hwf.toGeometry (by omega) (by omega)] at hs
      obtain rfl : c' = c + i := by omega
      exact ⟨hc'2, hc'lt, hc'0⟩
  · -- the chain was given back: the file is empty, and the run is not
    obtain ⟨hst, hout⟩ := inode_create_start hfirst (by omega) hlen hloop hino
    have hnil : chain = [] := by
      by_contra hne
      have := (hchain.start_lt hne).1
      omega
    obtain hs | ⟨c', hc', -⟩ := hin _ ((hmem _).mpr (.inr ⟨0, hn, rfl⟩))
    · exact absurd hs.symm (hout 0 hn)
    · rw [hnil] at hc'
      cases hc'

/-- Files apart from `sector` survive a call that writes only `sector` and the
sectors of free clusters, and that changes only entries of free clusters. -/
theorem live_file.Apart.survives {f : live_file} {d d' : disk} {fs fs' : fat_fs} {sector : ℕ}
    {cs : List ℕ} (hap : f.Apart d fs sector) (hg : fs.Geometry)
    (hcs : ∀ c ∈ cs, 2 ≤ c ∧ c < fs.fat_length ∧ fs.fat c = 0)
    (hd : ∀ s, s ≠ sector → (∀ c ∈ cs, s ≠ cluster_to_sector fs c) → d'.sectors s = d.sectors s)
    (hfat : ∀ k ∉ cs, fs'.fat k = fs.fat k) (hlen : fs'.fat_length = fs.fat_length)
    (hds : fs'.data_start = fs.data_start) :
    d'.sectors f.inode_sector = d.sectors f.inode_sector
      ∧ DataChain fs' (inode_disk.decode (d'.sectors f.inode_sector)).start f.chain
      ∧ ∀ p, p / 512 < f.chain.length →
          file_byte d' fs' f.chain p = file_byte d fs f.chain p := by
  have hino : d'.sectors f.inode_sector = d.sectors f.inode_sector := by
    refine hd _ hap.inode_ne fun c hc => ?_
    obtain ⟨h2, hlt, h0⟩ := hcs c hc
    exact fun h => hap.allocated c h2 hlt h0 h.symm
  have hoff : ∀ k ∈ f.chain, k ∉ cs := fun k hk hkc =>
    hap.chain.entry_ne_zero k hk (hcs k hkc).2.2
  refine ⟨hino, ?_, ?_⟩
  · rw [hino]
    exact hap.chain.congr hlen fun k hk => hfat k (hoff k hk)
  · intro p hp
    unfold file_byte
    rw [cluster_to_sector_congr hds, List.getD_eq_getElem _ _ hp]
    have hk := List.getElem_mem hp
    rw [hd _ (hap.data_ne _ hk) fun c hc heq => ?_]
    have hkr := hap.chain.range _ hk
    have hceq := cluster_to_sector_inj hg (by omega) (by have := hcs c hc; omega) heq
    exact hoff _ hk (hceq ▸ hc)

/-- The outcome isolates when the run of zeros is the chain `cs`, member by
member. -/
theorem isolates_of_run {d d' : disk} {fs fs' : fat_fs} {sector start : ℕ} {length : ℤ}
    {is_dir : Bool} {live : Set live_file} (cs : List ℕ) (hg : fs.Geometry) (h0 : 0 ≤ length)
    (hlen : IsI32 length) (hsector : NotFreeSector fs sector)
    (hlive : ∀ f ∈ live, f.Apart d fs sector) (hstart : start < 2 ^ 32)
    (hloop : inode_create_loop (cluster_to_sector fs' start)
      (d.put sector (inode_disk.encode { start, length, magic := INODE_MAGIC, isdir := is_dir })) 0
      (bytes_to_sectors length) = .ok d')
    (hcs : ∀ c ∈ cs, 2 ≤ c ∧ c < fs.fat_length ∧ fs.fat c = 0)
    (hcslen : cs.length = bytes_to_sectors length)
    (hrow : ∀ j (hj : j < cs.length),
      cluster_to_sector fs' start + j = cluster_to_sector fs (cs[j]))
    (hchain : DataChain fs' start cs) (hfat : ∀ k ∉ cs, fs'.fat k = fs.fat k)
    (hfl : fs'.fat_length = fs.fat_length) (hds : fs'.data_start = fs.data_start) :
    CreateIsolates d fs sector length is_dir live d' fs' := by
  obtain ⟨-, hz, hf, hkeep, ws, hws, hmem⟩ :=
    inode_create_written (cluster_to_sector_lt fs' start) hloop
  rw [← hcslen] at hz hf hkeep hmem
  -- the run and the chain have the same sectors
  have hsec : ∀ c ∈ cs, ∃ j < cs.length,
      cluster_to_sector fs c = cluster_to_sector fs' start + j := by
    intro c hc
    obtain ⟨j, hj, rfl⟩ := List.mem_iff_getElem.mp hc
    exact ⟨j, hj, (hrow j hj).symm⟩
  have hout : ∀ j < cs.length, sector ≠ cluster_to_sector fs' start + j := by
    intro j hj hs
    obtain ⟨h2, hlt, hfree⟩ := hcs _ (List.getElem_mem hj)
    exact hsector _ h2 hlt hfree ((hrow j hj).symm.trans hs.symm)
  refine ⟨start, cs, ?_, hchain, hcs, ⟨ws, hws, ?_⟩, ?_, ?_⟩
  · rw [hkeep hout, inode_disk.decode_encode ⟨hstart, hlen, by simp [INODE_MAGIC]⟩]
  · intro s hs
    rcases (hmem s).mp hs with rfl | ⟨j, hj, rfl⟩
    · exact .inl rfl
    · exact .inr ⟨_, List.getElem_mem hj, hrow j hj⟩
  · intro p hp
    have hlt : p / 512 < cs.length := hcslen ▸ byte_lt_sectors h0 hlen hp
    refine ⟨hlt, ?_⟩
    unfold file_byte
    rw [cluster_to_sector_congr hds, List.getD_eq_getElem _ _ hlt, ← hrow _ hlt, hz _ hlt]
    rfl
  · intro f hfl'
    refine (hlive f hfl').survives hg hcs (fun s hs hne => hf s hs fun j hj => ?_) hfat hfl hds
    rw [hrow j hj]
    exact hne _ (List.getElem_mem hj)

/-- A call that finds its clusters in a row isolates. -/
theorem isolates_of_consecutiveFree {d d' : disk} {fs fs' : fat_fs} {sector : ℕ} {length : ℤ}
    {is_dir : Bool} {live : Set live_file} (hwf : fs.Wf) (hlen : IsI32 length)
    (hsector : NotFreeSector fs sector) (hlive : ∀ f ∈ live, f.Apart d fs sector)
    (h : inode_create d fs sector length is_dir = .ok (true, d', fs'))
    (hrow : ConsecutiveFree fs (bytes_to_sectors length)) :
    CreateIsolates d fs sector length is_dir live d' fs' := by
  obtain ⟨h0, start, halloc, -, hloop⟩ := inode_create_eq_ok.mp h
  rcases Nat.eq_zero_or_pos (bytes_to_sectors length) with hn | hn
  · -- an empty file: nothing is allocated, and the chain is empty
    rw [hn, fat_allocate, if_pos rfl] at halloc
    obtain ⟨rfl, rfl⟩ : 0 = start ∧ fs = fs' := by simpa using Outcome.ok.inj halloc
    exact isolates_of_run [] hwf.toGeometry h0 hlen hsector hlive (by omega) hloop (by simp)
      (by simp [hn]) (by simp) (.inl ⟨rfl, rfl⟩) (fun _ _ => rfl) rfl rfl
  · obtain ⟨c, hc, hrow⟩ := hrow.resolve_left (by omega)
    have hcs := handout_consecutive _ hwf hc hrow
    obtain ⟨c', rest, hcs', hcase⟩ := fat_allocate_ok hwf hn halloc
    have hlist : List.range' c (bytes_to_sectors length) = c' :: rest :=
      Outcome.ok.inj (hcs.symm.trans hcs')
    have hlength : rest.length + 1 = bytes_to_sectors length := by
      have := congrArg List.length hlist
      simpa using this.symm
    obtain rfl : c = c' := by
      have := congrArg List.head? hlist
      rw [List.head?_range', if_neg (by omega)] at this
      exact Option.some.inj this
    obtain ⟨hch, hfr, -, hfl, hds⟩ := link_handout hwf hcs'
    obtain ⟨-, -, hfree⟩ := handout_spec _ hwf hcs'
    obtain ⟨h2, hlt, -⟩ := hfree c List.mem_cons_self
    obtain ⟨-, hsc, hfs⟩ := hcase.resolve_right fun hr => hr.1 (by omega)
    have hle := hwf.length_le
    rw [hsc] at hloop
    refine isolates_of_run (c :: rest) hwf.toGeometry h0 hlen hsector hlive
      (by unfold EOChain at hle; omega) hloop hfree (by simpa using hlength) ?_
      (.inr ⟨by simp, hfs ▸ hch⟩) (hfs ▸ hfr) (hfs ▸ hfl) (hfs ▸ hds)
    intro j hj
    have hj' : j < bytes_to_sectors length := by simpa [← hlength] using hj
    have hget : (c :: rest)[j] = c + j := by
      simp only [← hlist, List.getElem_range', Nat.one_mul]
    have hrj := hrow j hj'
    rw [hget, cluster_to_sector_congr (hfs ▸ hds), cluster_to_sector_eq hwf.toGeometry,
      cluster_to_sector_eq hwf.toGeometry] <;> omega

/-- **Creation isolates files exactly when the free clusters it takes come in a
row.** For every well-formed table, however fragmented, every set of files that
lie apart from `sector`, and every call that reports success. -/
theorem inode_create_isolates_iff {d d' : disk} {fs fs' : fat_fs} {sector : ℕ} {length : ℤ}
    {is_dir : Bool} {live : Set live_file} (hwf : fs.Wf) (hlen : IsI32 length)
    (hsector : NotFreeSector fs sector) (hlive : ∀ f ∈ live, f.Apart d fs sector)
    (h : inode_create d fs sector length is_dir = .ok (true, d', fs')) :
    CreateIsolates d fs sector length is_dir live d' fs'
      ↔ ConsecutiveFree fs (bytes_to_sectors length) :=
  ⟨consecutiveFree_of_isolates hwf hlen h, isolates_of_consecutiveFree hwf hlen hsector hlive h⟩

/-! ### A fragmented table

Cluster 2 is the new inode's, clusters 3 and 5 are free, and cluster 4 between
them holds the data of another file, whose inode is in cluster 6. -/

def fragmented_fat : fat_fs where
  bs := { magic := FAT_MAGIC, sectors_per_cluster := 1, total_sectors := 16, fat_start := 1,
          fat_sectors := 1, root_dir_cluster := ROOT_DIR_CLUSTER }
  fat := fun k => if k = 3 ∨ k = 5 then 0 else EOChain
  fat_length := 8
  data_start := 2
  last_clst := 2

def fragmented_disk : disk where
  capacity := 16
  sectors := fun s =>
    if s = 7 then inode_disk.encode { start := 4, length := 10, magic := INODE_MAGIC, isdir := false }
    else fun _ => 7
  written := []

def fragmented_file : live_file where
  inode_sector := 7
  chain := [4]

theorem fragmented_fat_wf : fragmented_fat.Wf :=
  { two_lt := by decide, length_le := by decide, start_pos := by decide, no_wrap := by decide,
    last_ge := by decide, last_lt := by decide }

theorem fragmented_notFree {s : ℕ} (h : s = 3 ∨ s = 7) : NotFreeSector fragmented_fat s := by
  intro c h2 hlt hfree hs
  have hlt' : c < 8 := hlt
  rw [cluster_to_sector_eq fragmented_fat_wf.toGeometry (by omega) (Nat.le_of_lt hlt)] at hs
  have hs' : 2 + c - 1 = s := hs
  obtain rfl | rfl : c = 2 ∨ c = 6 := by omega
  · exact absurd hfree (by decide)
  · exact absurd hfree (by decide)

theorem fragmented_file_apart : fragmented_file.Apart fragmented_disk fragmented_fat 3 where
  chain := .inr ⟨by decide, by decide, by decide⟩
  allocated := fragmented_notFree (.inr rfl)
  inode_ne := by decide
  data_ne := by decide

/-- A file of one sector fits into the gap. -/
theorem inode_create_isolates_in_gap : ∃ d' fs',
    inode_create fragmented_disk fragmented_fat 3 512 false = .ok (true, d', fs')
      ∧ CreateIsolates fragmented_disk fragmented_fat 3 512 false {fragmented_file} d' fs' := by
  have hsize : bytes_to_sectors 512 = 1 := by decide
  have hcall : inode_create fragmented_disk fragmented_fat 3 512 false = .ok (true, _, _) :=
    inode_create_eq_ok.mpr ⟨by decide, 3, by rw [hsize]; rfl, by decide, by rw [hsize]; rfl⟩
  refine ⟨_, _, hcall, ?_⟩
  refine (inode_create_isolates_iff fragmented_fat_wf (by decide) (fragmented_notFree (.inl rfl))
    ?_ hcall).mpr (.inr ⟨3, rfl, ?_⟩)
  · rintro f rfl
    exact fragmented_file_apart
  · intro i hi
    obtain rfl : i = 0 := by omega
    decide

/-- A file of two sectors does not: its chain is 3, 5, but the zeros go to the
sectors of 3 and 4, and the other file has lost its bytes. -/
theorem inode_create_zeroes_other_file : ∃ d' fs',
    inode_create fragmented_disk fragmented_fat 3 1024 false = .ok (true, d', fs')
      ∧ fragmented_fat.Wf ∧ NotFreeSector fragmented_fat 3
      ∧ fragmented_file.Apart fragmented_disk fragmented_fat 3
      ∧ DataChain fs' (inode_disk.decode (d'.sectors 3)).start [3, 5]
      ∧ file_byte fragmented_disk fragmented_fat fragmented_file.chain 0 = 7
      ∧ file_byte d' fs' fragmented_file.chain 0 = 0
      ∧ ¬ CreateIsolates fragmented_disk fragmented_fat 3 1024 false {fragmented_file} d' fs' := by
  have hsize : bytes_to_sectors 1024 = 2 := by decide
  have hcall : inode_create fragmented_disk fragmented_fat 3 1024 false
      = .ok (true, _, link_clusters (claim_cluster fragmented_fat 3) 3 [5]) :=
    inode_create_eq_ok.mpr ⟨by decide, 3, by rw [hsize]; rfl, by decide, by rw [hsize]; rfl⟩
  refine ⟨_, _, hcall, fragmented_fat_wf, fragmented_notFree (.inl rfl), fragmented_file_apart,
    .inr ⟨by simp, by decide, by decide⟩, by decide, by decide, ?_⟩
  rintro ⟨-, -, -, -, -, -, -, hothers⟩
  have hbyte := (hothers fragmented_file rfl).2.2 0 (by decide)
  exact absurd hbyte (by decide)

end Pintos
