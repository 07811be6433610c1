/-
The root directory as it fills up.

Every other directory grows at the end of its chain. The root's chain starts at
`ROOT_DIR_CLUSTER`, where the walk of `fat_create_chain` stops at once, so a new
cluster always becomes the second one. That is right the first time. The second
time, at slot 52, the directory's length says three clusters and the chain has two:
the entry is written to the end of the new cluster and then past the end of the
chain, and the disk refuses the sector.
-/
import Pintos.Filesys.DirTable

set_option autoImplicit false

namespace Pintos

/-! ## What the searches deliver -/

/-- A table in which `c` is linked behind the root's cluster hands out what one in which it
is only claimed does; no search looks at cluster 1. -/
theorem handout_append_root {fs : fat_fs} (h : fs.Wf) {c : ℕ} (h2 : 2 ≤ c)
    (hlt : c < fs.fat_length) (n : ℕ) :
    handout (append_cluster fs ROOT_DIR_CLUSTER c) n = handout (claim_cluster fs c) n := by
  have hsame : ∀ n {fs₁ fs₂ : fat_fs}, fs₁.Wf → fs₂.Wf → fs₁.last_clst = fs₂.last_clst →
      fs₁.fat_length = fs₂.fat_length → (∀ k, 2 ≤ k → fs₁.fat k = fs₂.fat k) →
        handout fs₁ n = handout fs₂ n := by
    intro n
    induction n with
    | zero => intro fs₁ fs₂ _ _ _ _ _; rfl
    | succ n ih =>
        intro fs₁ fs₂ h₁ h₂ hlast hlen hfat
        have hfind : find_free_cluster fs₁ = find_free_cluster fs₂ := by
          have hl₁ := h₁.last_lt
          by_cases hin : fs₁.last_clst + 1 < fs₁.fat_length
          · have horder : search_order fs₁ = search_order fs₂ := by
              rw [search_order, search_order, hlast, hlen]
            rw [find_free_cluster_eq h₁ hin, find_free_cluster_eq h₂ (by omega), horder]
            rw [← List.head?_filter, ← List.head?_filter]
            congr 3
            apply List.filter_congr
            intro k hk
            rw [hfat k ((mem_search_order h₂).mp hk).1]
          · rw [find_free_cluster_undefined (show fs₁.last_clst + 1 = fs₁.fat_length by omega),
              find_free_cluster_undefined (show fs₂.last_clst + 1 = fs₂.fat_length by omega)]
        rw [handout, handout, hfind]
        apply Outcome.bind_congr
        intro k hk
        by_cases hk0 : k = 0
        · rw [if_pos hk0, if_pos hk0]
        · obtain ⟨-, hk2, hklt, -⟩ := find_free_cluster_pos h₂ hk hk0
          have hclaim : ∀ j, 2 ≤ j → (claim_cluster fs₁ k).fat j = (claim_cluster fs₂ k).fat j := by
            intro j hj
            by_cases hjk : j = k
            · rw [hjk, claim_cluster_fat_self, claim_cluster_fat_self]
            · rw [claim_cluster_fat_of_ne hjk, claim_cluster_fat_of_ne hjk, hfat j hj]
          rw [if_neg hk0, if_neg hk0, ih (claim_cluster_wf h₁ hk2 (by omega))
            (claim_cluster_wf h₂ hk2 hklt) rfl hlen hclaim]
  refine hsame n (append_cluster_wf h h2 hlt) (claim_cluster_wf h h2 hlt) rfl rfl fun k hk => ?_
  have hroot : k ≠ ROOT_DIR_CLUSTER := by
    unfold ROOT_DIR_CLUSTER
    omega
  by_cases hkc : k = c
  · rw [hkc, append_cluster_fat_new (hkc ▸ hroot), claim_cluster_fat_self]
  · rw [append_cluster_fat_of_ne hroot hkc, claim_cluster_fat_of_ne hkc]

/-- The first cluster that is delivered, and the rest. -/
theorem Delivers.next {d d' : disk} {fs : fat_fs} {n : ℕ} (h : fs.Wf) (hdel : Delivers d fs (n + 1))
    (hcap : d'.capacity = d.capacity) :
    ∃ c, find_free_cluster fs = .ok c ∧ c ≠ 0 ∧ 2 ≤ c ∧ c < fs.fat_length
      ∧ select_sector d (cluster_to_sector fs c)
      ∧ Delivers d' (append_cluster fs ROOT_DIR_CLUSTER c) n := by
  obtain ⟨cs, hcs, hlen, hsel⟩ := hdel
  cases cs with
  | nil => cases hlen
  | cons c cs =>
      rw [← hlen] at hcs
      obtain ⟨hfind, hc0, h2, hlt, -, hrest⟩ := handout_cons h hcs
      have hn : cs.length = n := by simpa using hlen
      refine ⟨c, hfind, hc0, h2, hlt, hsel c List.mem_cons_self, cs, ?_, hn, fun k hk => ?_⟩
      · rw [handout_append_root h h2 hlt, ← hn]
        exact hrest
      · rw [cluster_to_sector_append_cluster]
        exact select_sector_congr hcap (hsel k (List.mem_cons_of_mem _ hk))

/-- Only the size of the disk matters. -/
theorem Delivers.congr {d d' : disk} {fs : fat_fs} {n : ℕ} (hdel : Delivers d fs n)
    (hcap : d'.capacity = d.capacity) : Delivers d' fs n := by
  obtain ⟨cs, hcs, hlen, hsel⟩ := hdel
  exact ⟨cs, hcs, hlen, fun k hk => select_sector_congr hcap (hsel k hk)⟩

/-! ## The root directory -/

/-- How many slots the root directory can have: 52 take more than two clusters. -/
def ROOT_SLOTS : ℕ := 51

/-- The root directory, open, with these slots. -/
structure RootDir (s : filesys) (dir : ℕ) (ino : inode) (l : List ℕ) (slots : List dir_slot) :
    Prop extends Holds s dir ino l slots where
  is_root : ino.sector = ROOT_DIR_SECTOR
  start : ino.data.start = ROOT_DIR_CLUSTER
  deny : ino.deny_write_cnt = 0
  inode_on_disk : select_sector s.disk ROOT_DIR_SECTOR
  /-- The inode is in front of the data. -/
  data_start : ROOT_DIR_SECTOR < s.fat.data_start
  slots_le : slots.length ≤ ROOT_SLOTS
  heap : ∀ i ∈ s.open_inodes, ∃ ino, s.inode i = some ino

namespace RootDir

variable {s : filesys} {dir : ℕ} {ino : inode} {l : List ℕ} {slots : List dir_slot}
  {name : c_string} {sector : ℕ}

/-- The file system after the write of an entry. -/
theorem after_write (h : RootDir s dir ino l slots) {d' : disk} {fs₁ : fat_fs} {length : ℤ}
    {l₁ : List ℕ} {slots₁ : List dir_slot} (hcap : d'.capacity = s.disk.capacity)
    (hds : fs₁.data_start = s.fat.data_start) (hslots : slots₁.length ≤ ROOT_SLOTS)
    (hholds : Holds (s.write_back dir d' fs₁ (ino.set_data ROOT_DIR_CLUSTER length)) dir
      (ino.set_data ROOT_DIR_CLUSTER length) l₁ slots₁) :
    RootDir (s.write_back dir d' fs₁ (ino.set_data ROOT_DIR_CLUSTER length)) dir
      (ino.set_data ROOT_DIR_CLUSTER length) l₁ slots₁ where
  toHolds := hholds
  is_root := h.is_root
  start := rfl
  deny := h.deny
  inode_on_disk := select_sector_congr hcap h.inode_on_disk
  data_start := by
    show ROOT_DIR_SECTOR < fs₁.data_start
    rw [hds]
    exact h.data_start
  slots_le := hslots
  heap := by
    intro i hi
    by_cases hid : i = dir
    · exact ⟨_, by rw [hid]; exact Function.update_self _ _ _⟩
    · obtain ⟨ino', hino'⟩ := h.heap i hi
      exact ⟨ino', (Function.update_of_ne hid _ _).trans hino'⟩

/-- No cluster of data is the sector of the inode. -/
theorem apart (h : RootDir s dir ino l slots) {fs₁ : fat_fs} (hwf : fs₁.Wf)
    (hds : fs₁.data_start = s.fat.data_start) {k : ℕ} (h1 : 1 ≤ k) (hlt : k < fs₁.fat_length) :
    cluster_to_sector fs₁ k ≠ ino.sector := by
  have hd := h.data_start
  rw [cluster_to_sector_eq hwf.toGeometry h1 hlt.le, h.is_root]
  omega

theorem start_ne (h : RootDir s dir ino l slots) : ino.data.start ≠ 0 := by
  rw [h.start]
  decide

/-- The data of the inode as `set_data` leaves it. -/
theorem set_data_self (h : RootDir s dir ino l slots) :
    ino.set_data ROOT_DIR_CLUSTER (20 * slots.length : ℕ) = ino := by
  rw [← h.start, ← h.length]
  rfl

/-! ### The extension by one slot -/

/-- An append inside the last cluster. -/
theorem extend_inside (h : RootDir s dir ino l slots)
    (hfit : 20 * slots.length % 512 + 20 ≤ 512) :
    inode_extend s.disk s.fat ino ((20 * slots.length + 20 : ℕ) : ℤ)
      = .ok (s.disk, s.fat, ino.set_data ROOT_DIR_CLUSTER ((20 * slots.length + 20 : ℕ) : ℤ)) := by
  rw [inode_extend_chain h.length h.start_ne, inode_extend_loop, if_pos (by omega), h.start]
  congr 4
  split_ifs <;> omega

/-- An append that needs a cluster: it is put behind the root's own. -/
theorem extend_cluster (h : RootDir s dir ino l slots) {c : ℕ}
    (hover : 512 < 20 * slots.length % 512 + 20) (hfind : find_free_cluster s.fat = .ok c)
    (hc0 : c ≠ 0) (hsel : select_sector s.disk (cluster_to_sector s.fat c)) :
    inode_extend s.disk s.fat ino ((20 * slots.length + 20 : ℕ) : ℤ)
      = .ok (s.disk.put (cluster_to_sector s.fat c) zeros,
          append_cluster s.fat ROOT_DIR_CLUSTER c,
          ino.set_data ROOT_DIR_CLUSTER ((20 * slots.length + 20 : ℕ) : ℤ)) := by
  have hcreate := fat_create_chain_root h.wf hfind hc0
  rw [inode_extend_chain h.length h.start_ne, h.start,
    inode_extend_loop_step (by omega) hcreate hsel, inode_extend_loop, if_pos (by omega),
    inode.set_data_set_data, inode.set_data_start, inode.set_data_length]
  congr 4
  split_ifs <;> omega

/-- The two clusters after that. -/
theorem extent_cluster (h : RootDir s dir ino l slots) {c : ℕ} (h2 : 2 ≤ c)
    (hlt : c < s.fat.fat_length) (hsel : select_sector s.disk (cluster_to_sector s.fat c)) :
    Path (append_cluster s.fat ROOT_DIR_CLUSTER c).fat ROOT_DIR_CLUSTER
      [ROOT_DIR_CLUSTER, c] EOChain ∧ Extent (s.disk.put (cluster_to_sector s.fat c) zeros)
          (append_cluster s.fat ROOT_DIR_CLUSTER c) ROOT_DIR_CLUSTER [ROOT_DIR_CLUSTER, c] := by
  have hcr : c ≠ ROOT_DIR_CLUSTER := by
    unfold ROOT_DIR_CLUSTER
    omega
  have hroot : ROOT_DIR_CLUSTER ∈ l := by
    obtain ⟨e, hp⟩ := h.extent.path
    rw [h.start] at hp
    have hroom := h.room
    exact hp.start_mem (List.ne_nil_of_length_pos (by omega))
  have hpath : Path (append_cluster s.fat ROOT_DIR_CLUSTER c).fat ROOT_DIR_CLUSTER
      [ROOT_DIR_CLUSTER, c] EOChain :=
    ⟨rfl, append_cluster_fat_tail, append_cluster_fat_new hcr⟩
  refine ⟨hpath, ⟨EOChain, hpath⟩, fun k hk => ?_, by simpa using hcr.symm, fun k hk => ?_⟩
  · rcases List.mem_pair.mp hk with rfl | rfl
    · exact h.extent.range _ hroot
    · exact ⟨by omega, hlt⟩
  · rw [cluster_to_sector_append_cluster]
    rcases List.mem_pair.mp hk with rfl | rfl
    · exact h.extent.on_disk _ hroot
    · exact hsel

/-! ### One entry -/

/-- A write that does not grow the directory. -/
theorem write_at_inside (h : RootDir s dir ino l slots) {j : ℕ}
    (hj : j < slots.length) (e : Bytes) :
    inode_write_at s.disk s.fat ino e DIR_ENTRY_SIZE ((20 * j : ℕ) : ℤ) = (do
      let (bytes_written, d) ← inode_write_at_loop s.fat ino e (DIR_ENTRY_SIZE + 1) s.disk
        DIR_ENTRY_SIZE ((20 * j : ℕ) : ℤ) 0
      let d ← inode_flush d ino
      return (bytes_written, d, s.fat, ino)) := by
  have hle := h.slots_le
  have hlen := h.length
  unfold ROOT_SLOTS at hle
  have h32 : i32 (((20 * j : ℕ) : ℤ) + (DIR_ENTRY_SIZE : ℤ))
      = ((20 * j : ℕ) : ℤ) + DIR_ENTRY_SIZE :=
    i32_of_isI32 (by unfold IsI32 DIR_ENTRY_SIZE; omega)
  have hin : ¬ ((20 * j : ℕ) : ℤ) + (DIR_ENTRY_SIZE : ℤ) > inode_length ino := by
    unfold inode_length DIR_ENTRY_SIZE
    omega
  rw [inode_write_at, if_neg (by simp [h.deny]), h32]
  dsimp only
  rw [if_neg hin]
  rfl

/-- A write behind the last slot. -/
theorem write_at_end (h : RootDir s dir ino l slots) {d₁ : disk} {fs₁ : fat_fs} {ino₁ : inode}
    (e : Bytes)
    (hext : inode_extend s.disk s.fat ino ((20 * slots.length + 20 : ℕ) : ℤ)
      = .ok (d₁, fs₁, ino₁)) :
    inode_write_at s.disk s.fat ino e DIR_ENTRY_SIZE ((20 * slots.length : ℕ) : ℤ) = (do
      let (bytes_written, d) ← inode_write_at_loop fs₁ ino₁ e (DIR_ENTRY_SIZE + 1) d₁
        DIR_ENTRY_SIZE ((20 * slots.length : ℕ) : ℤ) 0
      let d ← inode_flush d ino₁
      return (bytes_written, d, fs₁, ino₁)) := by
  have hle := h.slots_le
  unfold ROOT_SLOTS at hle
  apply inode_write_at_extend e h.deny
  · unfold DIR_ENTRY_SIZE
    omega
  · rw [h.length]
    unfold DIR_ENTRY_SIZE
    omega
  · exact hext

/-- How many more clusters the root directory asks for, from `m` slots to `m'`. -/
def needed (m m' : ℕ) : ℕ := grow_clusters ROOT_DIR_CLUSTER (20 * m) (20 * m')

theorem needed_eq (m m' : ℕ) : needed m m' = (20 * m' + 511) / 512 - (20 * m / 512 + 1) := by
  unfold needed grow_clusters
  rw [if_neg (by decide), Nat.zero_add]

/-- **One entry is written**, into a free slot or behind the last one: what is asked of the
searches goes down by what was used. -/
theorem write_entry (h : RootDir s dir ino l slots) {e : Bytes} {j m' : ℕ} {x : dir_slot}
    (hx : SlotIs e x) (hj : j ≤ slots.length)
    (hroot : (if j < slots.length then slots.length else slots.length + 1) ≤ ROOT_SLOTS)
    (hm' : (if j < slots.length then slots.length else slots.length + 1) ≤ m')
    (hdel : Delivers s.disk s.fat (needed slots.length m')) :
    ∃ s' ino' l', Pintos.write_entry s dir e (20 * j) = .ok (true, s')
      ∧ RootDir s' dir ino' l' (if j < slots.length then slots.set j x else slots ++ [x])
      ∧ s'.disk.capacity = s.disk.capacity
      ∧ Delivers s'.disk s'.fat
          (needed (if j < slots.length then slots.length else slots.length + 1) m') := by
  have hslots : (if j < slots.length then slots.set j x else slots ++ [x]).length ≤ ROOT_SLOTS := by
    split at hroot <;> rename_i hlt
    · rw [if_pos hlt, List.length_set]
      exact hroot
    · rw [if_neg hlt, List.length_append]
      exact hroot
  unfold ROOT_SLOTS at hroot
  have hroom := h.room
  -- the three cases differ in the file that the copy loop finds
  suffices hfile : ∃ d₁ fs₁ l₁ m, inode_write_at s.disk s.fat ino e DIR_ENTRY_SIZE
        ((20 * j : ℕ) : ℤ) = (do
          let (bytes_written, d) ← inode_write_at_loop fs₁
            (ino.set_data ROOT_DIR_CLUSTER (20 * m : ℕ)) e (DIR_ENTRY_SIZE + 1) d₁
            DIR_ENTRY_SIZE ((20 * j : ℕ) : ℤ) 0
          let d ← inode_flush d (ino.set_data ROOT_DIR_CLUSTER (20 * m : ℕ))
          return (bytes_written, d, fs₁, ino.set_data ROOT_DIR_CLUSTER (20 * m : ℕ)))
      ∧ m = (if j < slots.length then slots.length else slots.length + 1)
      ∧ fs₁.Wf ∧ fs₁.data_start = s.fat.data_start ∧ d₁.capacity = s.disk.capacity
      ∧ Extent d₁ fs₁ ROOT_DIR_CLUSTER l₁ ∧ 20 * m / 512 < l₁.length
      ∧ (∀ p < 20 * slots.length, file_byte d₁ fs₁ l₁ p = file_byte s.disk s.fat l p)
      ∧ Delivers d₁ fs₁ (needed m m') by
    obtain ⟨d₁, fs₁, l₁, m, hrun, hm, hwf, hds, hcap, hext, hroom₁, hkeep, hdel₁⟩ := hfile
    have hsel : select_sector d₁ ino.sector := by
      rw [h.is_root]
      exact select_sector_congr hcap h.inode_on_disk
    have hjm : j < m := by
      rw [hm]
      split <;> omega
    obtain ⟨d', hwrite, hcap', hholds⟩ := h.write_slot hx hwf
      (show Extent d₁ fs₁ (ino.set_data ROOT_DIR_CLUSTER (20 * m : ℕ)).data.start l₁ from hext) hsel
      (fun k hk => h.apart hwf hds (hext.range k hk).1 (hext.range k hk).2) rfl hroom₁ hjm hm hj
      hkeep
    refine ⟨_, _, l₁, ?_, h.after_write (hcap'.trans hcap) hds hslots hholds, hcap'.trans hcap, ?_⟩
    · have hat := hrun.trans hwrite
      rw [Pintos.write_entry, h.get_inode]
      simp only [Outcome.ok_bind, hat, Outcome.pure_eq, decide_true]
    · rw [← hm]
      exact hdel₁.congr hcap'
  by_cases hjlt : j < slots.length
  · refine ⟨s.disk, s.fat, l, slots.length, ?_, (if_pos hjlt).symm, h.wf, rfl, rfl, ?_, h.room,
      fun _ _ => rfl, hdel⟩
    · rw [h.set_data_self]
      exact h.write_at_inside hjlt e
    · rw [← h.start]
      exact h.extent
  · obtain rfl : j = slots.length := by omega
    rw [if_neg hjlt] at hroot hm'
    by_cases hfit : 20 * slots.length % 512 + 20 ≤ 512
    · -- 20 times at most 51 is no multiple of 512, so there is room behind the slot too
      have hdiv : 20 * (slots.length + 1) / 512 = 20 * slots.length / 512 := by
        rcases Nat.lt_or_ge slots.length 25 with hlt | hge
        · rw [Nat.div_eq_of_lt (by omega), Nat.div_eq_of_lt (by omega)]
        · omega
      have hn : needed (slots.length + 1) m' = needed slots.length m' := by
        rw [needed_eq, needed_eq, hdiv]
      refine ⟨s.disk, s.fat, l, slots.length + 1, ?_, (if_neg hjlt).symm, h.wf, rfl, rfl, ?_,
        hdiv.trans_lt hroom, fun _ _ => rfl, hn ▸ hdel⟩
      · exact h.write_at_end e (h.extend_inside hfit)
      · rw [← h.start]
        exact h.extent
    · have h25 : slots.length = 25 := by
        rcases Nat.lt_or_ge slots.length 25 with hlt | hge
        · rw [Nat.mod_eq_of_lt (by omega)] at hfit
          omega
        · by_contra hne
          have hdiv : 20 * slots.length / 512 = 1 := by omega
          omega
      have hn : needed slots.length m' = needed (slots.length + 1) m' + 1 := by
        rw [needed_eq, needed_eq]
        omega
      rw [hn] at hdel
      have hcapz : ∀ c, (s.disk.put (cluster_to_sector s.fat c) zeros).capacity = s.disk.capacity :=
        fun _ => rfl
      obtain ⟨c, hfind, hc0, h2, hlt, hsel, -⟩ := hdel.next h.wf (hcapz 0)
      obtain ⟨c', hfind', -, -, -, -, hdel'⟩ := hdel.next h.wf (hcapz c)
      obtain rfl : c = c' := Outcome.ok.inj (hfind.symm.trans hfind')
      have hover : 512 < 20 * slots.length % 512 + 20 := by omega
      obtain ⟨-, hext⟩ := h.extent_cluster h2 hlt hsel
      refine ⟨_, _, [ROOT_DIR_CLUSTER, c], slots.length + 1,
        h.write_at_end e (h.extend_cluster hover hfind hc0 hsel), (if_neg hjlt).symm,
        append_cluster_wf h.wf h2 hlt, rfl, rfl, hext, ?_, fun p hp => ?_, hdel'⟩
      · simp only [List.length_cons, List.length_nil]
        omega
      · -- all slots so far are in the first cluster, which is not the new one
        have hp0 : p / 512 = 0 := by omega
        obtain ⟨e', hpath⟩ := h.extent.path
        rw [h.start] at hpath
        have hl0 : l.getD 0 0 = ROOT_DIR_CLUSTER := by
          cases l with
          | nil => simp at hroom
          | cons y ys => exact hpath.1.symm
        have h1 := (h.extent.range _ (hpath.start_mem (List.ne_nil_of_length_pos (by omega)))).2
        have hne : cluster_to_sector s.fat ROOT_DIR_CLUSTER ≠ cluster_to_sector s.fat c := by
          intro heq
          have := cluster_to_sector_inj h.wf.toGeometry h1.le hlt.le heq
          unfold ROOT_DIR_CLUSTER at this
          omega
        unfold file_byte
        rw [hp0, hl0, cluster_to_sector_append_cluster]
        exact congrFun (disk.put_sectors_of_ne hne) _

/-- The search of `dir_add` for a free slot. -/
theorem find_free (h : RootDir s dir ino l slots) :
    ∃ r, dir_find s dir (fun e => !dir_entry.in_use e) = .ok r
      ∧ r.ofs = 20 * slots.findIdx Option.isNone := by
  have hpq : ∀ b x, SlotIs b x → (!dir_entry.in_use b) = x.isNone := by
    intro b x hx
    rw [hx.in_use]
    cases x <;> rfl
  obtain ⟨r, hr, hofs, -⟩ := h.find hpq
  exact ⟨r, hr, hofs⟩

/-- `dir_add` of a valid new name comes to the write. -/
theorem dir_add_eq (h : RootDir s dir ino l slots) (hname : NameOk name)
    (hnew : ∀ sector', (name, sector') ∉ slot_entries slots) (sector : ℕ) :
    ∃ e, dir_add s dir name sector = Pintos.write_entry s dir (dir_entry.fill e name sector)
      (20 * slots.findIdx Option.isNone) := by
  obtain ⟨r, hr, hofs⟩ := h.find_free
  have hvalid : ¬ (name = [] ∨ NAME_MAX < name.length) := by
    rintro (hnil | hlong)
    · exact hname.ne_nil hnil
    · have := hname.length_le
      omega
  refine ⟨r.e, ?_⟩
  rw [dir_add, if_neg hvalid, h.lookup_none hname hnew]
  simp only [Outcome.ok_bind, Option.isSome_none, Bool.false_eq_true, if_false, hr, hofs]

/-- **`dir_add`** of a valid new name, up to slot 51. -/
theorem add (h : RootDir s dir ino l slots) (hname : NameOk name)
    (hnew : ∀ sector', (name, sector') ∉ slot_entries slots) (hsector : sector < 2 ^ 32) {m' : ℕ}
    (hroot : (add_slot slots (name, sector)).length ≤ ROOT_SLOTS)
    (hm' : (add_slot slots (name, sector)).length ≤ m')
    (hdel : Delivers s.disk s.fat (needed slots.length m')) :
    ∃ s' ino' l', dir_add s dir name sector = .ok (true, s')
      ∧ RootDir s' dir ino' l' (add_slot slots (name, sector))
      ∧ s'.disk.capacity = s.disk.capacity
      ∧ Delivers s'.disk s'.fat (needed (add_slot slots (name, sector)).length m') := by
  obtain ⟨e, hadd⟩ := h.dir_add_eq hname hnew sector
  rw [add_slot_length] at hroot hm' ⊢
  rw [hadd, add_slot]
  exact h.write_entry (slotIs_fill e hname hsector) List.findIdx_le_length hroot hm' hdel

/-- **Slot 52.** The entry does not fit into the second cluster, and there is no third one. -/
theorem add_panics (h : RootDir s dir ino l slots) (hname : NameOk name)
    (hnew : ∀ sector', (name, sector') ∉ slot_entries slots) {m' : ℕ}
    (hroot : ROOT_SLOTS < (add_slot slots (name, sector)).length)
    (hm' : (add_slot slots (name, sector)).length ≤ m')
    (hdel : Delivers s.disk s.fat (needed slots.length m')) :
    dir_add s dir name sector = .panic := by
  obtain ⟨e, hadd⟩ := h.dir_add_eq hname hnew sector
  have hle := h.slots_le
  rw [add_slot_length] at hroot hm'
  unfold ROOT_SLOTS at hroot hle
  have hfull : ¬ slots.findIdx Option.isNone < slots.length := by
    intro hlt
    rw [if_pos hlt] at hroot
    omega
  rw [if_neg hfull] at hroot hm'
  have hidx : slots.findIdx Option.isNone = slots.length := by
    have : slots.findIdx Option.isNone ≤ slots.length := List.findIdx_le_length
    omega
  have h51 : slots.length = 51 := by omega
  obtain ⟨n, hn⟩ : ∃ n, needed slots.length m' = n + 1 := by
    refine ⟨needed slots.length m' - 1, ?_⟩
    rw [needed_eq]
    omega
  rw [hn] at hdel
  have hcap : (s.disk.put 0 zeros).capacity = s.disk.capacity := rfl
  obtain ⟨c, hfind, hc0, h2, hlt, hsel, -⟩ := hdel.next h.wf hcap
  obtain ⟨hpath, hext⟩ := h.extent_cluster h2 hlt hsel
  have hwf := append_cluster_wf (t := ROOT_DIR_CLUSTER) h.wf h2 hlt
  have hrange := fun k hk => (hext.range k hk).2
  have hgrow := h.extend_cluster (by omega) hfind hc0 hsel
  have hrun := h.write_at_end (dir_entry.fill e name sector) hgrow
  rw [hadd, hidx, Pintos.write_entry, h.get_inode, Outcome.ok_bind, hrun]
  -- first turn: four bytes at the end of the new cluster
  have hfit : ((20 * slots.length : ℕ) : ℤ) + (DIR_ENTRY_SIZE : ℤ)
      ≤ inode_length (ino.set_data ROOT_DIR_CLUSTER ((20 * slots.length + 20 : ℕ) : ℤ)) := by
    unfold inode_length DIR_ENTRY_SIZE
    rw [inode.set_data_length]
    omega
  have hsec := byte_to_sector_eq hwf.toGeometry
    (show Extent _ _ (ino.set_data ROOT_DIR_CLUSTER ((20 * slots.length + 20 : ℕ) : ℤ)).data.start _
      from hext)
    (20 * slots.length) (by rw [inode.set_data_length]; omega) (by simp; omega)
  obtain ⟨bounce, -, hturn⟩ := inode_write_at_loop_turn (dir_entry.fill e name sector)
    DIR_ENTRY_SIZE 0 (show 0 < DIR_ENTRY_SIZE by decide) hfit hsec
    (hext.getD_on_disk (by simp; omega))
  have hchunk : chunk DIR_ENTRY_SIZE (20 * slots.length) = 4 := by
    rw [h51]
    rfl
  rw [Nat.cast_zero] at hturn
  rw [hturn, hchunk]
  -- second turn: position 1024, behind the last cluster
  have hend : byte_to_sector (append_cluster s.fat ROOT_DIR_CLUSTER c)
      (ino.set_data ROOT_DIR_CLUSTER ((20 * slots.length + 20 : ℕ) : ℤ))
      ((20 * slots.length + 4 : ℕ) : ℤ) = .ok NO_SECTOR := by
    rw [byte_to_sector, if_neg (by rw [inode.set_data_length]; omega), inode.set_data_start,
      if_neg (by decide)]
    apply byte_to_sector_loop_end _ hpath hrange (by simp)
    rw [h51]
    show 2 ≤ _
    decide
  rw [DIR_ENTRY_SIZE, inode_write_at_loop, if_neg (by decide), hend, h51]
  have hnone : ∀ d : disk, disk_read d NO_SECTOR = .panic :=
    fun d => disk_read_panic fun hsel => absurd hsel.2 (by decide)
  simp only [Outcome.ok_bind, inode_length, inode.set_data_length, hnone]
  rfl

/-! ### Looking a name up -/

/-- `dir_lookup` finds this entry: the inode it opens is the one of the entry's sector. -/
def Finds (s : filesys) (dir : ℕ) (e : c_string × ℕ) : Prop :=
  ∃ i s' ino, dir_lookup s dir e.1 = .ok (some i, s') ∧ s'.inode i = some ino ∧ ino.sector = e.2

/-- `inode_open` of a sector of the disk. -/
theorem open_sector (h : RootDir s dir ino l slots) (hsel : select_sector s.disk sector) :
    ∃ i s' ino', inode_open s sector = .ok (i, s') ∧ s'.inode i = some ino'
      ∧ ino'.sector = sector := by
  rw [inode_open]
  rcases open_inodes_find_spec sector s.open_inodes h.heap with
    ⟨i, ino', -, hino', hsec, hfind⟩ | ⟨-, hfind⟩
  · refine ⟨i, s.set_inode i { ino' with open_cnt := ino'.open_cnt + 1 },
      { ino' with open_cnt := ino'.open_cnt + 1 }, ?_, Function.update_self _ _ _, hsec⟩
    rw [hfind]
    simp [inode_reopen, filesys.get_inode_eq_ok.mpr hino']
  · rw [hfind]
    simp only [Outcome.ok_bind]
    rw [inode_load, disk_read_ok hsel]
    exact ⟨_, _, _, rfl, Function.update_self _ _ _, rfl⟩

/-- **`dir_lookup`** finds every entry, if no two have the same name. -/
theorem finds (h : RootDir s dir ino l slots) {e : c_string × ℕ} (he : e ∈ slot_entries slots)
    (hdistinct : ((slot_entries slots).map Prod.fst).Nodup) (hsel : select_sector s.disk e.2) :
    Finds s dir e := by
  obtain ⟨name, sector⟩ := e
  obtain ⟨i, hi⟩ := List.mem_iff_getElem?.mp (mem_slot_entries.mp he)
  have hname : NameOk name := (h.slot i _ hi).2.2.2
  have huniq : ∀ sector', (name, sector') ∈ slot_entries slots → sector' = sector := by
    intro sector' he'
    have hsame := List.inj_on_of_nodup_map hdistinct he' he rfl
    exact congrArg Prod.snd hsame
  obtain ⟨ofs, b, hlookup, hb⟩ := h.lookup_some hname he huniq
  obtain ⟨i, s', ino', hopen, hino', hsec⟩ := h.open_sector hsel
  refine ⟨i, s', ino', ?_, hino', hsec⟩
  rw [dir_lookup, hlookup]
  simp [open_entry, hb, hopen]

end RootDir

/-! ## Adding many names -/

/-- A sequence of `dir_add`, with the results. -/
def dir_add_all (dir : ℕ) : filesys → List (c_string × ℕ) → Outcome (List Bool × filesys)
  | s, [] => .ok ([], s)
  | s, (name, sector) :: rest => do
      let (success, s) ← dir_add s dir name sector
      let (results, s) ← dir_add_all dir s rest
      return (success :: results, s)

/-- **Nothing is lost**: every `dir_add` returns true, and `dir_lookup` finds every name
afterwards, the new ones and the ones that were there. -/
def NothingLost (s : filesys) (dir : ℕ) (new old : List (c_string × ℕ)) : Prop :=
  ∃ results s', dir_add_all dir s new = .ok (results, s') ∧ (∀ success ∈ results, success = true)
    ∧ ∀ e ∈ new ++ old, RootDir.Finds s' dir e

section Run

variable {s : filesys} {dir : ℕ} {ino : inode} {l : List ℕ} {slots : List dir_slot}

/-- The number of slots after a sequence of additions. -/
theorem add_slots_length (new : List (c_string × ℕ)) : ∀ slots : List dir_slot,
    (new.foldl add_slot slots).length = slots.length + (new.length - slots.count none) := by
  induction new with
  | nil => intro slots; simp
  | cons e new ih =>
      intro slots
      rw [List.foldl_cons, ih, add_slot_length, List.length_cons]
      by_cases hlt : slots.findIdx Option.isNone < slots.length
      · have hfree := List.findIdx_getElem (w := hlt)
        rw [Option.isNone_iff_eq_none] at hfree
        have hcount : (add_slot slots e).count none + 1 = slots.count none := by
          rw [add_slot, if_pos hlt, List.count_set hlt, hfree]
          have hpos : 0 < slots.count none :=
            List.count_pos_iff.mpr (hfree ▸ List.getElem_mem hlt)
          simp
          omega
        rw [if_pos hlt]
        omega
      · have hcount : slots.count none = 0 := by
          rw [List.count_eq_zero]
          intro hmem
          exact hlt (List.findIdx_lt_length_of_exists ⟨none, hmem, rfl⟩)
        have hcount' : (add_slot slots e).count none = 0 := by
          rw [add_slot, if_neg hlt, List.count_append, hcount]
          simp
        rw [if_neg hlt, hcount, hcount']
        omega

/-- The entries after a sequence of additions. -/
theorem slot_entries_add_all (new : List (c_string × ℕ)) : ∀ slots : List dir_slot,
    (slot_entries (new.foldl add_slot slots)).Perm (new ++ slot_entries slots) := by
  induction new with
  | nil => exact fun slots => List.Perm.refl _
  | cons e new ih =>
      intro slots
      have hstep := (slot_entries_add slots e).append_left new
      exact ((ih (add_slot slots e)).trans hstep).trans List.perm_middle

/-- What one addition leaves for the rest of the sequence. -/
theorem rest_distinct {name : c_string} {sector : ℕ} {new : List (c_string × ℕ)}
    (hdistinct : (((name, sector) :: new ++ slot_entries slots).map Prod.fst).Nodup) :
    (∀ sector', (name, sector') ∉ slot_entries slots)
      ∧ ((new ++ slot_entries (add_slot slots (name, sector))).map Prod.fst).Nodup := by
  constructor
  · intro sector' hmem
    rw [List.cons_append, List.map_cons, List.nodup_cons] at hdistinct
    exact hdistinct.1 (List.mem_map.mpr ⟨_, List.mem_append_right _ hmem, rfl⟩)
  · have hperm : (new ++ slot_entries (add_slot slots (name, sector))).Perm
        ((name, sector) :: new ++ slot_entries slots) :=
      ((slot_entries_add slots (name, sector)).append_left new).trans List.perm_middle
    exact (hperm.map Prod.fst).nodup_iff.mpr hdistinct

/-- **The run.** As long as the slots suffice, every addition succeeds and the directory holds
all the entries; as soon as they do not, the sequence ends in a panic. -/
theorem dir_add_all_spec (new : List (c_string × ℕ)) : ∀ {s : filesys} {ino : inode} {l : List ℕ}
    {slots : List dir_slot}, RootDir s dir ino l slots →
      (∀ e ∈ new, NameOk e.1 ∧ e.2 < 2 ^ 32) →
      ((new ++ slot_entries slots).map Prod.fst).Nodup →
      Delivers s.disk s.fat (RootDir.needed slots.length (new.foldl add_slot slots).length) →
        ((new.foldl add_slot slots).length ≤ ROOT_SLOTS →
          ∃ s' ino' l', dir_add_all dir s new = .ok (new.map fun _ => true, s')
            ∧ RootDir s' dir ino' l' (new.foldl add_slot slots)
            ∧ s'.disk.capacity = s.disk.capacity)
        ∧ (ROOT_SLOTS < (new.foldl add_slot slots).length → dir_add_all dir s new = .panic) := by
  induction new with
  | nil =>
      intro s ino l slots h _ _ _
      refine ⟨fun _ => ⟨s, ino, l, rfl, h, rfl⟩, fun hlt => ?_⟩
      have hle := h.slots_le
      rw [List.foldl_nil] at hlt
      omega
  | cons e new ih =>
      intro s ino l slots h hvalid hdistinct hdel
      obtain ⟨name, sector⟩ := e
      obtain ⟨hname, hsector⟩ := hvalid (name, sector) List.mem_cons_self
      obtain ⟨hnew, hdistinct'⟩ := rest_distinct hdistinct
      have hvalid' := fun e he => hvalid e (List.mem_cons_of_mem _ he)
      rw [List.foldl_cons] at hdel ⊢
      have hmono : (add_slot slots (name, sector)).length
          ≤ (new.foldl add_slot (add_slot slots (name, sector))).length := by
        rw [add_slots_length]
        omega
      rw [dir_add_all]
      by_cases hfit : (add_slot slots (name, sector)).length ≤ ROOT_SLOTS
      · obtain ⟨s₁, ino₁, l₁, hadd, h₁, hcap₁, hdel₁⟩ := h.add hname hnew hsector hfit hmono hdel
        obtain ⟨hgood, hbad⟩ := ih h₁ hvalid' hdistinct' hdel₁
        rw [hadd]
        simp only [Outcome.ok_bind]
        constructor
        · intro hle
          obtain ⟨s', ino', l', hrun, h', hcap'⟩ := hgood hle
          refine ⟨s', ino', l', ?_, h', hcap'.trans hcap₁⟩
          rw [hrun]
          rfl
        · intro hlt
          rw [hbad hlt]
          rfl
      · refine ⟨fun hle => absurd (hmono.trans hle) hfit, fun _ => ?_⟩
        rw [h.add_panics hname hnew (Nat.lt_of_not_le hfit) hmono hdel]
        rfl

/-- **The root directory loses nothing exactly** up to its slot 51, however the names and
sectors are chosen, as long as the searches for clusters succeed. -/
theorem root_directory_keeps_iff {new : List (c_string × ℕ)} (h : RootDir s dir ino l slots)
    (hvalid : ∀ e ∈ new, NameOk e.1)
    (hsel : ∀ e ∈ new ++ slot_entries slots, select_sector s.disk e.2)
    (hdistinct : ((new ++ slot_entries slots).map Prod.fst).Nodup)
    (hfree : Delivers s.disk s.fat
      (RootDir.needed slots.length (slots.length + (new.length - slots.count none)))) :
    NothingLost s dir new (slot_entries slots)
      ↔ slots.length + (new.length - slots.count none) ≤ ROOT_SLOTS := by
  have hlength := add_slots_length new slots
  have hvalid' : ∀ e ∈ new, NameOk e.1 ∧ e.2 < 2 ^ 32 := by
    intro e he
    have hlt := (hsel e (List.mem_append_left _ he)).2
    exact ⟨hvalid e he, by omega⟩
  rw [← hlength] at hfree ⊢
  obtain ⟨hgood, hbad⟩ := dir_add_all_spec new h hvalid' hdistinct hfree
  constructor
  · rintro ⟨results, s', hrun, -, -⟩
    by_contra hlt
    rw [hbad (by omega)] at hrun
    cases hrun
  · intro hle
    obtain ⟨s', ino', l', hrun, h', hcap⟩ := hgood hle
    refine ⟨_, s', hrun, ?_, fun e he => ?_⟩
    · simp
    · have hp := slot_entries_add_all new slots
      exact h'.finds (hp.mem_iff.mpr he) ((hp.map Prod.fst).nodup_iff.mpr hdistinct)
        (select_sector_congr hcap (hsel e he))

end Run

/-! ### A formatted disk -/

/-- The root directory is open and empty. Cluster 1 is its own, and cluster 2, which is free after
formatting, has been taken since. -/
def formatted : filesys where
  disk := { capacity := 64, sectors := fun _ => zeros, written := [] }
  fat :=
    { bs := { magic := FAT_MAGIC, sectors_per_cluster := 1, total_sectors := 64
              fat_start := 1, fat_sectors := 1, root_dir_cluster := ROOT_DIR_CLUSTER }
      fat := fun k => if k = 1 ∨ k = 2 then EOChain else 0
      fat_length := 32, data_start := 2, last_clst := 2 }
  inode := fun i =>
    if i = 0 then some
      { sector := ROOT_DIR_SECTOR, open_cnt := 1, removed := false, deny_write_cnt := 0
        data := { start := ROOT_DIR_CLUSTER, length := 0, magic := INODE_MAGIC, isdir := true } }
    else none
  next_inode := 1
  open_inodes := [0]
  file _ := none
  next_file := 0

/-- The inode of its root directory. -/
def formatted_root : inode where
  sector := ROOT_DIR_SECTOR
  open_cnt := 1
  removed := false
  deny_write_cnt := 0
  data := { start := ROOT_DIR_CLUSTER, length := 0, magic := INODE_MAGIC, isdir := true }

theorem formatted_root_dir : RootDir formatted 0 formatted_root [1] [] where
  is_open := rfl
  wf := { two_lt := by decide, length_le := by decide, start_pos := by decide,
          no_wrap := by decide, last_ge := by decide, last_lt := by decide }
  extent := ⟨⟨EOChain, rfl, rfl⟩, by decide, by decide, by decide⟩
  length := rfl
  room := by decide
  slot := fun i x hi => by cases hi
  is_root := rfl
  start := rfl
  deny := rfl
  inode_on_disk := by decide
  data_start := by decide
  slots_le := by decide
  heap := fun i hi => ⟨formatted_root, by rw [List.mem_singleton.mp hi]; rfl⟩

/-- Names of one character each. -/
def short_names (n : ℕ) : List (c_string × ℕ) :=
  (List.range n).map fun i => ([UInt8.ofNat (i + 1)], 5)

theorem short_names_ok {n : ℕ} (hn : n < 255) : (∀ e ∈ short_names n, NameOk e.1)
    ∧ (∀ e ∈ short_names n ++ slot_entries [], select_sector formatted.disk e.2)
    ∧ ((short_names n ++ slot_entries []).map Prod.fst).Nodup := by
  have hmem : ∀ e ∈ short_names n, ∃ i < n, e = ([UInt8.ofNat (i + 1)], 5) := by
    intro e he
    obtain ⟨i, hi, rfl⟩ := List.mem_map.mp he
    exact ⟨i, List.mem_range.mp hi, rfl⟩
  have hval : ∀ i < n, (UInt8.ofNat (i + 1)).toNat = i + 1 := by
    intro i hi
    rw [UInt8.toNat_ofNat']
    omega
  refine ⟨fun e he => ?_, fun e he => ?_, ?_⟩
  · obtain ⟨i, hi, rfl⟩ := hmem e he
    refine ⟨by simp, by simp [NAME_MAX], fun ch hch h0 => ?_⟩
    have hv := hval i hi
    rw [← List.mem_singleton.mp hch, h0] at hv
    cases hv
  · obtain ⟨i, -, rfl⟩ := hmem e (by simpa [slot_entries] using he)
    show select_sector formatted.disk 5
    decide
  · have hnil : slot_entries [] = [] := rfl
    rw [hnil, List.append_nil, short_names, List.map_map]
    refine List.Nodup.map_on (fun i hi j hj hij => ?_) List.nodup_range
    have hc : UInt8.ofNat (i + 1) = UInt8.ofNat (j + 1) := by simpa using hij
    have hi' := hval i (List.mem_range.mp hi)
    have hj' := hval j (List.mem_range.mp hj)
    rw [hc] at hi'
    omega

/-- Thirty names, for which one cluster is needed. -/
theorem thirty_names_kept : NothingLost formatted 0 (short_names 30) (slot_entries []) := by
  obtain ⟨hvalid, hsel, hdistinct⟩ := short_names_ok (n := 30) (by decide)
  have hfree : Delivers formatted.disk formatted.fat (RootDir.needed 0 30) :=
    ⟨[3], rfl, rfl, by decide⟩
  exact (root_directory_keeps_iff formatted_root_dir hvalid hsel hdistinct
    (by simpa [short_names] using hfree)).mpr (by simp [short_names, ROOT_SLOTS])

/-- **Fifty-two names**: free clusters remain, and the last `dir_add` does not come back. -/
theorem fifty_two_names_lost : ¬ ∀ (s : filesys) (dir : ℕ) (ino : inode) (l : List ℕ)
    (slots : List dir_slot) (new : List (c_string × ℕ)), RootDir s dir ino l slots →
      (∀ e ∈ new, NameOk e.1) →
      (∀ e ∈ new ++ slot_entries slots, select_sector s.disk e.2) →
      ((new ++ slot_entries slots).map Prod.fst).Nodup →
      Delivers s.disk s.fat
        (RootDir.needed slots.length (slots.length + (new.length - slots.count none))) →
        NothingLost s dir new (slot_entries slots) := by
  intro hall
  obtain ⟨hvalid, hsel, hdistinct⟩ := short_names_ok (n := 52) (by decide)
  have hfree : Delivers formatted.disk formatted.fat (RootDir.needed 0 52) :=
    ⟨[3, 4], rfl, rfl, by decide⟩
  have hlength : ((short_names 52).foldl add_slot []).length = 52 := by
    rw [add_slots_length]
    simp [short_names]
  have hvalid' : ∀ e ∈ short_names 52, NameOk e.1 ∧ e.2 < 2 ^ 32 := by
    intro e he
    have hlt := (hsel e (List.mem_append_left _ he)).2
    exact ⟨hvalid e he, by omega⟩
  obtain ⟨results, s', hrun, -, -⟩ := hall formatted 0 formatted_root [1] [] (short_names 52)
    formatted_root_dir hvalid hsel hdistinct (by simpa [short_names] using hfree)
  obtain ⟨-, hpanic⟩ := dir_add_all_spec (short_names 52) formatted_root_dir hvalid' hdistinct
    (by rw [hlength]; exact hfree)
  rw [hpanic (by rw [hlength]; decide)] at hrun
  cases hrun

end Pintos
