/-
`fat_boot_create` and `fat_fs_init`: the geometry of a formatted disk, and what the search
for a free cluster makes of it.

The number of table sectors is the quotient of what is behind the boot sector by 129, rounded
up: a sector of the table has entries for 128 clusters. The rounding leaves entries that have
no sector, unless it has nothing to round (`clusters_on_disk_iff`).

The search starts behind the last allocation, without a look at the end of the table, and it
ends at the last allocation without a look at that cluster (`find_free_cluster_exact_iff`).
-/
import Pintos.Filesys.AllOrNothing
import Pintos.Devices.Disk

set_option autoImplicit false

namespace Pintos

/-! ## Formatting -/

/-- `fat_boot_create`, in the 32-bit arithmetic of `disk_sector_t`. -/
def fat_boot_create (disk_size : ℕ) : fat_boot where
  magic := FAT_MAGIC
  sectors_per_cluster := SECTORS_PER_CLUSTER
  total_sectors := disk_size
  fat_start := 1
  fat_sectors :=
    (disk_size + (2 ^ 32 - 1)) % 2 ^ 32 / (DISK_SECTOR_SIZE / 4 * SECTORS_PER_CLUSTER + 1) + 1
  root_dir_cluster := ROOT_DIR_CLUSTER

/-- `fat_fs_init`, for a table with the contents `fat`. -/
def fat_fs_init (bs : fat_boot) (fat : ℕ → ℕ) : fat_fs where
  bs := bs
  fat := fat
  fat_length := bs.fat_sectors * DISK_SECTOR_SIZE % 2 ^ 32 / (4 * SECTORS_PER_CLUSTER)
  data_start := (bs.fat_start + bs.fat_sectors) % 2 ^ 32
  last_clst := ROOT_DIR_CLUSTER + 1

/-- The table of a disk of this size. -/
def formatted_fat (disk_size : ℕ) (fat : ℕ → ℕ) : fat_fs :=
    fat_fs_init (fat_boot_create disk_size) fat

/-- The number of sectors of the table. -/
def table_sectors (disk_size : ℕ) : ℕ := (disk_size - 1) / 129 + 1

section Geometry

variable {n : ℕ} (fat : ℕ → ℕ)

theorem fat_boot_create_sectors (h1 : 1 ≤ n) (h32 : n < 2 ^ 32) :
    (fat_boot_create n).fat_sectors = table_sectors n := by
  show (n + (2 ^ 32 - 1)) % 2 ^ 32 / 129 + 1 = (n - 1) / 129 + 1
  omega

/-- The table wraps at 2^32 bytes. -/
theorem formatted_fat_length (h1 : 1 ≤ n) (h32 : n < 2 ^ 32) :
    (formatted_fat n fat).fat_length = 128 * (table_sectors n % 2 ^ 23) := by
  show (fat_boot_create n).fat_sectors * 512 % 2 ^ 32 / 4 = 128 * (table_sectors n % 2 ^ 23)
  rw [fat_boot_create_sectors h1 h32]
  omega

theorem formatted_data_start (h1 : 1 ≤ n) (h32 : n < 2 ^ 32) :
    (formatted_fat n fat).data_start = 1 + table_sectors n := by
  show (1 + (fat_boot_create n).fat_sectors) % 2 ^ 32 = 1 + table_sectors n
  rw [fat_boot_create_sectors h1 h32]
  unfold table_sectors
  omega

/-- **The geometry of a formatted disk**, as large as the driver can address. -/
theorem formatted_fat_wf (h1 : 1 ≤ n) (h28 : n ≤ 2 ^ 28) : (formatted_fat n fat).Wf := by
  have hlen := formatted_fat_length fat h1 (by omega : n < 2 ^ 32)
  have hstart := formatted_data_start fat h1 (by omega : n < 2 ^ 32)
  have hfew : table_sectors n < 2 ^ 21 := by
    unfold table_sectors
    omega
  have hmod : table_sectors n % 2 ^ 23 = table_sectors n := Nat.mod_eq_of_lt (by omega)
  have hpos : 1 ≤ table_sectors n := Nat.le_add_left 1 _
  have hend : 128 * table_sectors n ≤ 0x0FFFFFFF := by
    unfold table_sectors
    omega
  rw [hmod] at hlen
  refine { two_lt := ?_, length_le := ?_, start_pos := ?_, no_wrap := ?_, last_ge := le_rfl,
           last_lt := ?_ }
  · rw [hlen]
    omega
  · rw [hlen]
    exact hend
  · rw [hstart]
    omega
  · rw [hlen, hstart]
    omega
  · show 2 < (formatted_fat n fat).fat_length
    rw [hlen]
    omega

/-- The sector of a cluster. -/
theorem formatted_sector (h1 : 1 ≤ n) (h32 : n < 2 ^ 32) {c : ℕ} (hc : 1 ≤ c)
    (hlt : c < (formatted_fat n fat).fat_length) :
    cluster_to_sector (formatted_fat n fat) c = table_sectors n + c := by
  rw [formatted_fat_length fat h1 h32] at hlt
  unfold cluster_to_sector
  rw [formatted_data_start fat h1 h32]
  have hfew : table_sectors n < 2 ^ 31 := by
    unfold table_sectors
    omega
  omega

/-- And the cluster of a sector. -/
theorem formatted_cluster (h1 : 1 ≤ n) (h32 : n < 2 ^ 32) {c : ℕ} (hc : 1 ≤ c)
    (hlt : c < (formatted_fat n fat).fat_length) :
    sector_to_cluster (formatted_fat n fat) (table_sectors n + c) = c := by
  rw [formatted_fat_length fat h1 h32] at hlt
  unfold sector_to_cluster
  rw [formatted_data_start fat h1 h32]
  have hfew : table_sectors n < 2 ^ 31 := by
    unfold table_sectors
    omega
  omega

end Geometry

/-! ## The sectors of the clusters -/

/-- The clusters of a table lie on the disk, each on a sector of its own behind the table. -/
structure ClustersOnDisk (d : disk) (fs : fat_fs) : Prop where
  behind_table : ∀ c, 1 ≤ c → c < fs.fat_length → fs.data_start ≤ cluster_to_sector fs c
  on_disk : ∀ c, 1 ≤ c → c < fs.fat_length → cluster_to_sector fs c < disk_size d
  selects : ∀ c, 1 ≤ c → c < fs.fat_length → select_sector d (cluster_to_sector fs c)
  inj : ∀ c c', 1 ≤ c → c < fs.fat_length → 1 ≤ c' → c' < fs.fat_length →
    cluster_to_sector fs c = cluster_to_sector fs c' → c = c'
  inverse : ∀ c, 1 ≤ c → c < fs.fat_length → sector_to_cluster fs (cluster_to_sector fs c) = c

/-- The last entry of the table has the last sector. -/
theorem clusters_on_disk_of_fit (d : disk) (fat : ℕ → ℕ) (h1 : 1 ≤ disk_size d)
    (h32 : disk_size d < 2 ^ 32)
    (hfit : table_sectors (disk_size d) + 128 * (table_sectors (disk_size d) % 2 ^ 23)
      ≤ min (disk_size d) (2 ^ 28)) : ClustersOnDisk d (formatted_fat (disk_size d) fat) := by
  have hsec := fun {c} => formatted_sector fat h1 h32 (c := c)
  have hlen := formatted_fat_length fat h1 h32
  obtain ⟨hsize, hdriver⟩ := le_min_iff.mp hfit
  refine ⟨fun c hc hlt => ?_, fun c hc hlt => ?_, fun c hc hlt => ?_,
    fun c c' hc hlt hc' hlt' heq => ?_, fun c hc hlt => ?_⟩
  · rw [hsec hc hlt, formatted_data_start fat h1 h32]
    omega
  · rw [hsec hc hlt]
    omega
  · rw [hsec hc hlt]
    constructor
    · show table_sectors (disk_size d) + c < disk_size d
      omega
    · omega
  · rw [hsec hc hlt, hsec hc' hlt'] at heq
    omega
  · rw [hsec hc hlt]
    exact formatted_cluster fat h1 h32 hc hlt

/-- **Whether all clusters lie on the disk** depends on its size alone: the table and the clusters
it has entries for must fit. Up to the size that the driver can address, that is so for the
multiples of 129. -/
theorem clusters_on_disk_iff (d : disk) (fat : ℕ → ℕ) (h4 : 4 ≤ disk_size d)
    (h32 : disk_size d < 2 ^ 32) :
    (ClustersOnDisk d (formatted_fat (disk_size d) fat) ↔
      table_sectors (disk_size d) + 128 * (table_sectors (disk_size d) % 2 ^ 23)
        ≤ min (disk_size d) (2 ^ 28))
    ∧ (disk_size d ≤ 2 ^ 28 →
      (ClustersOnDisk d (formatted_fat (disk_size d) fat) ↔ disk_size d % 129 = 0)) := by
  have h1 : 1 ≤ disk_size d := by omega
  have hiff : ClustersOnDisk d (formatted_fat (disk_size d) fat) ↔
      table_sectors (disk_size d) + 128 * (table_sectors (disk_size d) % 2 ^ 23)
        ≤ min (disk_size d) (2 ^ 28) := by
    refine ⟨fun h => ?_, clusters_on_disk_of_fit d fat h1 h32⟩
    have hlen := formatted_fat_length fat h1 h32
    by_cases hempty : table_sectors (disk_size d) % 2 ^ 23 = 0
    · -- a table without entries
      rw [hempty]
      unfold table_sectors
      apply le_min
      · omega
      · omega
    · have hlast : 128 * (table_sectors (disk_size d) % 2 ^ 23) - 1
          < (formatted_fat (disk_size d) fat).fat_length := by
        rw [hlen]
        omega
      have hsel := h.selects _ (by omega) hlast
      rw [formatted_sector fat h1 h32 (by omega) hlast] at hsel
      obtain ⟨hcap, hdriver⟩ := hsel
      have hcap' : table_sectors (disk_size d)
          + (128 * (table_sectors (disk_size d) % 2 ^ 23) - 1) < disk_size d := hcap
      apply le_min
      · omega
      · omega
  refine ⟨hiff, fun h28 => ?_⟩
  rw [hiff, min_eq_left h28]
  have hfew : table_sectors (disk_size d) < 2 ^ 23 := by
    unfold table_sectors
    omega
  rw [Nat.mod_eq_of_lt hfew]
  unfold table_sectors
  omega

/-- A disk without contents. -/
def empty_disk (capacity : ℕ) : disk where
  capacity := capacity
  sectors _ := zeros
  written := []

/-- The theorem at a disk of 4128 sectors. -/
theorem clusters_of_4128 : ClustersOnDisk (empty_disk 4128) (formatted_fat 4128 fun _ => 0) :=
  ((clusters_on_disk_iff (empty_disk 4128) (fun _ => 0) (by decide) (by decide)).2 (by decide)).mpr
    (by decide)

/-- A disk of 4096 sectors, which is 2 MB, has no sector for the cluster 4095. -/
theorem cluster_4095_of_4096 :
    ¬ ClustersOnDisk (empty_disk 4096) (formatted_fat 4096 fun _ => 0) := by
  intro h
  have hsel := (h.selects 4095 (by decide) (by decide)).1
  exact absurd hsel (by decide)

/-! ## The search, after any calls -/

/-- A call that changes the table. -/
inductive fat_call
  | create_chain (clst : ℕ)
  | remove_chain (clst pclst : ℕ)
  deriving DecidableEq, Repr

/-- One call. -/
def fat_step (fs : fat_fs) : fat_call → Outcome fat_fs
  | .create_chain clst => do
      let (_, fs) ← fat_create_chain fs clst
      return fs
  | .remove_chain clst pclst => fat_remove_chain fs clst pclst

/-- A sequence of calls. -/
def fat_calls : List fat_call → fat_fs → Outcome fat_fs
  | [], fs => .ok fs
  | call :: calls, fs => do
      let fs ← fat_step fs call
      fat_calls calls fs

/-- The search ends inside the table, and is exact. -/
structure SearchExact (fs : fat_fs) (c : ℕ) : Prop where
  returns : find_free_cluster fs = .ok c
  free : c ≠ 0 → 2 ≤ c ∧ c < fs.fat_length ∧ fs.fat c = 0
  full : c = 0 ↔ ∀ k, 2 ≤ k → k < fs.fat_length → fs.fat k ≠ 0

section Calls

variable {fs fs' : fat_fs} {clst : ℕ}

/-- A table that differs in its entries and in the place where the search starts. -/
theorem fat_fs.Wf.rewrite (h : fs.Wf) (fat : ℕ → ℕ) {last : ℕ} (h2 : 2 ≤ last)
    (hlt : last < fs.fat_length) : ({ fs with fat := fat, last_clst := last } : fat_fs).Wf where
  two_lt := h.two_lt
  length_le := h.length_le
  start_pos := h.start_pos
  no_wrap := h.no_wrap
  last_ge := h2
  last_lt := hlt

theorem fat_put_wf {c v : ℕ} (h : fs.Wf) (hput : fat_put fs c v = .ok fs') : fs'.Wf := by
  unfold fat_put at hput
  split at hput
  · obtain rfl := Outcome.ok.inj hput
    exact h.rewrite _ h.last_ge h.last_lt
  · cases hput

theorem fat_create_chain_wf {c : ℕ} (h : fs.Wf) (hrun : fat_create_chain fs clst = .ok (c, fs')) :
    fs'.Wf := by
  obtain ⟨-, -, hrun⟩ := Outcome.bind_eq_ok.mp hrun
  obtain ⟨new_clst, hfind, hrun⟩ := Outcome.bind_eq_ok.mp hrun
  split at hrun
  · obtain ⟨-, rfl⟩ := Outcome.ok_pair hrun
    exact h
  · rename_i hne
    obtain ⟨-, h2, hlt, -⟩ := find_free_cluster_pos h hfind hne
    obtain ⟨fs₁, hput, hrun⟩ := Outcome.bind_eq_ok.mp hrun
    have hclaimed : ({ fs₁ with last_clst := new_clst } : fat_fs).Wf := by
      rw [fat_put_ok hlt] at hput
      obtain rfl := Outcome.ok.inj hput
      exact h.rewrite _ h2 hlt
    split at hrun
    · obtain ⟨-, rfl⟩ := Outcome.ok_pair hrun
      exact hclaimed
    · obtain ⟨last, -, hrun⟩ := Outcome.bind_eq_ok.mp hrun
      obtain ⟨fs₂, hlink, hrun⟩ := Outcome.bind_eq_ok.mp hrun
      obtain ⟨-, rfl⟩ := Outcome.ok_pair hrun
      exact fat_put_wf hclaimed hlink

theorem fat_remove_chain_loop_wf (fuel : ℕ) : ∀ {fs clst}, fs.Wf →
    fat_remove_chain_loop fuel fs clst = .ok fs' → fs'.Wf := by
  induction fuel with
  | zero =>
      intro fs clst _ hrun
      cases hrun
  | succ fuel ih =>
      intro fs clst h hrun
      rw [fat_remove_chain_loop] at hrun
      split at hrun
      · obtain rfl := Outcome.ok.inj hrun
        exact h
      · obtain ⟨next, -, hrun⟩ := Outcome.bind_eq_ok.mp hrun
        obtain ⟨fs₁, hput, hrun⟩ := Outcome.bind_eq_ok.mp hrun
        have h₁ := fat_put_wf h hput
        apply ih _ hrun
        split
        · exact h₁.rewrite _ le_rfl h₁.two_lt
        · exact h₁

theorem fat_remove_chain_wf {pclst : ℕ} (h : fs.Wf)
    (hrun : fat_remove_chain fs clst pclst = .ok fs') : fs'.Wf := by
  obtain ⟨-, -, hrun⟩ := Outcome.bind_eq_ok.mp hrun
  dsimp only at hrun
  split at hrun
  · obtain ⟨fs₁, hcut, hrun⟩ := Outcome.bind_eq_ok.mp hrun
    exact fat_remove_chain_loop_wf _ (fat_put_wf h hcut) hrun
  · exact fat_remove_chain_loop_wf _ h hrun

/-- One call keeps the table well-formed. -/
theorem fat_step_wf {call : fat_call} (h : fs.Wf)
    (hstep : fat_step fs call = .ok fs') : fs'.Wf := by
  cases call with
  | create_chain clst =>
      obtain ⟨⟨c, fs₁⟩, hrun, hret⟩ := Outcome.bind_eq_ok.mp hstep
      obtain rfl := Outcome.ok.inj hret
      exact fat_create_chain_wf h hrun
  | remove_chain clst pclst => exact fat_remove_chain_wf h hstep

/-- And so do all calls. -/
theorem fat_calls_wf (calls : List fat_call) : ∀ {fs}, fs.Wf → fat_calls calls fs = .ok fs'
    → fs'.Wf := by
  induction calls with
  | nil =>
      intro fs h hrun
      obtain rfl := Outcome.ok.inj hrun
      exact h
  | cons call calls ih =>
      intro fs h hrun
      obtain ⟨fs₁, hstep, hrest⟩ := Outcome.bind_eq_ok.mp hrun
      exact ih (fat_step_wf h hstep) hrest

/-- **The search is exact** from a place that is not the end of the table, if the cluster there is
in use or not the only free one. -/
theorem search_exact_iff (h : fs.Wf) : (∃ c, SearchExact fs c) ↔ fs.last_clst + 1 < fs.fat_length
    ∧ (fs.fat fs.last_clst ≠ 0
      ∨ ∃ k, 2 ≤ k ∧ k < fs.fat_length ∧ k ≠ fs.last_clst ∧ fs.fat k = 0) := by
  have hlast := h.last_lt
  constructor
  · rintro ⟨c, hfind, hfree, hfull⟩
    have hlt : fs.last_clst + 1 < fs.fat_length := by
      by_contra hend
      rw [find_free_cluster_undefined (by omega)] at hfind
      cases hfind
    refine ⟨hlt, ?_⟩
    by_cases hc : c = 0
    · exact .inl (hfull.mp hc fs.last_clst h.last_ge hlast)
    · -- what was found is not the cluster the search began behind
      right
      obtain ⟨h2, hclt, hzero⟩ := hfree hc
      rw [find_free_cluster_eq h hlt] at hfind
      cases hf : (search_order fs).find? (fun k => fs.fat k = 0) with
      | none =>
          rw [hf] at hfind
          exact absurd (Outcome.ok.inj hfind).symm hc
      | some k =>
          rw [hf] at hfind
          obtain rfl : k = c := Outcome.ok.inj hfind
          exact ⟨k, h2, hclt, ((mem_search_order h).mp (List.mem_of_find?_eq_some hf)).2.2, hzero⟩
  · rintro ⟨hlt, hor⟩
    obtain ⟨c, hfind⟩ : ∃ c, find_free_cluster fs = .ok c := ⟨_, find_free_cluster_eq h hlt⟩
    refine ⟨c, hfind, fun hc => (find_free_cluster_pos h hfind hc).2, ?_⟩
    constructor
    · rintro rfl k h2 hklt hfree
      have hunseen := find_free_cluster_zero h hfind
      by_cases hk : k = fs.last_clst
      · rcases hor with hused | ⟨j, hj2, hjlt, hne, hjfree⟩
        · exact hused (hk ▸ hfree)
        · exact hunseen j hj2 hjlt hne hjfree
      · exact hunseen k h2 hklt hk hfree
    · intro hall
      by_contra hc
      obtain ⟨-, h2, hclt, hfree⟩ := find_free_cluster_pos h hfind hc
      exact hall c h2 hclt hfree

/-- **Exactness of the search**, for a table with any contents after any calls. -/
theorem find_free_cluster_exact_iff {fs₀ : fat_fs} (h₀ : fs₀.Wf) (calls : List fat_call)
    (hrun : fat_calls calls fs₀ = .ok fs) :
    (∃ c, SearchExact fs c) ↔ fs.last_clst + 1 < fs.fat_length
      ∧ (fs.fat fs.last_clst ≠ 0
        ∨ ∃ k, 2 ≤ k ∧ k < fs.fat_length ∧ k ≠ fs.last_clst ∧ fs.fat k = 0) :=
  search_exact_iff (fat_calls_wf calls h₀ hrun)

end Calls

/-- A table that is full up to its last entry. -/
def full_up_to_last : fat_fs := formatted_fat 4 fun k => if k = 127 then 0 else EOChain

theorem full_up_to_last_wf : full_up_to_last.Wf := formatted_fat_wf _ (by decide) (by decide)

/-- The theorem at that table: cluster 127 is found. -/
theorem finds_127 : full_up_to_last.Wf ∧ fat_calls [] full_up_to_last = .ok full_up_to_last
    ∧ ∃ c, SearchExact full_up_to_last c :=
  ⟨full_up_to_last_wf, rfl,
    (find_free_cluster_exact_iff full_up_to_last_wf [] rfl).mpr ⟨by decide, .inl (by decide)⟩⟩

/-- Once it is allocated, the next search reads the entry 128 of 128. -/
theorem search_leaves_table : ∃ fs, fat_calls [.create_chain 0] full_up_to_last = .ok fs
    ∧ find_free_cluster fs = .undefined ∧ ¬ ∃ c, SearchExact fs c := by
  have hfind : find_free_cluster full_up_to_last = .ok 127 := by decide +kernel
  have hcreate := fat_create_chain_start full_up_to_last_wf hfind (by decide)
  refine ⟨claim_cluster full_up_to_last 127, ?_, ?_, ?_⟩
  · show (fat_create_chain full_up_to_last 0 >>= fun r => .ok r.2) >>= _ = _
    rw [hcreate]
    rfl
  · exact find_free_cluster_undefined rfl
  · rintro ⟨c, hc⟩
    have hreturns := hc.returns
    rw [find_free_cluster_undefined rfl] at hreturns
    cases hreturns

end Pintos
