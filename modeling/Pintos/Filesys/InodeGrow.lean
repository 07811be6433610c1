/-
Growing a file: the extension part of `inode_write_at`.

A write past the end of the file first fills up the last sector, then appends
one cluster for every further 512 bytes. How many clusters that is depends only
on the old length and the new one (`grow_clusters`). The count takes it for
granted that the old end of the file lies *inside* a cluster. It does, unless
the length is a positive multiple of 512 and the chain has no cluster to spare:
then `512 - length % 512` counts a whole sector that does not exist, and the
file ends up one cluster short (`inode_write_at_growth`).

The root directory has its own limit. The walk of `fat_create_chain` stops at
`ROOT_DIR_CLUSTER`, so each new cluster replaces the second one of the chain.
-/
import Pintos.Filesys.InodeAccess

set_option autoImplicit false

namespace Pintos

/-! ## Appending zeroed clusters -/

/-- The disk after the clusters `cs` have been zeroed. -/
def zero_clusters (d : disk) (fs : fat_fs) : List ℕ → disk
  | [] => d
  | c :: cs => zero_clusters (d.put (cluster_to_sector fs c) zeros) fs cs

theorem zero_clusters_congr {fs fs' : fat_fs} (h : fs'.data_start = fs.data_start) (cs : List ℕ) :
    ∀ d, zero_clusters d fs' cs = zero_clusters d fs cs := by
  induction cs with
  | nil => intro d; rfl
  | cons c cs ih =>
      intro d
      rw [zero_clusters, zero_clusters, cluster_to_sector_congr h, ih]

@[simp] theorem zero_clusters_capacity (fs : fat_fs) (cs : List ℕ) :
    ∀ d, (zero_clusters d fs cs).capacity = d.capacity := by
  induction cs with
  | nil => intro d; rfl
  | cons c cs ih => exact fun d => (ih _).trans rfl

theorem zero_clusters_frame (fs : fat_fs) (cs : List ℕ) {s : ℕ} :
    ∀ d, (∀ c ∈ cs, s ≠ cluster_to_sector fs c) →
      (zero_clusters d fs cs).sectors s = d.sectors s := by
  induction cs with
  | nil => intro d _; rfl
  | cons c cs ih =>
      intro d hs
      rw [zero_clusters, ih _ fun k hk => hs k (List.mem_cons_of_mem _ hk)]
      exact disk.put_sectors_of_ne (hs c List.mem_cons_self)

theorem zero_clusters_mem (fs : fat_fs) (cs : List ℕ) {s : ℕ} :
    ∀ d, (∃ c ∈ cs, s = cluster_to_sector fs c) → (zero_clusters d fs cs).sectors s = zeros := by
  induction cs with
  | nil => simp
  | cons k cs ih =>
      intro d hs
      by_cases hlater : ∃ c ∈ cs, s = cluster_to_sector fs c
      · exact ih _ hlater
      · rw [zero_clusters, zero_clusters_frame fs cs _ fun c hc heq => hlater ⟨c, hc, heq⟩]
        obtain ⟨c, hc, rfl⟩ := hs
        rcases List.mem_cons.mp hc with rfl | hc
        · exact disk.put_sectors_self _ _ _
        · exact absurd ⟨c, hc, rfl⟩ hlater

/-- One step of the extension loop, on a chain whose walk reaches its end. -/
theorem inode_extend_loop_step {fuel : ℕ} {d : disk} {fs : fat_fs} {ino : inode} {t c : ℕ} {r : ℤ}
    (hr : 0 < r) (hcreate : fat_create_chain fs ino.data.start = .ok (c, append_cluster fs t c))
    (hsel : select_sector d (cluster_to_sector fs c)) :
    inode_extend_loop (fuel + 1) d fs ino r
      = inode_extend_loop fuel (d.put (cluster_to_sector fs c) zeros) (append_cluster fs t c)
          (ino.set_data ino.data.start (ino.data.length + if r < 512 then r else 512))
          (r - 512) := by
  rw [inode_extend_loop, if_neg (by omega), hcreate]
  simp only [Outcome.ok_bind, cluster_to_sector_append_cluster, disk_write_ok hsel]

/-! ## The extension loop

The loop has one turn for every 512 bytes that are left, whether the searches deliver or not: a
turn without a cluster zeroes "cluster 0", the sector in front of the data area. -/

/-- Where `fat_create_chain` puts a cluster on the chain of `start`: behind the last one, unless the
walk is held up at `ROOT_DIR_CLUSTER`. Where the search finds nothing, it does not matter. -/
inductive AppendsAt (fs : fat_fs) (start : ℕ) : ℕ → Prop
  | root : start = ROOT_DIR_CLUSTER → fs.fat ROOT_DIR_CLUSTER ≠ 0 →
      AppendsAt fs start ROOT_DIR_CLUSTER
  | chain (l : List ℕ) (t : ℕ) : Chain fs start (l ++ [t]) → ROOT_DIR_CLUSTER ∉ l ++ [t] →
      AppendsAt fs start t
  | full (t : ℕ) : start < fs.fat_length → find_free_cluster fs = .ok 0 → AppendsAt fs start t

/-- Where the next cluster goes, once `c` is behind `t`. -/
def next_end (start t c : ℕ) : ℕ := if start = ROOT_DIR_CLUSTER then t else c

/-- The table after the clusters `cs` have been put on the chain of `start`, one by one. -/
def append_all (start : ℕ) : fat_fs → ℕ → List ℕ → fat_fs
  | fs, _, [] => fs
  | fs, t, c :: cs => append_all start (append_cluster fs t c) (next_end start t c) cs

section AppendsAt

variable {fs : fat_fs} {start t c : ℕ}

theorem AppendsAt.start_lt (hwf : fs.Wf) (h : AppendsAt fs start t) : start < fs.fat_length := by
  cases h with
  | root hstart _ =>
      have := hwf.two_lt
      rw [hstart, ROOT_DIR_CLUSTER]
      omega
  | chain l t hch _ => exact (hch.range _ (hch.path.start_mem (by simp))).2
  | full t hlt _ => exact hlt

/-- One cluster is put on the chain. -/
theorem AppendsAt.step (hwf : fs.Wf) (h : AppendsAt fs start t)
    (hfind : find_free_cluster fs = .ok c) (hc0 : c ≠ 0) :
    fat_create_chain fs start = .ok (c, append_cluster fs t c)
      ∧ (append_cluster fs t c).Wf
      ∧ AppendsAt (append_cluster fs t c) start (next_end start t c)
      ∧ ∀ n, handout (append_cluster fs t c) n = handout (claim_cluster fs c) n := by
  obtain ⟨-, h2, hlt, hfree⟩ := find_free_cluster_pos hwf hfind hc0
  have hwf' : (append_cluster fs t c).Wf := append_cluster_wf hwf h2 hlt
  unfold next_end
  cases h with
  | root hstart hused =>
      rw [if_pos hstart, hstart]
      refine ⟨fat_create_chain_root hwf hfind hc0, hwf', .root rfl ?_,
        fun n => handout_append_cluster hused hfree hc0⟩
      rw [append_cluster_fat_tail]
      exact hc0
  | chain l t hch hroot =>
      have hstart : start ≠ ROOT_DIR_CLUSTER := fun h1 =>
        hroot (h1 ▸ hch.path.start_mem (by simp))
      rw [if_neg hstart]
      refine ⟨fat_create_chain_extend hwf hfind hc0 hch fun h1 => hroot (List.mem_append_left _ h1),
        hwf', .chain _ c (chain_append_cluster hwf.toGeometry hch hfree (by omega) hlt) ?_,
        fun n => handout_append_cluster (hch.entry_ne_zero (by simp)) hfree hc0⟩
      intro h1
      rcases List.mem_append.mp h1 with h1 | h1
      · exact hroot h1
      · have := List.mem_singleton.mp h1
        unfold ROOT_DIR_CLUSTER at this
        omega
  | full t _ hfull =>
      rw [hfull] at hfind
      exact absurd (Outcome.ok.inj hfind).symm hc0

theorem handout_none (hfind : find_free_cluster fs = .ok 0) (n : ℕ) : handout fs n = .ok [] := by
  cases n with
  | zero => rfl
  | succ n =>
      rw [handout, hfind]
      rfl

theorem handout_succ (hfind : find_free_cluster fs = .ok c) (hc0 : c ≠ 0) {n : ℕ} {cs : List ℕ} :
    handout fs (n + 1) = .ok cs ↔ ∃ cs', handout (claim_cluster fs c) n = .ok cs'
      ∧ cs = c :: cs' := by
  rw [handout, hfind, Outcome.ok_bind, if_neg hc0, Outcome.bind_eq_ok]
  constructor
  · rintro ⟨cs', hcs', heq⟩
    exact ⟨cs', hcs', (Outcome.ok.inj heq).symm⟩
  · rintro ⟨cs', hcs', rfl⟩
    exact ⟨cs', hcs', rfl⟩

end AppendsAt

/-- What is zeroed in `n` turns for which the searches hand out `cs`. -/
def turn_clusters (cs : List ℕ) (n : ℕ) : List ℕ := cs ++ List.replicate (n - cs.length) 0

theorem turn_clusters_full {cs : List ℕ} {n : ℕ} (h : cs.length = n) : turn_clusters cs n = cs := by
  rw [turn_clusters, h, Nat.sub_self, List.replicate_zero, List.append_nil]

theorem turn_clusters_cons (c : ℕ) (cs : List ℕ) (n : ℕ) :
    turn_clusters (c :: cs) (n + 1) = c :: turn_clusters cs n := by
  rw [turn_clusters, turn_clusters, List.length_cons, Nat.add_sub_add_right, List.cons_append]

theorem turn_clusters_nil (n : ℕ) : turn_clusters [] (n + 1) = 0 :: turn_clusters [] n := rfl

/-- The length grows by what one turn takes and by what the others take. -/
theorem turn_length (k r : ℤ) (hr : 0 < r) :
    k + (if r < 512 then r else 512) + max (r - 512) 0 = k + max r 0 := by
  split_ifs <;> omega

/-- A turn whose `fat_create_chain` returns `c`. -/
theorem inode_extend_loop_turn {fuel c : ℕ} {d : disk} {fs fs' : fat_fs} {ino : inode} {r : ℤ}
    (res : disk × fat_fs × inode) (hr : 0 < r)
    (hcreate : fat_create_chain fs ino.data.start = .ok (c, fs')) :
    inode_extend_loop (fuel + 1) d fs ino r = .ok res
      ↔ select_sector d (cluster_to_sector fs' c)
        ∧ inode_extend_loop fuel (d.put (cluster_to_sector fs' c) zeros) fs'
            (ino.set_data ino.data.start (ino.data.length + if r < 512 then r else 512)) (r - 512)
          = .ok res := by
  rw [inode_extend_loop, if_neg (by omega), hcreate]
  simp only [Outcome.ok_bind]
  constructor
  · intro h
    obtain ⟨d', hd', h⟩ := Outcome.bind_eq_ok.mp h
    obtain ⟨hsel, rfl⟩ := disk_write_eq_ok.mp hd'
    exact ⟨hsel, h⟩
  · rintro ⟨hsel, h⟩
    rw [disk_write_ok hsel, Outcome.ok_bind, h]

/-- What the extension loop leaves, after `n` turns for which the searches hand out `cs`. -/
def ExtendLoopDone (n : ℕ) (d : disk) (fs : fat_fs) (ino : inode) (start t : ℕ) (r : ℤ)
    (res : disk × fat_fs × inode) (cs : List ℕ) : Prop :=
  handout fs n = .ok cs
    ∧ (∀ c ∈ turn_clusters cs n, select_sector d (cluster_to_sector fs c))
    ∧ res = (zero_clusters d fs (turn_clusters cs n), append_all start fs t cs,
        ino.set_data start (ino.data.length + max r 0))

/-- **The extension loop**: it returns if no search leaves the table and every sector it zeroes is
on the disk. The length grows by what was left, and the clusters handed out are put on the chain. -/
theorem inode_extend_loop_eq_ok (n : ℕ) : ∀ {fuel : ℕ} {d : disk} {fs : fat_fs} {ino : inode}
    {start t : ℕ} {r : ℤ} (res : disk × fat_fs × inode), fs.Wf → ino.data.start = start →
      AppendsAt fs start t → r ≤ 512 * n → 512 * n < max r 0 + 512 → n < fuel →
        (inode_extend_loop fuel d fs ino r = .ok res
          ↔ ∃ cs, ExtendLoopDone n d fs ino start t r res cs) := by
  unfold ExtendLoopDone
  induction n with
  | zero =>
      intro fuel d fs ino start t r res _ hstart _ hr _ hf
      obtain ⟨fuel, rfl⟩ : ∃ m, fuel = m + 1 := ⟨fuel - 1, by omega⟩
      have hr' : r ≤ 0 := by simpa using hr
      rw [inode_extend_loop, if_pos hr', max_eq_right hr', Int.add_zero, ← hstart]
      constructor
      · intro h
        exact ⟨[], rfl, by simp [turn_clusters], (Outcome.ok.inj h).symm⟩
      · rintro ⟨cs, hcs, -, hres⟩
        obtain rfl : [] = cs := Outcome.ok.inj hcs
        rw [hres]
        rfl
  | succ n ih =>
      intro fuel d fs ino start t r res hwf hstart happ hr hr' hf
      obtain ⟨fuel, rfl⟩ : ∃ m, fuel = m + 1 := ⟨fuel - 1, by omega⟩
      push_cast at hr hr'
      have hr0 : 0 < r := by omega
      have hlt := happ.start_lt hwf
      rcases find_free_cluster_total hwf with ⟨c, hfind⟩ | hfind
      · by_cases hc0 : c = 0
        · -- nothing is found: the turn zeroes "cluster 0", and so do all that follow
          rw [hc0] at hfind
          rw [inode_extend_loop_turn res hr0 (hstart ▸ fat_create_chain_full hlt hfind), hstart,
            ih res hwf (inode.set_data_start _ _ _) happ (by omega) (by omega) (by omega)]
          simp only [handout_none hfind, Outcome.ok.injEq, exists_eq_left', turn_clusters_nil,
            List.forall_mem_cons, inode.set_data_set_data, inode.set_data_length,
              turn_length _ r hr0,
            zero_clusters, and_assoc, disk.select_sector_put]
        · -- a cluster is put on the chain
          obtain ⟨hcreate, hwf', happ', hhandout⟩ := happ.step hwf hfind hc0
          rw [inode_extend_loop_turn res hr0 (hstart ▸ hcreate), hstart,
            ih res hwf' (inode.set_data_start _ _ _) happ' (by omega) (by omega) (by omega)]
          have hds : (append_cluster fs t c).data_start = fs.data_start := rfl
          simp only [hhandout, handout_succ hfind hc0, inode.set_data_set_data,
            inode.set_data_length, turn_length _ r hr0, zero_clusters_congr hds,
            cluster_to_sector_append_cluster, disk.select_sector_put]
          constructor
          · rintro ⟨hsel, cs, hcs, hsels, rfl⟩
            refine ⟨c :: cs, ⟨cs, hcs, rfl⟩, ?_, ?_⟩
            · rw [turn_clusters_cons]
              exact List.forall_mem_cons.mpr ⟨hsel, hsels⟩
            · rw [turn_clusters_cons, zero_clusters, append_all]
          · rintro ⟨_, ⟨cs, hcs, rfl⟩, hsels, rfl⟩
            rw [turn_clusters_cons] at hsels
            obtain ⟨hsel, hsels⟩ := List.forall_mem_cons.mp hsels
            refine ⟨hsel, cs, hcs, hsels, ?_⟩
            rw [turn_clusters_cons, zero_clusters, append_all]
      · -- the search leaves the table
        rw [inode_extend_loop, if_neg (by omega), hstart, fat_create_chain_undefined hlt hfind]
        simp only [handout, hfind]
        refine iff_of_false (fun h => by cases h) ?_
        rintro ⟨cs, hcs, -⟩
        cases hcs

/-! ## The extension as a whole -/

/-- How many clusters the extension from length `len` to `extend_size` asks for:
one for an inode without a chain, and one for every sector behind the one that
`len` falls into. -/
def grow_clusters (start len extend_size : ℕ) : ℕ :=
  (if start = 0 then 1 else 0) + ((extend_size + 511) / 512 - (len / 512 + 1))

/-- The chain after the clusters `cs` have been appended to the chain `l`. -/
def grown (start : ℕ) (l cs : List ℕ) : List ℕ :=
  if h : start = ROOT_DIR_CLUSTER ∧ cs ≠ [] then [ROOT_DIR_CLUSTER, cs.getLast h.2] else l ++ cs

/-- The searches hand out `n` clusters, all of them on the disk. -/
def Delivers (d : disk) (fs : fat_fs) (n : ℕ) : Prop :=
  ∃ cs, handout fs n = .ok cs ∧ cs.length = n ∧ ∀ c ∈ cs, select_sector d (cluster_to_sector fs c)

/-- An inode whose chain covers its length: the standing assumption, with
what the rest of the kernel maintains about chains, table and disk. -/
structure Covered (d : disk) (fs : fat_fs) (ino : inode) (l : List ℕ) : Prop where
  wf : fs.Wf
  chain : DataChain fs ino.data.start l
  length_nonneg : 0 ≤ ino.data.length
  length_lt : ino.data.length < 2 ^ 31
  covers : ino.data.length ≤ 512 * l.length
  on_disk : ∀ k ∈ l, select_sector d (cluster_to_sector fs k)
  inode_on_disk : select_sector d ino.sector
  /-- Cluster 1 is never free, so no chain but the root directory's has it. -/
  root : ROOT_DIR_CLUSTER ∉ l.tail

/-- What of it the table needs. -/
structure Linked (fs : fat_fs) (start : ℕ) (l : List ℕ) : Prop where
  wf : fs.Wf
  chain : DataChain fs start l
  root : ROOT_DIR_CLUSTER ∉ l.tail

theorem Covered.linked {d : disk} {fs : fat_fs} {ino : inode} {l : List ℕ}
    (h : Covered d fs ino l) : Linked fs ino.data.start l := ⟨h.wf, h.chain, h.root⟩

/-- The first assignments of the extension, in front of the loop, for a file that
has a chain. -/
theorem inode_extend_chain {d : disk} {fs : fat_fs} {ino : inode} {len extend_size : ℕ}
    (hlen : ino.data.length = len) (hstart : ino.data.start ≠ 0) :
    inode_extend d fs ino extend_size
      = inode_extend_loop (extend_size + 1) d fs
          (ino.set_data ino.data.start
            (len + if (extend_size : ℤ) - len < 512 - ((len % 512 : ℕ) : ℤ)
              then (extend_size : ℤ) - len else 512 - ((len % 512 : ℕ) : ℤ)))
          ((extend_size : ℤ) - len - (512 - ((len % 512 : ℕ) : ℤ))) := by
  rw [inode_extend, if_neg hstart]
  simp only [Outcome.ok_bind, inode_length, hlen, tmod_512, Int.toNat_natCast]

/-- The same for a file that has none: its first cluster is claimed here, and not
zeroed. -/
theorem inode_extend_start {d : disk} {fs fs' : fat_fs} {ino : inode} {len extend_size c : ℕ}
    (hlen : ino.data.length = len) (hstart : ino.data.start = 0)
    (hc : fat_create_chain fs 0 = .ok (c, fs')) :
    inode_extend d fs ino extend_size
      = inode_extend_loop (extend_size + 1) d fs'
          (ino.set_data c
            (len + if (extend_size : ℤ) - len < 512 - ((len % 512 : ℕ) : ℤ)
              then (extend_size : ℤ) - len else 512 - ((len % 512 : ℕ) : ℤ)))
          ((extend_size : ℤ) - len - (512 - ((len % 512 : ℕ) : ℤ))) := by
  rw [inode_extend, if_pos hstart, hc]
  simp only [Outcome.ok_bind, inode_length, hlen, tmod_512, Int.toNat_natCast]

/-- The length after the extension is the new end. -/
theorem extended_length (len extend_size : ℕ) :
    (len : ℤ) + (if (extend_size : ℤ) - len < 512 - ((len % 512 : ℕ) : ℤ)
        then (extend_size : ℤ) - len else 512 - ((len % 512 : ℕ) : ℤ))
      + max ((extend_size : ℤ) - len - (512 - ((len % 512 : ℕ) : ℤ))) 0 = extend_size := by
  split_ifs <;> omega

/-- The clusters that the extension zeroes: the new ones, but not the first one of a file
that had none. -/
def zeroed_clusters (start : ℕ) (cs : List ℕ) : List ℕ := if start = 0 then cs.tail else cs

/-- The start of the chain after the clusters `cs` have been appended. -/
def grown_start (start : ℕ) (cs : List ℕ) : ℕ := if start = 0 then cs.headD 0 else start

/-- The table after the clusters `cs` have been appended to the chain `l`. -/
def grown_table (fs : fat_fs) (start : ℕ) (l : List ℕ) : List ℕ → fat_fs
  | [] => fs
  | c :: cs =>
      if start = 0 then append_all c (claim_cluster fs c) c cs
      else append_all start fs (if start = ROOT_DIR_CLUSTER then start else l.getLastD 0) (c :: cs)

/-- What the extension leaves when the searches hand out `cs`. -/
def ExtendDone (d : disk) (fs : fat_fs) (ino : inode) (l : List ℕ) (n extend_size : ℕ)
    (res : disk × fat_fs × inode) (cs : List ℕ) : Prop :=
  handout fs n = .ok cs
    ∧ (∀ c ∈ zeroed_clusters ino.data.start (turn_clusters cs n),
        select_sector d (cluster_to_sector fs c))
    ∧ res = (zero_clusters d fs (zeroed_clusters ino.data.start (turn_clusters cs n)),
        grown_table fs ino.data.start l cs,
        ino.set_data (grown_start ino.data.start cs) extend_size)

section Extension

variable {d : disk} {fs : fat_fs} {ino : inode} {l : List ℕ} {len extend_size n : ℕ}

/-- The turns of the extension loop. -/
theorem extend_turns (hn : n = (extend_size + 511) / 512 - (len / 512 + 1)) :
    (extend_size : ℤ) - len - (512 - ((len % 512 : ℕ) : ℤ)) ≤ 512 * n
      ∧ 512 * (n : ℤ) < max ((extend_size : ℤ) - len - (512 - ((len % 512 : ℕ) : ℤ))) 0 + 512
      ∧ n < extend_size + 1 := by
  omega

/-- **The extension of a file without clusters.** -/
theorem inode_extend_empty (hwf : fs.Wf) (res : disk × fat_fs × inode)
    (hlen : ino.data.length = len) (h0 : ino.data.start = 0)
    (hn : n = (extend_size + 511) / 512 - (len / 512 + 1)) :
    inode_extend d fs ino extend_size = .ok res
      ↔ ∃ cs, ExtendDone d fs ino [] (n + 1) extend_size res cs := by
  obtain ⟨hr, hr', hf⟩ := extend_turns hn
  have hlt : 0 < fs.fat_length := lt_trans Nat.zero_lt_two hwf.two_lt
  unfold ExtendDone
  simp only [h0, zeroed_clusters, grown_start, if_pos]
  rcases find_free_cluster_total hwf with ⟨c, hfind⟩ | hfind
  · by_cases hc0 : c = 0
    · -- not even the first cluster: the start stays 0, and the loop runs on "chain 0"
      rw [hc0] at hfind
      rw [inode_extend_start hlen h0 (fat_create_chain_full hlt hfind),
        inode_extend_loop_eq_ok n res hwf (inode.set_data_start _ _ _)
          (.full 0 hlt hfind) hr hr' hf]
      simp only [ExtendLoopDone, handout_none hfind, Outcome.ok.injEq, exists_eq_left',
        turn_clusters_nil, List.tail_cons, append_all, grown_table, inode.set_data_set_data,
        inode.set_data_length, extended_length, List.headD_nil]
    · obtain ⟨-, h2, hclt, hfree⟩ := find_free_cluster_pos hwf hfind hc0
      have hroot : ROOT_DIR_CLUSTER ∉ [] ++ [c] := by
        rw [List.nil_append, List.mem_singleton, ROOT_DIR_CLUSTER]
        omega
      have hds : (claim_cluster fs c).data_start = fs.data_start := rfl
      rw [inode_extend_start hlen h0 (fat_create_chain_start hwf hfind hc0),
        inode_extend_loop_eq_ok n res (claim_cluster_wf hwf h2 hclt) (inode.set_data_start _ _ _)
          (.chain [] c (chain_claim_cluster h2 hclt) hroot) hr hr' hf]
      simp only [ExtendLoopDone, handout_succ hfind hc0, inode.set_data_set_data,
        inode.set_data_length, extended_length, zero_clusters_congr hds,
        cluster_to_sector_claim_cluster]
      constructor
      · rintro ⟨cs, hcs, hsel, rfl⟩
        refine ⟨c :: cs, ⟨cs, hcs, rfl⟩, ?_, ?_⟩
        · rw [turn_clusters_cons, List.tail_cons]
          exact hsel
        · rw [turn_clusters_cons, List.tail_cons, grown_table, if_pos rfl, List.headD_cons]
      · rintro ⟨_, ⟨cs, hcs, rfl⟩, hsel, rfl⟩
        rw [turn_clusters_cons, List.tail_cons] at hsel
        refine ⟨cs, hcs, hsel, ?_⟩
        rw [turn_clusters_cons, List.tail_cons, grown_table, if_pos rfl, List.headD_cons]
  · rw [inode_extend, if_pos h0, fat_create_chain_undefined hlt hfind]
    simp only [handout, hfind]
    refine iff_of_false (fun h => by cases h) ?_
    rintro ⟨cs, hcs, -⟩
    cases hcs

/-- Where the walk ends in a file that has a chain. -/
theorem Linked.appendsAt (h : Linked fs ino.data.start l) (hl : l ≠ [])
    (hch : Chain fs ino.data.start l) :
    AppendsAt fs ino.data.start
      (if ino.data.start = ROOT_DIR_CLUSTER then ino.data.start else l.getLastD 0) := by
  split
  · rename_i hroot
    rw [hroot]
    refine .root rfl (hch.entry_ne_zero ?_)
    rw [← hroot]
    exact hch.path.start_mem hl
  · rename_i hroot
    obtain ⟨s, t, rfl⟩ : ∃ s t, l = s ++ [t] :=
      ⟨l.dropLast, l.getLast hl, (List.dropLast_append_getLast hl).symm⟩
    rw [List.getLastD_concat]
    refine .chain s t hch fun hmem => ?_
    -- cluster 1 is neither the start nor in the tail
    have htail := h.root
    cases hst : s ++ [t] with
    | nil => simp at hst
    | cons x xs =>
        rw [hst] at hmem htail hch
        rcases List.mem_cons.mp hmem with hx | hx
        · exact hroot (hch.path.1.trans hx.symm)
        · exact htail hx

/-- **The extension of a file that has a chain.** -/
theorem inode_extend_nonempty (h : Linked fs ino.data.start l) (res : disk × fat_fs × inode)
    (hlen : ino.data.length = len) (hl : l ≠ []) (hch : Chain fs ino.data.start l)
    (h0 : ino.data.start ≠ 0) (hn : n = (extend_size + 511) / 512 - (len / 512 + 1)) :
    inode_extend d fs ino extend_size = .ok res
      ↔ ∃ cs, ExtendDone d fs ino l n extend_size res cs := by
  obtain ⟨hr, hr', hf⟩ := extend_turns hn
  have htable : ∀ cs, grown_table fs ino.data.start l cs = append_all ino.data.start fs
      (if ino.data.start = ROOT_DIR_CLUSTER then ino.data.start else l.getLastD 0) cs := by
    intro cs
    cases cs with
    | nil => rfl
    | cons c cs => rw [grown_table, if_neg h0]
  rw [inode_extend_chain hlen h0, inode_extend_loop_eq_ok n res h.wf (inode.set_data_start _ _ _)
    (h.appendsAt hl hch) hr hr' hf]
  simp only [ExtendLoopDone, ExtendDone, zeroed_clusters, grown_start, if_neg h0, htable,
    inode.set_data_set_data, inode.set_data_length, extended_length]

/-- **The extension**, for every inode with a chain: it returns if no search
leaves the table and every sector it zeroes is on the disk. -/
theorem inode_extend_eq_ok (h : Linked fs ino.data.start l) (hlen : ino.data.length = len)
    (res : disk × fat_fs × inode) :
    inode_extend d fs ino extend_size = .ok res
      ↔ ∃ cs, ExtendDone d fs ino l (grow_clusters ino.data.start len extend_size) extend_size
          res cs := by
  unfold grow_clusters
  rcases h.chain with ⟨h0, rfl⟩ | ⟨hl, hch⟩
  · rw [if_pos h0, Nat.add_comm 1]
    exact inode_extend_empty h.wf res hlen h0 rfl
  · have h0 : ino.data.start ≠ 0 := by
      have := (hch.range _ (hch.path.start_mem hl)).1
      omega
    rw [if_neg h0, Nat.zero_add]
    exact inode_extend_nonempty h res hlen hl hch h0 rfl

/-! ### The chain afterwards -/

theorem append_all_eq_link {start : ℕ} (hstart : start ≠ ROOT_DIR_CLUSTER) (cs : List ℕ) :
    ∀ (fs : fat_fs) (t : ℕ), append_all start fs t cs = link_clusters fs t cs := by
  induction cs with
  | nil => intro fs t; rfl
  | cons c cs ih =>
      intro fs t
      rw [append_all, next_end, if_neg hstart, ih, link_clusters]

/-- On the root directory every cluster is put behind the first one, so that the last one stays. -/
theorem append_all_root (cs : List ℕ) : ∀ {fs : fat_fs} {l : List ℕ}, fs.Wf →
    Chain fs ROOT_DIR_CLUSTER l → (∀ c ∈ cs, 2 ≤ c ∧ c < fs.fat_length) →
      Chain (append_all ROOT_DIR_CLUSTER fs ROOT_DIR_CLUSTER cs) ROOT_DIR_CLUSTER
          (if h : cs = [] then l else [ROOT_DIR_CLUSTER, cs.getLast h])
        ∧ (append_all ROOT_DIR_CLUSTER fs ROOT_DIR_CLUSTER cs).Wf
        ∧ (append_all ROOT_DIR_CLUSTER fs ROOT_DIR_CLUSTER cs).data_start = fs.data_start := by
  induction cs with
  | nil =>
      intro fs l hwf hch _
      rw [dif_pos rfl]
      exact ⟨hch, hwf, rfl⟩
  | cons c cs ih =>
      intro fs l hwf hch hcs
      obtain ⟨h2, hlt⟩ := hcs c List.mem_cons_self
      have hcr : c ≠ ROOT_DIR_CLUSTER := by
        unfold ROOT_DIR_CLUSTER
        omega
      have h1 : ROOT_DIR_CLUSTER < fs.fat_length := by
        unfold ROOT_DIR_CLUSTER
        omega
      have hch' : Chain (append_cluster fs ROOT_DIR_CLUSTER c) ROOT_DIR_CLUSTER
          [ROOT_DIR_CLUSTER, c] := by
        refine ⟨⟨rfl, append_cluster_fat_tail, append_cluster_fat_new hcr⟩, fun k hk => ?_⟩
        rcases List.mem_pair.mp hk with rfl | rfl
        · exact ⟨le_rfl, h1⟩
        · exact ⟨by omega, hlt⟩
      obtain ⟨hend, hwf', hds⟩ := ih (append_cluster_wf hwf h2 hlt) hch'
        fun k hk => hcs k (List.mem_cons_of_mem _ hk)
      rw [append_all, next_end, if_pos rfl]
      refine ⟨?_, hwf', hds⟩
      rw [dif_neg (by simp)]
      by_cases hnil : cs = []
      · rw [dif_pos hnil] at hend
        simpa [hnil] using hend
      · rw [dif_neg hnil] at hend
        rwa [List.getLast_cons hnil]

/-- **The chain of the grown file.** -/
theorem grown_table_spec {start : ℕ} {cs : List ℕ} (hwf : fs.Wf) (hch : DataChain fs start l)
    (hroot : ROOT_DIR_CLUSTER ∉ l.tail) (hcs : handout fs n = .ok cs) :
    DataChain (grown_table fs start l cs) (grown_start start cs) (grown start l cs)
      ∧ (grown_table fs start l cs).Wf
      ∧ (grown_table fs start l cs).data_start = fs.data_start := by
  obtain ⟨-, hnd, hfree⟩ := handout_spec _ hwf hcs
  cases cs with
  | nil =>
      have hg : grown start l [] = l := by
        rw [grown, dif_neg fun h => h.2 rfl, List.append_nil]
      have hs : grown_start start [] = start := by
        unfold grown_start
        split
        · rename_i h0
          exact h0.symm
        · rfl
      rw [hg, hs]
      exact ⟨hch, hwf, rfl⟩
  | cons c cs =>
      have h2 := (hfree c List.mem_cons_self).1
      rcases hch with ⟨h0, rfl⟩ | ⟨hl, hch⟩
      · have hg : grown start [] (c :: cs) = c :: cs := by
          rw [grown, dif_neg, List.nil_append]
          rw [h0]
          exact fun h => absurd h.1 (by decide)
        have hc : c ≠ ROOT_DIR_CLUSTER := by
          unfold ROOT_DIR_CLUSTER
          omega
        obtain ⟨hch, -, hwf', -, hds⟩ := link_handout hwf hcs
        rw [hg, grown_start, if_pos h0, grown_table, if_pos h0, append_all_eq_link hc]
        exact ⟨.inr ⟨by simp, hch⟩, hwf', hds⟩
      · have hlt := hch.range _ (hch.path.start_mem hl)
        have h0 : start ≠ 0 := by omega
        rw [grown_start, if_neg h0, grown_table, if_neg h0]
        by_cases hr : start = ROOT_DIR_CLUSTER
        · subst hr
          obtain ⟨hch', hwf', hds⟩ := append_all_root (c :: cs) hwf hch
            fun k hk => ⟨(hfree k hk).1, (hfree k hk).2.1⟩
          rw [if_pos rfl, grown, dif_pos ⟨rfl, by simp⟩]
          rw [dif_neg (by simp)] at hch'
          exact ⟨.inr ⟨by simp, hch'⟩, hwf', hds⟩
        · rw [if_neg hr, grown, dif_neg fun h => hr h.1, append_all_eq_link hr]
          obtain ⟨s, t, rfl⟩ : ∃ s t, l = s ++ [t] :=
            ⟨l.dropLast, l.getLast hl, (List.dropLast_append_getLast hl).symm⟩
          rw [List.getLastD_concat]
          obtain ⟨hch', -, hwf', -, hds, -⟩ := link_clusters_spec (c :: cs) hwf hch hnd hfree
          exact ⟨.inr ⟨by simp, hch'⟩, hwf', hds⟩

/-- Entries off the chain are left alone by an append, if they are not those appended. -/
theorem append_all_frame (start : ℕ) (cs : List ℕ) : ∀ (fs : fat_fs) (t : ℕ),
    (append_all start fs t cs).fat_length = fs.fat_length
      ∧ ∀ k, k ≠ t → k ∉ cs → (append_all start fs t cs).fat k = fs.fat k := by
  induction cs with
  | nil => exact fun fs t => ⟨rfl, fun _ _ _ => rfl⟩
  | cons c cs ih =>
      intro fs t
      obtain ⟨hlen, hframe⟩ := ih (append_cluster fs t c) (next_end start t c)
      refine ⟨hlen, fun k hkt hk => ?_⟩
      obtain ⟨hkc, hkcs⟩ := not_or.mp (List.mem_cons.not.mp hk)
      rw [append_all, hframe k _ hkcs, append_cluster_fat_of_ne hkt hkc]
      unfold next_end
      split
      · exact hkt
      · exact hkc

theorem grown_table_frame {start : ℕ} {cs : List ℕ} (hch : DataChain fs start l) :
    (grown_table fs start l cs).fat_length = fs.fat_length
      ∧ ∀ k, k ∉ l → k ∉ cs → (grown_table fs start l cs).fat k = fs.fat k := by
  cases cs with
  | nil => exact ⟨rfl, fun _ _ _ => rfl⟩
  | cons c cs =>
      by_cases h0 : start = 0
      · obtain ⟨hlen, hframe⟩ := append_all_frame c cs (claim_cluster fs c) c
        rw [grown_table, if_pos h0]
        refine ⟨hlen, fun k _ hk => ?_⟩
        obtain ⟨hkc, hkcs⟩ := not_or.mp (List.mem_cons.not.mp hk)
        rw [hframe k hkc hkcs, claim_cluster_fat_of_ne hkc]
      · obtain ⟨hlen, hframe⟩ := append_all_frame start (c :: cs) fs
          (if start = ROOT_DIR_CLUSTER then start else l.getLastD 0)
        rw [grown_table, if_neg h0]
        refine ⟨hlen, fun k hkl hk => hframe k ?_ hk⟩
        rcases hch with ⟨h, -⟩ | ⟨hl, hch⟩
        · exact absurd h h0
        · -- the entry that is linked is one of the chain
          rintro rfl
          apply hkl
          split
          · exact hch.path.start_mem hl
          · rw [List.getLastD_eq_getLast?, List.getLast?_eq_some_getLast hl]
            exact List.getLast_mem hl

/-- The extension of a file whose searches deliver. -/
theorem inode_extend_spec {cs : List ℕ} (hcov : Covered d fs ino l) (hlen : ino.data.length = len)
    (hcs : handout fs (grow_clusters ino.data.start len extend_size) = .ok cs)
    (hcount : cs.length = grow_clusters ino.data.start len extend_size)
    (hsel : ∀ k ∈ cs, select_sector d (cluster_to_sector fs k)) :
    inode_extend d fs ino extend_size
      = .ok (zero_clusters d fs (zeroed_clusters ino.data.start cs),
          grown_table fs ino.data.start l cs,
          ino.set_data (grown_start ino.data.start cs) extend_size) := by
  refine (inode_extend_eq_ok hcov.linked hlen _).mpr ⟨cs, hcs, ?_, ?_⟩
  · rw [turn_clusters_full hcount]
    intro c hc
    unfold zeroed_clusters at hc
    split at hc
    · exact hsel c (List.mem_of_mem_tail hc)
    · exact hsel c hc
  · rw [turn_clusters_full hcount]

end Extension

/-! ## One write -/

theorem Covered.extent {d : disk} {fs : fat_fs} {ino : inode} {l : List ℕ}
    (h : Covered d fs ino l) (hl : l ≠ []) : Extent d fs ino.data.start l := by
  rcases h.chain with ⟨-, hnil⟩ | ⟨-, hch⟩
  · exact absurd hnil hl
  · exact .of_chain h.wf.toGeometry hch h.on_disk

/-- Below the length, `byte_to_sector` returns a sector of the disk. -/
theorem Covered.byte_to_sector {d : disk} {fs : fat_fs} {ino : inode} {l : List ℕ}
    (h : Covered d fs ino l) {pos : ℕ} (hpos : (pos : ℤ) < ino.data.length) :
    ∃ s, byte_to_sector fs ino pos = .ok s ∧ s ≠ NO_SECTOR ∧ select_sector d s := by
  have hc := h.covers
  have hq : pos / 512 < l.length := by omega
  have hx := h.extent (List.ne_nil_of_length_pos (by omega))
  have hsel := hx.getD_on_disk hq
  refine ⟨_, byte_to_sector_eq h.wf.toGeometry hx pos (by omega) hq, ?_, hsel⟩
  intro hnone
  rw [hnone] at hsel
  exact absurd hsel.2 (by decide)

/-- The copy loop and the flush, once the file reaches to the end of the
request. -/
theorem Covered.write {d : disk} {fs : fat_fs} {ino : inode} {l : List ℕ}
    (h : Covered d fs ino l) (buffer : Bytes) {size offset : ℕ} (hsize : 0 < size)
    (hfit : (offset : ℤ) + size ≤ ino.data.length) :
    ∃ d', (do
        let (bytes_written, d) ← inode_write_at_loop fs ino buffer (size + 1) d size offset 0
        let d ← inode_flush d ino
        return (bytes_written, d, fs, ino)) = .ok ((size : ℤ), d', fs, ino)
      ∧ Covered d' fs ino l := by
  have hc := h.covers
  have hx := h.extent (List.ne_nil_of_length_pos (by omega))
  obtain ⟨d', hloop, hw⟩ := inode_write_at_loop_spec h.wf.toGeometry buffer (size + 1) size offset 0
    hx (by omega) hfit (by omega)
  have hsel : ∀ s, select_sector d s → select_sector d' s := fun s =>
    select_sector_congr hw.capacity
  rw [Nat.zero_add, Nat.cast_zero] at hloop
  refine ⟨d'.put ino.sector ino.data.encode, ?_, ?_⟩
  · rw [hloop]
    simp only [Outcome.ok_bind, inode_flush, disk_write_ok (hsel _ h.inode_on_disk),
      Outcome.pure_eq]
  · exact { h with
      on_disk := fun k hk => hsel _ (h.on_disk k hk)
      inode_on_disk := hsel _ h.inode_on_disk }

/-- The condition on the file before a write that ends at `extend_size`, behind
the end of the file: the chain reaches past the last full sector, and the root
directory does not need a third cluster. -/
def GrowOk (start len extend_size : ℕ) (l : List ℕ) : Prop :=
  (start = 0 ∨ len / 512 < l.length)
    ∧ (start = ROOT_DIR_CLUSTER → grow_clusters start len extend_size = 0 ∨ extend_size ≤ 1024)

/-- The chain after the extension covers the new length exactly when `GrowOk`. -/
theorem grown_covers_iff {fs : fat_fs} {start len extend_size : ℕ} {l cs : List ℕ}
    (hch : DataChain fs start l) (hcov : len ≤ 512 * l.length) (hlt : len < extend_size)
    (hcount : cs.length = grow_clusters start len extend_size) :
    extend_size ≤ 512 * (grown start l cs).length ↔ GrowOk start len extend_size l := by
  unfold GrowOk grown
  by_cases h0 : start = 0
  · -- no chain: the length is 0, and the clusters asked for are all there is
    have hl : l = [] := DataChain.eq_nil_of_start (h0 ▸ hch)
    have hr : start ≠ ROOT_DIR_CLUSTER := by
      rw [h0]
      decide
    rw [dif_neg fun h => hr h.1, hl]
    rw [grow_clusters, if_pos h0] at hcount
    rw [hl, List.length_nil] at hcov
    simp only [List.nil_append, h0, true_or, true_and]
    constructor
    · exact fun _ h => absurd (h0.trans h) hr
    · omega
  · rw [grow_clusters, if_neg h0] at *
    by_cases hr : start = ROOT_DIR_CLUSTER
    · by_cases hcs : cs = []
      · rw [dif_neg fun h => h.2 hcs]
        rw [hcs, List.length_nil] at hcount
        simp only [hcs, List.append_nil, hr, true_implies]
        constructor
        · intro h
          exact ⟨.inr (by omega), .inl (by omega)⟩
        · rintro ⟨h | h, -⟩
          · exact absurd (hr.trans h) h0
          · omega
      · rw [dif_pos ⟨hr, hcs⟩]
        have hpos := List.length_pos_of_ne_nil hcs
        have hl : 0 < l.length := by
          rcases hch with ⟨h, -⟩ | ⟨hl, -⟩
          · exact absurd h h0
          · exact List.length_pos_of_ne_nil hl
        simp only [List.length_cons, List.length_nil, hr, true_implies]
        constructor
        · intro h
          exact ⟨.inr (by omega), .inr (by omega)⟩
        · rintro ⟨-, h | h⟩ <;> omega
    · rw [dif_neg fun h => hr h.1, List.length_append]
      constructor
      · intro h
        exact ⟨.inr (by omega), fun h => absurd h hr⟩
      · rintro ⟨h | h, -⟩
        · exact absurd h h0
        · omega

/-- The chain after the extension is made of old clusters and new ones. -/
theorem mem_grown {fs : fat_fs} {start k : ℕ} {l cs : List ℕ} (hch : DataChain fs start l)
    (hk : k ∈ grown start l cs) : k ∈ l ∨ k ∈ cs := by
  unfold grown at hk
  split at hk
  case isTrue h =>
    rcases List.mem_pair.mp hk with rfl | rfl
    · rcases hch with ⟨h0, -⟩ | ⟨hne, hch⟩
      · exact absurd (h0.symm.trans h.1) (by decide)
      · rw [h.1] at hch
        exact .inl (hch.path.start_mem hne)
    · exact .inr (List.getLast_mem h.2)
  case isFalse => exact List.mem_append.mp hk

theorem root_notMem_tail_grown {start : ℕ} {l cs : List ℕ} (hl : ROOT_DIR_CLUSTER ∉ l.tail)
    (hcs : ROOT_DIR_CLUSTER ∉ cs) : ROOT_DIR_CLUSTER ∉ (grown start l cs).tail := by
  unfold grown
  split
  case isTrue h =>
    intro hk
    rw [List.tail_cons, List.mem_singleton] at hk
    exact hcs (hk ▸ List.getLast_mem h.2)
  case isFalse =>
    cases l with
    | nil => exact fun hk => hcs (List.mem_of_mem_tail hk)
    | cons x l =>
        rw [List.cons_append, List.tail_cons, List.mem_append]
        rintro (hk | hk)
        · exact hl hk
        · exact hcs hk

/-- What is asked of one write: it returns `size`, the length is the new end if
that is larger, the chain covers the length, and every position below it has a
sector. -/
def WriteGood (d : disk) (fs : fat_fs) (ino : inode) (buffer : Bytes) (size offset : ℤ) : Prop :=
  ∃ d' fs' ino' l', inode_write_at d fs ino buffer size offset = .ok (size, d', fs', ino')
    ∧ ino'.data.length = max ino.data.length (offset + size)
    ∧ DataChain fs' ino'.data.start l' ∧ ino'.data.length ≤ 512 * l'.length
    ∧ ∀ pos : ℕ, (pos : ℤ) < ino'.data.length →
        ∃ s, byte_to_sector fs' ino' pos = .ok s ∧ s ≠ NO_SECTOR ∧ select_sector d' s

/-- The inode after a write that found its file large enough, or grew it. -/
structure Written (d : disk) (fs : fat_fs) (ino : inode) (buffer : Bytes) (size offset : ℤ)
    (d' : disk) (fs' : fat_fs) (ino' : inode) (l' : List ℕ) : Prop where
  returns : inode_write_at d fs ino buffer size offset = .ok (size, d', fs', ino')
  length : ino'.data.length = max ino.data.length (offset + size)
  covered : Covered d' fs' ino' l'
  deny : ino'.deny_write_cnt = ino.deny_write_cnt

theorem Written.good {d d' : disk} {fs fs' : fat_fs} {ino ino' : inode} {buffer : Bytes}
    {size offset : ℤ} {l' : List ℕ} (h : Written d fs ino buffer size offset d' fs' ino' l') :
    WriteGood d fs ino buffer size offset := by
  exact ⟨d', fs', ino', l', h.returns, h.length, h.covered.chain, h.covered.covers,
    fun pos hpos => h.covered.byte_to_sector hpos⟩

section Write

variable {d : disk} {fs : fat_fs} {ino : inode} {l : List ℕ} {buffer : Bytes} {size offset : ℕ}

/-- A write inside the file. -/
theorem inode_write_at_inside (hcov : Covered d fs ino l) (hdeny : ino.deny_write_cnt = 0)
    (hsize : 0 < size) (hin : (offset : ℤ) + size ≤ ino.data.length) :
    ∃ d', Written d fs ino buffer size offset d' fs ino l := by
  obtain ⟨d', hrun, hcov'⟩ := hcov.write buffer hsize hin
  have hlt := hcov.length_lt
  have h32 : i32 ((offset : ℤ) + size) = offset + size :=
    i32_of_isI32 (by unfold IsI32; omega)
  refine ⟨d', ?_, (max_eq_left hin).symm, hcov', rfl⟩
  rw [inode_write_at, if_neg (by simpa using hdeny)]
  simp only [h32, inode_length]
  rw [if_neg (by omega)]
  simpa only [Outcome.ok_bind, Int.toNat_natCast] using hrun

/-- A write past the end of the file is the extension, the copy loop and the
flush. -/
theorem inode_write_at_extend (buffer : Bytes) {d₁ : disk} {fs₁ : fat_fs} {ino₁ : inode}
    (hdeny : ino.deny_write_cnt = 0) (hend : offset + size < 2 ^ 31)
    (hpast : ino.data.length < (offset : ℤ) + size)
    (hext : inode_extend d fs ino ((offset + size : ℕ) : ℤ) = .ok (d₁, fs₁, ino₁)) :
    inode_write_at d fs ino buffer size offset = (do
      let (bytes_written, d) ← inode_write_at_loop fs₁ ino₁ buffer (size + 1) d₁ size offset 0
      let d ← inode_flush d ino₁
      return (bytes_written, d, fs₁, ino₁)) := by
  have h32 : i32 ((offset : ℤ) + size) = ((offset + size : ℕ) : ℤ) := by
    rw [i32_of_isI32 (by unfold IsI32; omega)]
    push_cast
    rfl
  rw [inode_write_at, if_neg (by simpa using hdeny)]
  simp only [h32, inode_length]
  rw [if_pos (by push_cast; omega), hext]
  simp only [Outcome.ok_bind, Int.toNat_natCast]

/-- The inode after an extension, if the chain is long enough. -/
theorem Covered.extended {d' : disk} {cs : List ℕ} {n extend_size : ℕ}
    (h : Covered d fs ino l) (hcs : handout fs n = .ok cs) (hcap : d'.capacity = d.capacity)
    (hsel : ∀ k ∈ cs, select_sector d (cluster_to_sector fs k)) (hend : extend_size < 2 ^ 31)
    (hcovers : extend_size ≤ 512 * (grown ino.data.start l cs).length) :
    Covered d' (grown_table fs ino.data.start l cs)
      (ino.set_data (grown_start ino.data.start cs) extend_size) (grown ino.data.start l cs) := by
  obtain ⟨hch, hwf, hds⟩ := grown_table_spec h.wf h.chain h.root hcs
  have hlen : (ino.set_data (grown_start ino.data.start cs) extend_size).data.length
      = (extend_size : ℤ) := rfl
  refine ⟨hwf, hch, Int.natCast_nonneg _, ?_, ?_, fun k hk => ?_,
    select_sector_congr hcap h.inode_on_disk, ?_⟩
  · omega
  · omega
  · rw [cluster_to_sector_congr hds]
    apply select_sector_congr hcap
    rcases mem_grown h.chain hk with hk | hk
    · exact h.on_disk k hk
    · exact hsel k hk
  · apply root_notMem_tail_grown h.root
    intro hroot
    have h2 := ((handout_spec n h.wf hcs).2.2 _ hroot).1
    unfold ROOT_DIR_CLUSTER at h2
    omega

/-- A growing write that finds its clusters does what is asked if `GrowOk`, and does not come
back otherwise. -/
theorem inode_write_at_past (hcov : Covered d fs ino l) (buffer : Bytes)
    (hdeny : ino.deny_write_cnt = 0) (hsize : 0 < size) (hend : offset + size < 2 ^ 31)
    (hpast : ino.data.length < (offset : ℤ) + size)
    (hdel : Delivers d fs (grow_clusters ino.data.start ino.data.length.toNat (offset + size))) :
    (GrowOk ino.data.start ino.data.length.toNat (offset + size) l →
        ∃ d' fs' ino' l', Written d fs ino buffer size offset d' fs' ino' l')
      ∧ (¬ GrowOk ino.data.start ino.data.length.toNat (offset + size) l →
        ∀ r, inode_write_at d fs ino buffer size offset ≠ .ok r) := by
  obtain ⟨cs, hcs, hcount, hsel⟩ := hdel
  have hlen : ino.data.length = (ino.data.length.toNat : ℤ) :=
    (Int.toNat_of_nonneg hcov.length_nonneg).symm
  have hext := inode_extend_spec hcov hlen hcs hcount hsel
  have hcovers := hcov.covers
  have hiff := grown_covers_iff hcov.chain (by omega) (by omega) hcount
  have hrun := inode_write_at_extend buffer hdeny hend hpast hext
  have hfit : (offset : ℤ) + size ≤ ((offset + size : ℕ) : ℤ) := le_of_eq (Nat.cast_add _ _).symm
  constructor
  · intro hok
    have hcap := zero_clusters_capacity fs (zeroed_clusters ino.data.start cs) d
    have hcov₁ := hcov.extended hcs hcap hsel hend (hiff.mpr hok)
    obtain ⟨d', hwrite, hcov'⟩ := hcov₁.write buffer hsize hfit
    refine ⟨d', _, _, _, hrun.trans hwrite, ?_, hcov', rfl⟩
    simp only [inode.set_data_length]
    push_cast
    omega
  · intro hbad r hret
    have hch := (grown_table_spec hcov.wf hcov.chain hcov.root hcs).1
    rw [hrun] at hret
    obtain ⟨⟨n, d₂⟩, hloop, -⟩ := Outcome.bind_eq_ok.mp hret
    exact hbad (hiff.mp (inode_write_at_loop_covered hloop hch hsize hfit))

end Write

/-! ## Runs of writes -/

/-- The arguments of one `inode_write_at`. -/
structure write_args where
  buffer : Bytes
  size : ℤ
  offset : ℤ

/-- A sequence of writes to one inode, with the counts they return. -/
def run_writes : disk → fat_fs → inode → List write_args →
    Outcome (List ℤ × disk × fat_fs × inode)
  | d, fs, ino, [] => .ok ([], d, fs, ino)
  | d, fs, ino, w :: ws => do
      let (n, d, fs, ino) ← inode_write_at d fs ino w.buffer w.size w.offset
      let (ns, d, fs, ino) ← run_writes d fs ino ws
      return (n :: ns, d, fs, ino)

/-- The condition on the state before a write: it is not denied, its end is an
`off_t`, and if it is past the end of the file then the searches deliver the
clusters asked for, and the chain is one that grows well (`GrowOk`). -/
def WriteOk (d : disk) (fs : fat_fs) (ino : inode) (w : write_args) : Prop :=
  ino.deny_write_cnt = 0 ∧ 0 ≤ w.offset ∧ 0 < w.size ∧ w.offset + w.size < 2 ^ 31
    ∧ (ino.data.length < w.offset + w.size →
        Delivers d fs (grow_clusters ino.data.start ino.data.length.toNat
            (w.offset + w.size).toNat)
          ∧ ∀ l, DataChain fs ino.data.start l →
              GrowOk ino.data.start ino.data.length.toNat (w.offset + w.size).toNat l)

/-- Every write of the run meets the condition in the state it finds. -/
def RunOk : disk → fat_fs → inode → List write_args → Prop
  | _, _, _, [] => True
  | d, fs, ino, w :: ws => WriteOk d fs ino w
      ∧ ∀ n d' fs' ino', inode_write_at d fs ino w.buffer w.size w.offset = .ok (n, d', fs', ino')
          → RunOk d' fs' ino' ws

/-- The step of the run: a write that meets the condition does what is asked, and
leaves a file whose chain covers its length. -/
theorem inode_write_at_written {d : disk} {fs : fat_fs} {ino : inode} {l : List ℕ} {w : write_args}
    (hcov : Covered d fs ino l) (hw : WriteOk d fs ino w) :
    ∃ d' fs' ino' l', Written d fs ino w.buffer w.size w.offset d' fs' ino' l' := by
  obtain ⟨hdeny, hoff, hsize, hend, hgrow⟩ := hw
  obtain ⟨offset, ho⟩ := Int.eq_ofNat_of_zero_le hoff
  obtain ⟨size, hs⟩ := Int.eq_ofNat_of_zero_le hsize.le
  rw [ho, hs] at hgrow hend
  rw [ho, hs]
  rw [hs] at hsize
  by_cases hin : (offset : ℤ) + size ≤ ino.data.length
  · obtain ⟨d', h⟩ := inode_write_at_inside hcov hdeny (by omega) hin
    exact ⟨d', fs, ino, l, h⟩
  · obtain ⟨hdel, hok⟩ := hgrow (by omega)
    have hnat : ((offset : ℤ) + size).toNat = offset + size := by omega
    rw [hnat] at hdel hok
    exact (inode_write_at_past hcov _ hdeny (by omega) (by omega) (by omega) hdel).1
      (hok l hcov.chain)

/-- The run lemma. -/
theorem run_writes_covered (ws : List write_args) : ∀ {d : disk} {fs : fat_fs} {ino : inode}
    {l : List ℕ}, Covered d fs ino l → RunOk d fs ino ws →
      ∃ d' fs' ino' l', run_writes d fs ino ws = .ok (ws.map (·.size), d', fs', ino')
        ∧ Covered d' fs' ino' l'
        ∧ ino'.data.length
            = (ws.map fun w => w.offset + w.size).foldl max ino.data.length := by
  induction ws with
  | nil =>
      intro d fs ino l hcov _
      exact ⟨d, fs, ino, l, rfl, hcov, rfl⟩
  | cons w ws ih =>
      intro d fs ino l hcov hok
      obtain ⟨d₁, fs₁, ino₁, l₁, h₁⟩ := inode_write_at_written hcov hok.1
      obtain ⟨d', fs', ino', l', hrun, hcov', hlen⟩ :=
        ih h₁.covered (hok.2 _ _ _ _ h₁.returns)
      refine ⟨d', fs', ino', l', ?_, hcov', ?_⟩
      · rw [run_writes, h₁.returns]
        simp only [Outcome.ok_bind, hrun, List.map_cons, Outcome.pure_eq]
      · rw [hlen, h₁.length]
        rfl

/-- **Growth keeps the chain as long as the file**, exactly as far as the code
does it. First part: a growing write for which the clusters are there does what
is asked if and only if `GrowOk`. Second part: in every run of writes that meet
the condition, every write returns its size, the length is the largest end so
far, the chain covers it, and every position below it has a sector of the
disk. -/
theorem inode_write_at_growth (d : disk) (fs : fat_fs) (ino : inode) (l : List ℕ)
    (hcov : Covered d fs ino l) :
    (∀ (buffer : Bytes) (size offset : ℕ), ino.deny_write_cnt = 0 → 0 < size →
      offset + size < 2 ^ 31 → ino.data.length < (offset : ℤ) + size →
      Delivers d fs (grow_clusters ino.data.start ino.data.length.toNat (offset + size)) →
        (WriteGood d fs ino buffer size offset ↔
          GrowOk ino.data.start ino.data.length.toNat (offset + size) l))
    ∧ ∀ ws : List write_args, RunOk d fs ino ws →
        ∃ d' fs' ino' l', run_writes d fs ino ws = .ok (ws.map (·.size), d', fs', ino')
          ∧ ino'.data.length = (ws.map fun w => w.offset + w.size).foldl max ino.data.length
          ∧ DataChain fs' ino'.data.start l' ∧ ino'.data.length ≤ 512 * l'.length
          ∧ ∀ pos : ℕ, (pos : ℤ) < ino'.data.length →
              ∃ s, byte_to_sector fs' ino' pos = .ok s ∧ s ≠ NO_SECTOR ∧ select_sector d' s := by
  constructor
  · intro buffer size offset hdeny hsize hend hpast hdel
    obtain ⟨hgood, hbad⟩ := inode_write_at_past hcov _ hdeny hsize hend hpast hdel
    refine ⟨fun h => ?_, fun hok => ?_⟩
    · obtain ⟨d', fs', ino', l', hret, -⟩ := h
      by_contra hnot
      exact hbad hnot _ hret
    · obtain ⟨d', fs', ino', l', hw⟩ := hgood hok
      exact hw.good
  · intro ws hok
    obtain ⟨d', fs', ino', l', hrun, hcov', hlen⟩ := run_writes_covered ws hcov hok
    exact ⟨d', fs', ino', l', hrun, hlen, hcov'.chain, hcov'.covers,
      fun pos hpos => hcov'.byte_to_sector hpos⟩

/-! ### A file that ends on a sector boundary

One cluster (2) of data, the inode in cluster 3, and everything from cluster 4 on
free. The length is 100 in one case and 512 in the other. -/

def one_cluster_fat : fat_fs where
  bs := { magic := FAT_MAGIC, sectors_per_cluster := 1, total_sectors := 16, fat_start := 1,
          fat_sectors := 1, root_dir_cluster := ROOT_DIR_CLUSTER }
  fat := fun k => if k < 4 then EOChain else 0
  fat_length := 8
  data_start := 2
  last_clst := 3

def blank_disk : disk where
  capacity := 16
  sectors := fun _ => zeros
  written := []

def one_cluster_inode (length : ℤ) : inode where
  sector := 4
  open_cnt := 1
  removed := false
  deny_write_cnt := 0
  data := { start := 2, length := length, magic := INODE_MAGIC, isdir := false }

theorem one_cluster_wf : one_cluster_fat.Wf :=
  { two_lt := by decide, length_le := by decide, start_pos := by decide,
    no_wrap := by decide, last_ge := by decide, last_lt := by decide }

theorem one_cluster_covered (length : ℤ) (h0 : 0 ≤ length) (h : length ≤ 512) :
    Covered blank_disk one_cluster_fat (one_cluster_inode length) [2] where
  wf := one_cluster_wf
  chain := .inr ⟨by decide, show Path one_cluster_fat.fat 2 [2] EOChain by decide, by decide⟩
  length_nonneg := h0
  length_lt := lt_of_le_of_lt h (by decide)
  covers := h
  on_disk := by decide
  inode_on_disk := show select_sector blank_disk 4 by decide
  root := by decide

/-- From 100 bytes to 1100: two more clusters, and all is well. -/
theorem one_cluster_grows :
    WriteGood blank_disk one_cluster_fat (one_cluster_inode 100) zeros (1000 : ℕ) (100 : ℕ)
    ∧ ∃ d' fs' ino' l',
        run_writes blank_disk one_cluster_fat (one_cluster_inode 100)
            [{ buffer := zeros, size := 1000, offset := 100 }] = .ok ([1000], d', fs', ino')
          ∧ ino'.data.length = 1100 ∧ DataChain fs' ino'.data.start l' ∧ 3 ≤ l'.length := by
  have hcov := one_cluster_covered 100 (by decide) (by decide)
  have hdel : Delivers blank_disk one_cluster_fat (grow_clusters 2 100 1100) :=
    ⟨[4, 5], rfl, by decide, by decide⟩
  have hok : GrowOk 2 100 1100 [2] := ⟨by decide, by decide⟩
  refine ⟨((inode_write_at_growth _ _ _ _ hcov).1 zeros 1000 100 rfl (by decide) (by decide)
    (by decide) hdel).mpr hok, ?_⟩
  have hrun : RunOk blank_disk one_cluster_fat (one_cluster_inode 100)
      [{ buffer := zeros, size := 1000, offset := 100 }] := by
    refine ⟨⟨rfl, by decide, by decide, by decide, fun _ => ⟨hdel, fun l hl => ?_⟩⟩, ?_⟩
    · rw [hl.unique hcov.wf.toGeometry hcov.chain]
      exact hok
    · intro _ _ _ _ _
      trivial
  obtain ⟨d', fs', ino', l', hret, hlen, hch, hcovers, -⟩ :=
    (inode_write_at_growth _ _ _ _ hcov).2 _ hrun
  have hlen' : ino'.data.length = 1100 := hlen
  exact ⟨d', fs', ino', l', hret, hlen', hch, by omega⟩

/-- **From 512 bytes to 513**: the clusters 4 to 7 are free, one is enough, and
the write does not come back. -/
theorem one_cluster_aligned_panics :
    Covered blank_disk one_cluster_fat (one_cluster_inode 512) [2]
    ∧ (∀ c, 4 ≤ c → c < one_cluster_fat.fat_length → one_cluster_fat.fat c = 0)
    ∧ handout one_cluster_fat 4 = .ok [4, 5, 6, 7]
    ∧ inode_write_at blank_disk one_cluster_fat (one_cluster_inode 512) zeros 1 512 = .panic
    ∧ ¬ WriteGood blank_disk one_cluster_fat (one_cluster_inode 512) zeros 1 512 := by
  have hpanic :
      inode_write_at blank_disk one_cluster_fat (one_cluster_inode 512) zeros 1 512 = .panic := rfl
  refine ⟨one_cluster_covered 512 (by decide) (by decide), ?_, rfl, hpanic, ?_⟩
  · intro c h4 _
    exact if_neg (by omega)
  · rintro ⟨d', fs', ino', l', hret, -⟩
    rw [hpanic] at hret
    cases hret

end Pintos
