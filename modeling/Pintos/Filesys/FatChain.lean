/-
What the chain operations of `filesys/fat.c` do to a well-formed table.

`Fat.lean` is the code; this file is one specification per function, stated
over paths through the table. A chain is a path to `EOChain` through in-range
clusters (`Chain`). From it:

* `fat_create_chain` starts a chain, or puts the found cluster behind the last
  cluster of one (`fat_create_chain_extend`) -- except from `ROOT_DIR_CLUSTER`,
  where the walk does not move and the cluster is linked behind the *first*
  (`fat_create_chain_root`);
* `fat_remove_chain` clears exactly the chain (`fat_remove_chain_eq`);
* `fat_allocate` claims what the searches hand out (`handout`), and
  `fat_allocate_spec` says what it makes of a hand-out that is too short.
-/
import Pintos.Filesys.Fat
import Mathlib.Data.List.Perm.Basic

set_option autoImplicit false

namespace Pintos

/-! ## Chains -/

/-- Following the table from `c`, one visits `l` and then `EOChain`. -/
structure Chain (fs : fat_fs) (c : ℕ) (l : List ℕ) : Prop where
  path : Path fs.fat c l EOChain
  range : ∀ k ∈ l, 1 ≤ k ∧ k < fs.fat_length

/-- The data chain of an inode: `start = 0` is the empty file. -/
def DataChain (fs : fat_fs) (start : ℕ) (l : List ℕ) : Prop :=
  (start = 0 ∧ l = []) ∨ (l ≠ [] ∧ Chain fs start l)

/-- A duplicate-free list of numbers below `n` has at most `n` members. -/
theorem length_le_of_nodup_lt {l : List ℕ} {n : ℕ} (hd : l.Nodup) (hl : ∀ k ∈ l, k < n) :
    l.length ≤ n := by
  have hsub : l ⊆ List.range n := fun k hk => List.mem_range.mpr (hl k hk)
  simpa using (List.subperm_of_subset hd hsub).length_le

namespace Chain

variable {fs fs' : fat_fs} {c d : ℕ} {l l' : List ℕ}

theorem ne_end (hg : fs.Geometry) (h : Chain fs c l) : ∀ k ∈ l, ¬ k = EOChain := by
  intro k hk
  have := (h.range k hk).2
  have := hg.length_le
  omega

theorem nodup (hg : fs.Geometry) (h : Chain fs c l) : l.Nodup :=
  h.path.nodup (· = EOChain) rfl (h.ne_end hg)

theorem length_le (hg : fs.Geometry) (h : Chain fs c l) : l.length ≤ fs.fat_length :=
  length_le_of_nodup_lt (h.nodup hg) fun k hk => (h.range k hk).2

theorem unique (hg : fs.Geometry) (h : Chain fs c l) (h' : Chain fs c l') : l = l' :=
  h.path.unique (· = EOChain) h'.path rfl rfl (h.ne_end hg) (h'.ne_end hg)

/-- A cluster on a chain is not free: its entry names a cluster or `EOChain`. -/
theorem entry_ne_zero (h : Chain fs c l) {k : ℕ} (hk : k ∈ l) : fs.fat k ≠ 0 := by
  obtain ⟨s, t, rfl⟩ := List.append_of_mem hk
  obtain ⟨m, -, hm⟩ := Path.append_iff.mp h.path
  cases t with
  | nil =>
      rw [show fs.fat k = EOChain from hm.2]
      decide
  | cons y t =>
      have hy := (h.range y (by simp)).1
      rw [show fs.fat k = y from hm.2.1]
      omega

theorem notMem_of_free (h : Chain fs c l) {k : ℕ} (hk : fs.fat k = 0) : k ∉ l :=
  fun hmem => h.entry_ne_zero hmem hk

/-- A chain reads the table only at its own clusters. -/
theorem congr (h : Chain fs c l) (hlen : fs'.fat_length = fs.fat_length)
    (hl : ∀ k ∈ l, fs'.fat k = fs.fat k) : Chain fs' c l :=
  ⟨h.path.congr hl, fun k hk => hlen ▸ h.range k hk⟩

/-- A chain is not empty: its start is a cluster, and `EOChain` is none. -/
theorem ne_nil (hg : fs.Geometry) (h : Chain fs c l) (hc : c < fs.fat_length) : l ≠ [] := by
  rintro rfl
  have := hg.length_le
  have : c = EOChain := h.path
  omega

end Chain

namespace DataChain

variable {fs : fat_fs} {start : ℕ} {l l' : List ℕ}

/-- The chain of a file that has one starts at `start`, which is in the table. -/
theorem start_lt (h : DataChain fs start l) (hl : l ≠ []) : 1 ≤ start ∧ start < fs.fat_length := by
  rcases h with ⟨-, hnil⟩ | ⟨-, hch⟩
  · exact absurd hnil hl
  · exact hch.range start (hch.path.start_mem hl)

theorem eq_nil_of_start (h : DataChain fs 0 l) : l = [] := by
  by_contra hne
  exact absurd (h.start_lt hne).1 (by decide)

theorem unique (hg : fs.Geometry) (h : DataChain fs start l) (h' : DataChain fs start l') :
    l = l' := by
  rcases h with ⟨rfl, rfl⟩ | ⟨hl, hch⟩
  · exact h'.eq_nil_of_start.symm
  · rcases h' with ⟨rfl, rfl⟩ | ⟨-, hch'⟩
    · exact absurd (eq_nil_of_start (.inr ⟨hl, hch⟩)) hl
    · exact hch.unique hg hch'

theorem range (h : DataChain fs start l) : ∀ k ∈ l, 1 ≤ k ∧ k < fs.fat_length := by
  rcases h with ⟨-, rfl⟩ | ⟨-, hch⟩
  · simp
  · exact hch.range

theorem entry_ne_zero (h : DataChain fs start l) : ∀ k ∈ l, fs.fat k ≠ 0 := by
  rcases h with ⟨-, rfl⟩ | ⟨-, hch⟩
  · simp
  · exact fun k hk => hch.entry_ne_zero hk

theorem congr {fs' : fat_fs} (h : DataChain fs start l) (hlen : fs'.fat_length = fs.fat_length)
    (hl : ∀ k ∈ l, fs'.fat k = fs.fat k) : DataChain fs' start l := by
  rcases h with hempty | ⟨hne, hch⟩
  · exact .inl hempty
  · exact .inr ⟨hne, hch.congr hlen hl⟩

end DataChain

/-! ## Claiming a cluster -/

/-- The table after `new_clst` has been taken as a chain of its own. -/
def claim_cluster (fs : fat_fs) (new_clst : ℕ) : fat_fs :=
  { fs with fat := Function.update fs.fat new_clst EOChain, last_clst := new_clst }

/-- The table after `new_clst` has been put behind `clst`. -/
def append_cluster (fs : fat_fs) (clst new_clst : ℕ) : fat_fs :=
  { fs with
    fat := Function.update (Function.update fs.fat new_clst EOChain) clst new_clst
    last_clst := new_clst }

section Fields

variable {fs : fat_fs} {clst c k : ℕ}

@[simp] theorem claim_cluster_length : (claim_cluster fs c).fat_length = fs.fat_length := rfl

@[simp] theorem claim_cluster_last : (claim_cluster fs c).last_clst = c := rfl

@[simp] theorem claim_cluster_fat_self : (claim_cluster fs c).fat c = EOChain :=
  Function.update_self _ _ _

theorem claim_cluster_fat_of_ne (h : k ≠ c) : (claim_cluster fs c).fat k = fs.fat k :=
  Function.update_of_ne h _ _

@[simp] theorem append_cluster_length : (append_cluster fs clst c).fat_length = fs.fat_length := rfl

@[simp] theorem append_cluster_last : (append_cluster fs clst c).last_clst = c := rfl

@[simp] theorem append_cluster_fat_tail : (append_cluster fs clst c).fat clst = c :=
  Function.update_self _ _ _

theorem append_cluster_fat_new (h : c ≠ clst) : (append_cluster fs clst c).fat c = EOChain := by
  simp [append_cluster, h]

theorem append_cluster_fat_of_ne (h₁ : k ≠ clst) (h₂ : k ≠ c) :
    (append_cluster fs clst c).fat k = fs.fat k := by
  simp [append_cluster, h₁, h₂]

@[simp] theorem cluster_to_sector_claim_cluster :
    cluster_to_sector (claim_cluster fs c) k = cluster_to_sector fs k := rfl

@[simp] theorem cluster_to_sector_append_cluster :
    cluster_to_sector (append_cluster fs clst c) k = cluster_to_sector fs k := rfl

end Fields

theorem claim_cluster_wf {fs : fat_fs} (h : fs.Wf) {c : ℕ} (h2 : 2 ≤ c) (hlt : c < fs.fat_length) :
    (claim_cluster fs c).Wf :=
  { two_lt := h.two_lt, length_le := h.length_le, start_pos := h.start_pos, no_wrap := h.no_wrap,
    last_ge := h2, last_lt := hlt }

theorem append_cluster_wf {fs : fat_fs} (h : fs.Wf) {t c : ℕ} (h2 : 2 ≤ c)
    (hlt : c < fs.fat_length) : (append_cluster fs t c).Wf :=
  { two_lt := h.two_lt, length_le := h.length_le, start_pos := h.start_pos, no_wrap := h.no_wrap,
    last_ge := h2, last_lt := hlt }

/-- `fat_create_chain (0)` starts a chain. -/
theorem fat_create_chain_start {fs : fat_fs} (h : fs.Wf) {c : ℕ}
    (hc : find_free_cluster fs = .ok c) (hne : c ≠ 0) :
    fat_create_chain fs 0 = .ok (c, claim_cluster fs c) := by
  obtain ⟨-, -, hlt, -⟩ := find_free_cluster_pos h hc hne
  have h0 : 0 < fs.fat_length := by have := h.two_lt; omega
  rw [fat_create_chain, Outcome.assert_pos h0]
  simp [hc, hne, fat_put_ok hlt, claim_cluster]

/-- A search that finds nothing leaves the table alone. -/
theorem fat_create_chain_full {fs : fat_fs} {clst : ℕ} (hclst : clst < fs.fat_length)
    (hc : find_free_cluster fs = .ok 0) : fat_create_chain fs clst = .ok (0, fs) := by
  rw [fat_create_chain, Outcome.assert_pos hclst]
  simp [hc]

theorem fat_create_chain_undefined {fs : fat_fs} {clst : ℕ} (hclst : clst < fs.fat_length)
    (hc : find_free_cluster fs = .undefined) : fat_create_chain fs clst = .undefined := by
  rw [fat_create_chain, Outcome.assert_pos hclst]
  simp [hc]

/-- The walk ends at the last cluster of the chain, if it is not held up at
`ROOT_DIR_CLUSTER` before. -/
theorem fat_create_chain_loop_eq {fs : fat_fs} (hg : fs.Geometry) (l : List ℕ) {t : ℕ} :
    ∀ fuel clst, Path fs.fat clst (l ++ [t]) EOChain → (∀ k ∈ l ++ [t], k < fs.fat_length) →
      ROOT_DIR_CLUSTER ∉ l → l.length < fuel → fat_create_chain_loop fs fuel clst = .ok t := by
  induction l with
  | nil =>
      intro fuel clst hp hr _ hf
      obtain ⟨fuel, rfl⟩ : ∃ m, fuel = m + 1 := ⟨fuel - 1, by omega⟩
      obtain ⟨rfl, hend⟩ := hp
      rw [fat_create_chain_loop]
      by_cases hroot : clst = ROOT_DIR_CLUSTER
      · rw [if_pos hroot]
      · rw [if_neg hroot, fat_get_ok (hr clst (by simp))]
        simp [show fs.fat clst = EOChain from hend]
  | cons x l ih =>
      intro fuel clst hp hr hroot hf
      obtain ⟨fuel, rfl⟩ : ∃ m, fuel = m + 1 := ⟨fuel - 1, by omega⟩
      obtain ⟨rfl, hp⟩ := hp
      have hxr : clst ≠ ROOT_DIR_CLUSTER := fun h => hroot (by simp [h])
      -- the entry read is the next cluster, so it is in range and not `EOChain`
      have hnext : fs.fat clst ≠ EOChain := by
        intro hend
        have hmem : fs.fat clst ∈ l ++ [t] := hp.start_mem (by simp)
        have h₁ := hr _ (List.mem_cons_of_mem _ hmem)
        have h₂ := hg.length_le
        omega
      rw [fat_create_chain_loop, if_neg hxr, fat_get_ok (hr clst (by simp))]
      simp only [Outcome.ok_bind, if_neg hnext]
      exact ih fuel _ hp (fun k hk => hr k (List.mem_cons_of_mem _ hk))
        (fun hk => hroot (List.mem_cons_of_mem _ hk)) (by simpa using hf)

/-- **`fat_create_chain` on a chain** that does not pass `ROOT_DIR_CLUSTER`
before its end: the found cluster goes behind the last one. -/
theorem fat_create_chain_extend {fs : fat_fs} (h : fs.Wf) {clst c t : ℕ} {l : List ℕ}
    (hc : find_free_cluster fs = .ok c) (hne : c ≠ 0) (hch : Chain fs clst (l ++ [t]))
    (hroot : ROOT_DIR_CLUSTER ∉ l) :
    fat_create_chain fs clst = .ok (c, append_cluster fs t c) := by
  obtain ⟨-, h2, hlt, hfree⟩ := find_free_cluster_pos h hc hne
  have hmem : clst ∈ l ++ [t] := hch.path.start_mem (by simp)
  have hclst := hch.range clst hmem
  have hcl : c ∉ l ++ [t] := hch.notMem_of_free hfree
  have hlen := hch.length_le h.toGeometry
  rw [List.length_append, List.length_singleton] at hlen
  rw [fat_create_chain, Outcome.assert_pos hclst.2]
  simp only [Outcome.ok_bind, hc, hne, if_false, fat_put_ok hlt]
  have hwalk := fat_create_chain_loop_eq (claim_cluster_wf h h2 hlt).toGeometry l
    (fs.fat_length + 1) clst
    (hch.path.update_of_notMem hcl) (fun k hk => (hch.range k hk).2) hroot (by omega)
  rw [claim_cluster] at hwalk
  rw [if_neg (by omega), hwalk]
  have hput : fat_put (claim_cluster fs c) t c = .ok (append_cluster fs t c) :=
    fat_put_ok (hch.range t (by simp)).2
  rw [claim_cluster] at hput
  simp only [Outcome.ok_bind, hput, Outcome.pure_eq]

/-- **`fat_create_chain` on the root directory**: the walk does not move, so the
found cluster goes behind cluster `1`, whatever followed it before. -/
theorem fat_create_chain_root {fs : fat_fs} (h : fs.Wf) {c : ℕ}
    (hc : find_free_cluster fs = .ok c) (hne : c ≠ 0) :
    fat_create_chain fs ROOT_DIR_CLUSTER = .ok (c, append_cluster fs ROOT_DIR_CLUSTER c) := by
  obtain ⟨-, -, hlt, -⟩ := find_free_cluster_pos h hc hne
  have h1 : ROOT_DIR_CLUSTER < fs.fat_length := by
    have := h.two_lt
    rw [ROOT_DIR_CLUSTER]
    omega
  rw [fat_create_chain, Outcome.assert_pos h1]
  simp only [Outcome.ok_bind, hc, hne, if_false, fat_put_ok hlt]
  rw [if_neg (by decide), fat_create_chain_loop, if_pos rfl]
  have hput : fat_put (claim_cluster fs c) ROOT_DIR_CLUSTER c
      = .ok (append_cluster fs ROOT_DIR_CLUSTER c) := fat_put_ok h1
  rw [claim_cluster] at hput
  simp only [Outcome.ok_bind, hput, Outcome.pure_eq]

/-- The chain after `append_cluster`. -/
theorem chain_append_cluster {fs : fat_fs} (hg : fs.Geometry) {clst c t : ℕ} {l : List ℕ}
    (hch : Chain fs clst (l ++ [t])) (hfree : fs.fat c = 0) (h1 : 1 ≤ c) (hlt : c < fs.fat_length) :
    Chain (append_cluster fs t c) clst (l ++ [t] ++ [c]) := by
  have hnd := hch.nodup hg
  have htl : t ∉ l := fun ht => by
    have := (List.nodup_append.mp hnd).2.2 t ht t (by simp)
    exact this rfl
  refine ⟨hch.path.append_fresh htl (hch.notMem_of_free hfree), fun k hk => ?_⟩
  rcases List.mem_append.mp hk with hk | hk
  · exact hch.range k hk
  · rw [List.mem_singleton.mp hk]
    exact ⟨h1, hlt⟩

/-! ## Removing a chain -/

/-- The table after the clusters of `l` have been freed. -/
def free_clusters (fs : fat_fs) (l : List ℕ) : fat_fs :=
  { fs with
    fat := fun k => if k ∈ l then 0 else fs.fat k
    last_clst := if fs.last_clst ∈ l then 2 else fs.last_clst }

theorem free_clusters_wf {fs : fat_fs} (h : fs.Wf) (l : List ℕ) : (free_clusters fs l).Wf := by
  have h2 := h.two_lt
  refine { two_lt := h.two_lt, length_le := h.length_le, start_pos := h.start_pos,
           no_wrap := h.no_wrap, last_ge := ?_, last_lt := ?_ }
  · show 2 ≤ (if fs.last_clst ∈ l then 2 else fs.last_clst)
    split
    · exact le_rfl
    · exact h.last_ge
  · show (if fs.last_clst ∈ l then 2 else fs.last_clst) < fs.fat_length
    split
    · exact h2
    · exact h.last_lt

/-- The loop of `fat_remove_chain` on a path of table entries. The links it follows are the
ones it has not cleared yet, because no cluster comes twice. -/
theorem fat_remove_chain_loop_path (l : List ℕ) :
    ∀ (fuel : ℕ) (fs : fat_fs) (clst : ℕ), Path fs.fat clst l EOChain → l.Nodup →
      (∀ k ∈ l, k < fs.fat_length ∧ k ≠ EOChain) → l.length < fuel →
        fat_remove_chain_loop fuel fs clst = .ok (free_clusters fs l) := by
  induction l with
  | nil =>
      intro fuel fs clst hp _ _ hf
      obtain ⟨fuel, rfl⟩ : ∃ m, fuel = m + 1 := ⟨fuel - 1, by omega⟩
      rw [fat_remove_chain_loop, if_pos (show clst = EOChain from hp)]
      simp [free_clusters]
  | cons x l ih =>
      intro fuel fs clst hp hnd hr hf
      obtain ⟨fuel, rfl⟩ : ∃ m, fuel = m + 1 := ⟨fuel - 1, by omega⟩
      obtain ⟨rfl, hp⟩ := hp
      obtain ⟨hxl, hnd⟩ := List.nodup_cons.mp hnd
      obtain ⟨hx, hxe⟩ := hr clst List.mem_cons_self
      rw [fat_remove_chain_loop, if_neg hxe, fat_get_ok hx]
      simp only [Outcome.ok_bind, fat_put_ok hx]
      -- what is left of the path is still a path once its first entry is cleared
      have hrest : Path (Function.update fs.fat clst 0) (fs.fat clst) l EOChain :=
        hp.update_of_notMem hxl
      have hr' : ∀ k ∈ l, k < fs.fat_length ∧ k ≠ EOChain := fun k hk =>
        hr k (List.mem_cons_of_mem _ hk)
      have hfat : (fun k => if k ∈ l then 0 else Function.update fs.fat clst 0 k)
          = fun k => if k ∈ clst :: l then 0 else fs.fat k := by
        funext k
        by_cases hk : k = clst
        · subst hk
          simp
        · simp [hk]
      by_cases hlc : fs.last_clst = clst
      · rw [if_pos hlc, ih fuel { fs with fat := Function.update fs.fat clst 0, last_clst := 2 } _
          hrest hnd hr' (by simpa using hf)]
        simp only [free_clusters, hfat]
        simp [hlc]
      · rw [if_neg hlc, ih fuel { fs with fat := Function.update fs.fat clst 0 } _ hrest hnd hr'
          (by simpa using hf)]
        simp only [free_clusters, hfat]
        simp [hlc]

theorem fat_remove_chain_loop_eq {l : List ℕ} {fuel : ℕ} {fs : fat_fs} {clst : ℕ}
    (hg : fs.Geometry) (hch : Chain fs clst l) (hf : l.length < fuel) :
    fat_remove_chain_loop fuel fs clst = .ok (free_clusters fs l) := by
  apply fat_remove_chain_loop_path l fuel fs clst hch.path (hch.nodup hg) _ hf
  exact fun k hk => ⟨(hch.range k hk).2, hch.ne_end hg k hk⟩

/-- **`fat_remove_chain`** of a whole chain frees exactly its clusters. -/
theorem fat_remove_chain_eq {fs : fat_fs} (h : fs.Wf) {clst : ℕ} {l : List ℕ}
    (hch : Chain fs clst l) (hclst : clst < fs.fat_length) :
    fat_remove_chain fs clst 0 = .ok (free_clusters fs l) := by
  have hlen := hch.length_le h.toGeometry
  rw [fat_remove_chain, Outcome.assert_pos hclst]
  simp only [Outcome.ok_bind, ne_eq, not_true_eq_false, if_false]
  exact fat_remove_chain_loop_eq h.toGeometry hch (by omega)

/-! ## What a run of searches hands out

`fat_allocate` and the extension loop of `inode_write_at` search, claim what
they found, and search again. `handout` is that run of searches on its own. -/

/-- The clusters that `n` searches in a row hand out, each claimed before the
next one starts; fewer than `n` when a search comes back empty. -/
def handout : fat_fs → ℕ → Outcome (List ℕ)
  | _, 0 => .ok []
  | fs, n + 1 => do
      let c ← find_free_cluster fs
      if c = 0 then return []
      let cs ← handout (claim_cluster fs c) n
      return c :: cs

/-- The search asks an entry only whether it is `0`. -/
theorem find_free_cluster_congr {fs fs' : fat_fs} (hlast : fs'.last_clst = fs.last_clst)
    (hlen : fs'.fat_length = fs.fat_length) (h : ∀ k, fs'.fat k = 0 ↔ fs.fat k = 0) :
    find_free_cluster fs' = find_free_cluster fs := by
  have hloop : ∀ find_end fuel c, find_free_cluster_loop fs' find_end fuel c
      = find_free_cluster_loop fs find_end fuel c := by
    intro find_end fuel
    induction fuel with
    | zero => intro c; rfl
    | succ fuel ih =>
        intro c
        rw [find_free_cluster_loop, find_free_cluster_loop]
        by_cases hc : c < fs.fat_length
        · rw [fat_get_ok (hlen ▸ hc), fat_get_ok hc]
          simp only [Outcome.ok_bind, hlen, ih, h]
        · rw [fat_get_undefined (hlen ▸ hc), fat_get_undefined hc]
          rfl
  rw [find_free_cluster, find_free_cluster, hloop, hlast, hlen]

theorem handout_congr (n : ℕ) : ∀ {fs fs' : fat_fs}, fs'.last_clst = fs.last_clst →
    fs'.fat_length = fs.fat_length → (∀ k, fs'.fat k = 0 ↔ fs.fat k = 0) →
      handout fs' n = handout fs n := by
  induction n with
  | zero => intro fs fs' _ _ _; rfl
  | succ n ih =>
      intro fs fs' hlast hlen h
      have hclaim : ∀ c, handout (claim_cluster fs' c) n = handout (claim_cluster fs c) n := by
        intro c
        refine ih rfl hlen fun k => ?_
        by_cases hk : k = c
        · subst hk
          simp [claim_cluster]
        · simp [claim_cluster, hk, h k]
      rw [handout, handout, find_free_cluster_congr hlast hlen h]
      simp only [hclaim]

/-- A table where `c` is linked behind a taken cluster has the same free clusters
as one where `c` is just claimed. -/
theorem handout_append_cluster {fs : fat_fs} {t c n : ℕ} (ht : fs.fat t ≠ 0) (hfree : fs.fat c = 0)
    (hc : c ≠ 0) : handout (append_cluster fs t c) n = handout (claim_cluster fs c) n := by
  refine handout_congr n rfl rfl fun k => ?_
  by_cases hkt : k = t
  · subst hkt
    have hkc : k ≠ c := fun h => ht (h ▸ hfree)
    rw [append_cluster_fat_tail, claim_cluster_fat_of_ne hkc]
    exact ⟨fun h => absurd h hc, fun h => absurd h ht⟩
  · simp [append_cluster, claim_cluster, hkt]

/-- A hand-out as long as asked for, taken apart: the first search, and the rest
of the hand-out in the table where its result is claimed. -/
theorem handout_cons {fs : fat_fs} (hwf : fs.Wf) {c : ℕ} {cs : List ℕ}
    (h : handout fs (c :: cs).length = .ok (c :: cs)) :
    find_free_cluster fs = .ok c ∧ c ≠ 0 ∧ 2 ≤ c ∧ c < fs.fat_length ∧ fs.fat c = 0
      ∧ handout (claim_cluster fs c) cs.length = .ok cs := by
  rw [List.length_cons, handout, Outcome.bind_eq_ok] at h
  obtain ⟨k, hk, h⟩ := h
  by_cases hk0 : k = 0
  · rw [if_pos hk0] at h
    cases h
  · rw [if_neg hk0, Outcome.bind_eq_ok] at h
    obtain ⟨cs', hcs', heq⟩ := h
    obtain ⟨rfl, rfl⟩ := List.cons.inj (Outcome.ok.inj heq)
    obtain ⟨-, h2, hlt, hfree⟩ := find_free_cluster_pos hwf hk hk0
    exact ⟨hk, hk0, h2, hlt, hfree, hcs'⟩

/-- The search ends, one way or the other. -/
theorem find_free_cluster_total {fs : fat_fs} (h : fs.Wf) :
    (∃ c, find_free_cluster fs = .ok c) ∨ find_free_cluster fs = .undefined := by
  have hlt := h.last_lt
  rcases Nat.lt_or_ge (fs.last_clst + 1) fs.fat_length with hl | hl
  · exact .inl ⟨_, find_free_cluster_eq h hl⟩
  · exact .inr (find_free_cluster_undefined (by omega))

/-- What is handed out was free, is handed out once, and is at most what was
asked for. -/
theorem handout_spec (n : ℕ) : ∀ {fs : fat_fs}, fs.Wf → ∀ {cs : List ℕ}, handout fs n = .ok cs →
    cs.length ≤ n ∧ cs.Nodup ∧ ∀ c ∈ cs, 2 ≤ c ∧ c < fs.fat_length ∧ fs.fat c = 0 := by
  induction n with
  | zero =>
      intro fs _ cs h
      obtain rfl : [] = cs := Outcome.ok.inj h
      simp
  | succ n ih =>
      intro fs hwf cs h
      rw [handout, Outcome.bind_eq_ok] at h
      obtain ⟨c, hc, h⟩ := h
      by_cases hc0 : c = 0
      · rw [if_pos hc0] at h
        obtain rfl : [] = cs := Outcome.ok.inj h
        simp
      · rw [if_neg hc0, Outcome.bind_eq_ok] at h
        obtain ⟨rest, hrest, hcs⟩ := h
        obtain rfl : c :: rest = cs := Outcome.ok.inj hcs
        obtain ⟨-, h2, hlt, hfree⟩ := find_free_cluster_pos hwf hc hc0
        obtain ⟨hlen, hnd, hmem⟩ := ih (claim_cluster_wf hwf h2 hlt) hrest
        -- the rest is free in the claimed table, where `c` is not
        have hold : ∀ k ∈ rest, k ≠ c ∧ fs.fat k = 0 := by
          intro k hk
          have hk0 := (hmem k hk).2.2
          by_cases hkc : k = c
          · rw [hkc, claim_cluster_fat_self] at hk0
            exact absurd hk0 (by decide)
          · rw [claim_cluster_fat_of_ne hkc] at hk0
            exact ⟨hkc, hk0⟩
        refine ⟨by simpa using hlen, List.nodup_cons.mpr ⟨fun hk => (hold c hk).1 rfl, hnd⟩, ?_⟩
        intro k hk
        rcases List.mem_cons.mp hk with rfl | hk
        · exact ⟨h2, hlt, hfree⟩
        · exact ⟨(hmem k hk).1, (hmem k hk).2.1, (hold k hk).2⟩

/-! ## `fat_allocate` -/

/-- Put the clusters of `cs`, one after the other, behind `prev`. -/
def link_clusters : fat_fs → ℕ → List ℕ → fat_fs
  | fs, _, [] => fs
  | fs, prev, c :: cs => link_clusters (append_cluster fs prev c) c cs

/-- Linking behind a claimed cluster keeps every other entry, and makes one
chain of the old one and the new clusters. -/
theorem link_clusters_spec (cs : List ℕ) : ∀ {fs : fat_fs} {start prev : ℕ} {l : List ℕ}, fs.Wf →
    Chain fs start (l ++ [prev]) → cs.Nodup →
      (∀ c ∈ cs, 2 ≤ c ∧ c < fs.fat_length ∧ fs.fat c = 0) →
      Chain (link_clusters fs prev cs) start (l ++ [prev] ++ cs)
        ∧ (∀ k, k ≠ prev → k ∉ cs → (link_clusters fs prev cs).fat k = fs.fat k)
        ∧ (link_clusters fs prev cs).Wf
        ∧ (link_clusters fs prev cs).fat_length = fs.fat_length
        ∧ (link_clusters fs prev cs).data_start = fs.data_start
        ∧ (link_clusters fs prev cs).bs = fs.bs
        ∧ (link_clusters fs prev cs).last_clst = cs.getLast?.getD fs.last_clst := by
  induction cs with
  | nil =>
      intro fs start prev l hwf hch _ _
      exact ⟨by simpa [link_clusters] using hch, fun k _ _ => rfl, hwf, rfl, rfl, rfl, rfl⟩
  | cons c cs ih =>
      intro fs start prev l hwf hch hnd hmem
      obtain ⟨h2, hlt, hfree⟩ := hmem c List.mem_cons_self
      obtain ⟨hcc, hnd⟩ := List.nodup_cons.mp hnd
      have hch' := chain_append_cluster hwf.toGeometry hch hfree (by omega) hlt
      have hprev : prev ∉ cs := fun hk =>
        hch.entry_ne_zero (by simp) (hmem prev (List.mem_cons_of_mem _ hk)).2.2
      have hmem' : ∀ k ∈ cs, 2 ≤ k ∧ k < (append_cluster fs prev c).fat_length
          ∧ (append_cluster fs prev c).fat k = 0 := by
        intro k hk
        obtain ⟨k2, klt, k0⟩ := hmem k (List.mem_cons_of_mem _ hk)
        have hkp : k ≠ prev := fun h => hprev (h ▸ hk)
        have hkc : k ≠ c := fun h => hcc (h ▸ hk)
        exact ⟨k2, klt, (append_cluster_fat_of_ne hkp hkc).trans k0⟩
      obtain ⟨hc1, hc2, hc3, hc4, hc5, hc6, hc7⟩ :=
        ih (append_cluster_wf hwf h2 hlt) hch' hnd hmem'
      refine ⟨by simpa [link_clusters] using hc1, ?_, hc3, hc4, hc5, hc6, ?_⟩
      · intro k hkp hk
        have hkc : k ≠ c := fun h => hk (by simp [h])
        rw [link_clusters, hc2 k hkc (fun h => hk (List.mem_cons_of_mem _ h)),
          append_cluster_fat_of_ne hkp hkc]
      · rw [link_clusters, hc7, List.getLast?_cons]
        simp

/-- The loop of `fat_allocate` behind a freshly claimed `prev`: link what the
searches hand out. One decrement too many is what makes a hand-out that misses
only the last cluster look complete. -/
theorem fat_allocate_loop_eq (m : ℕ) : ∀ {fs : fat_fs} {prev : ℕ}, fs.Wf → 2 ≤ prev →
    Chain fs prev [prev] →
      fat_allocate_loop fs prev m
        = (do let cs ← handout fs m; return (m - (cs.length + 1), link_clusters fs prev cs)) := by
  induction m with
  | zero => intro fs prev _ _ _; rfl
  | succ m ih =>
      intro fs prev hwf hprev hch
      have hplt := (hch.range prev (by simp)).2
      rw [fat_allocate_loop, if_neg (by omega), handout]
      rcases find_free_cluster_total hwf with ⟨c, hc⟩ | hc
      · by_cases hc0 : c = 0
        · subst hc0
          rw [fat_create_chain_full hplt hc, hc]
          cases m with
          | zero => rfl
          | succ m => simp [fat_allocate_loop, link_clusters]
        · obtain ⟨-, h2, hlt, hfree⟩ := find_free_cluster_pos hwf hc hc0
          rw [fat_create_chain_extend hwf hc hc0 (l := []) hch (by simp), hc]
          simp only [Outcome.ok_bind, hc0, if_false]
          have hch' : Chain (append_cluster fs prev c) c [c] := by
            have hcp : c ≠ prev := fun h => hch.entry_ne_zero (by simp) (h ▸ hfree)
            refine ⟨⟨rfl, append_cluster_fat_new hcp⟩, fun k hk => ?_⟩
            rw [List.mem_singleton.mp hk]
            exact ⟨by omega, hlt⟩
          rw [ih (append_cluster_wf hwf h2 hlt) h2 hch',
            handout_append_cluster (hch.entry_ne_zero (by simp)) hfree hc0]
          cases handout (claim_cluster fs c) m with
          | ok cs => simp [link_clusters]
          | panic => rfl
          | undefined => rfl
          | diverge => rfl
      · rw [fat_create_chain_undefined hplt hc, hc]
        rfl

/-- A chain of one claimed cluster. -/
theorem chain_claim_cluster {fs : fat_fs} {c : ℕ} (h2 : 2 ≤ c) (hlt : c < fs.fat_length) :
    Chain (claim_cluster fs c) c [c] :=
  ⟨⟨rfl, Function.update_self _ _ _⟩, fun k hk => by
    rw [List.mem_singleton.mp hk]
    exact ⟨by omega, hlt⟩⟩

/-- The table after a hand-out has been claimed and linked: one new chain, and
every entry off it as before. -/
theorem link_handout {fs : fat_fs} (hwf : fs.Wf) {n c : ℕ} {rest : List ℕ}
    (h : handout fs n = .ok (c :: rest)) :
    Chain (link_clusters (claim_cluster fs c) c rest) c (c :: rest)
      ∧ (∀ k ∉ c :: rest, (link_clusters (claim_cluster fs c) c rest).fat k = fs.fat k)
      ∧ (link_clusters (claim_cluster fs c) c rest).Wf
      ∧ (link_clusters (claim_cluster fs c) c rest).fat_length = fs.fat_length
      ∧ (link_clusters (claim_cluster fs c) c rest).data_start = fs.data_start := by
  obtain ⟨-, hnd, hmem⟩ := handout_spec n hwf h
  obtain ⟨h2, hlt, -⟩ := hmem c List.mem_cons_self
  obtain ⟨hcr, hnd⟩ := List.nodup_cons.mp hnd
  have hmem' : ∀ k ∈ rest, 2 ≤ k ∧ k < (claim_cluster fs c).fat_length
      ∧ (claim_cluster fs c).fat k = 0 := by
    intro k hk
    obtain ⟨k2, klt, k0⟩ := hmem k (List.mem_cons_of_mem _ hk)
    exact ⟨k2, klt, (claim_cluster_fat_of_ne fun hkc : k = c => hcr (hkc ▸ hk)).trans k0⟩
  obtain ⟨hch, hfr, hwf', hlen, hds, -, -⟩ := link_clusters_spec rest (l := [])
    (claim_cluster_wf hwf h2 hlt) (chain_claim_cluster h2 hlt) hnd hmem'
  refine ⟨hch, fun k hk => ?_, hwf', hlen, hds⟩
  have hkc : k ≠ c := fun h => hk (by simp [h])
  rw [hfr k hkc fun h => hk (List.mem_cons_of_mem _ h), claim_cluster_fat_of_ne hkc]

/-- **`fat_allocate`**, for a positive count, in terms of what the searches
hand out: all of it, or all but the last, is a success with that chain; less
than that is a success too, with the chain given back and `*clusterp` untouched;
nothing at all is a failure, after removing "chain 0" unless one cluster was
wanted. -/
theorem fat_allocate_spec {fs : fat_fs} (hwf : fs.Wf) {n : ℕ} (hn : 0 < n) (clusterp : ℕ) :
    fat_allocate fs n clusterp = (do
      let cs ← handout fs n
      match cs with
      | [] =>
          if n = 1 then return (false, 0, fs)
          else do
            let fs' ← fat_remove_chain fs 0 0
            return (false, clusterp, fs')
      | c :: rest =>
          if n ≤ rest.length + 2 then
            return (true, c, link_clusters (claim_cluster fs c) c rest)
          else
            return (true, clusterp,
              free_clusters (link_clusters (claim_cluster fs c) c rest) (c :: rest))) := by
  obtain ⟨m, rfl⟩ : ∃ m, n = m + 1 := ⟨n - 1, by omega⟩
  have h0 : 0 < fs.fat_length := by have := hwf.two_lt; omega
  rw [fat_allocate, if_neg (by omega), handout]
  rcases find_free_cluster_total hwf with ⟨c, hc⟩ | hc
  · by_cases hc0 : c = 0
    · subst hc0
      rw [fat_create_chain_full h0 hc, hc]
      cases m with
      | zero => rfl
      | succ m => simp [fat_allocate_loop]
    · obtain ⟨-, h2, hlt, hfree⟩ := find_free_cluster_pos hwf hc hc0
      rw [fat_create_chain_start hwf hc hc0, hc]
      simp only [Outcome.ok_bind, Nat.add_sub_cancel, hc0, if_false]
      have hwf' := claim_cluster_wf hwf h2 hlt
      rw [fat_allocate_loop_eq m hwf' h2 (chain_claim_cluster h2 hlt)]
      cases hcs : handout (claim_cluster fs c) m with
      | ok rest =>
          obtain ⟨-, hnd, hmem⟩ := handout_spec m hwf' hcs
          obtain ⟨hch, -, hwf'', -⟩ := link_clusters_spec rest (l := []) hwf'
            (chain_claim_cluster h2 hlt) hnd hmem
          simp only [Outcome.ok_bind, Outcome.pure_eq]
          by_cases hfit : m + 1 ≤ rest.length + 2
          · rw [if_neg (by omega), if_pos hfit]
            simp [hc0]
          · rw [if_pos (by omega), if_neg hfit,
              fat_remove_chain_eq hwf'' (by simpa using hch) (hch.range c (by simp)).2]
            simp [hc0]
      | panic => rfl
      | undefined => rfl
      | diverge => rfl
  · rw [fat_create_chain_undefined h0 hc, hc]
    rfl

end Pintos
