/-
`filesys/fat.c`: the file allocation table.

The table is an array of `fat_length` words. Entry `c` names the cluster after
`c` in its chain, `EOChain` ends a chain and `0` marks a free cluster. New
clusters come from a next-fit search (`find_free_cluster`) that starts behind
`last_clst`, the cluster handed out last.

The functions keep the C's order of statements and its accesses. An access at
an index of `fat_length` or more leaves the `calloc`ed table, so `fat_get` and
`fat_put` are `undefined` there; this is not hypothetical, because the search
begins at `last_clst + 1` without a check.

Loops carry `fat_length + 1` units of fuel. A walk that has not ended after
that many in-range clusters has visited one of them twice, and none of these
loops leaves a cycle once it is in one.
-/
import Pintos.Lib.Outcome
import Pintos.Lib.Path
import Mathlib.Data.List.Range
import Mathlib.Tactic.Linarith

set_option autoImplicit false

namespace Pintos

/-! ## Constants -/

/-- `EOChain`: the entry that ends a chain. -/
def EOChain : ℕ := 0x0FFFFFFF

/-- `ROOT_DIR_CLUSTER`: where the root directory's data starts. -/
def ROOT_DIR_CLUSTER : ℕ := 1

/-- `FAT_MAGIC`. -/
def FAT_MAGIC : ℕ := 0xEB3C9000

/-- `SECTORS_PER_CLUSTER`. -/
def SECTORS_PER_CLUSTER : ℕ := 1

/-- `FAT_BOOT_SECTOR`. -/
def FAT_BOOT_SECTOR : ℕ := 0

/-! ## State -/

/-- `struct fat_boot`. -/
structure fat_boot where
  magic : ℕ
  sectors_per_cluster : ℕ
  total_sectors : ℕ
  fat_start : ℕ
  fat_sectors : ℕ
  root_dir_cluster : ℕ
  deriving DecidableEq, Repr

/-- `struct fat_fs`, less its unused lock. -/
structure fat_fs where
  bs : fat_boot
  /-- The table; only the entries below `fat_length` exist. -/
  fat : ℕ → ℕ
  fat_length : ℕ
  data_start : ℕ
  last_clst : ℕ

/-! ## The functions of `fat.c` on the table in memory -/

/-- `fat_put`. -/
def fat_put (fs : fat_fs) (clst val : ℕ) : Outcome fat_fs :=
  if clst < fs.fat_length then .ok { fs with fat := Function.update fs.fat clst val }
  else .undefined

/-- `fat_get`. -/
def fat_get (fs : fat_fs) (clst : ℕ) : Outcome ℕ :=
  if clst < fs.fat_length then .ok (fs.fat clst) else .undefined

/-- `cluster_to_sector`, in the 32-bit arithmetic of `disk_sector_t`. -/
def cluster_to_sector (fs : fat_fs) (clst : ℕ) : ℕ :=
  (fs.data_start + (2 ^ 32 - 1 + clst) % 2 ^ 32) % 2 ^ 32

/-- `sector_to_cluster`, in the same arithmetic. -/
def sector_to_cluster (fs : fat_fs) (sector : ℕ) : ℕ :=
  ((sector + (2 ^ 32 - fs.data_start % 2 ^ 32)) % 2 ^ 32 + 1) % 2 ^ 32

/-- The loop of `find_free_cluster`. -/
def find_free_cluster_loop (fs : fat_fs) (find_end : ℕ) : ℕ → ℕ → Outcome ℕ
  | 0, _ => .diverge
  | fuel + 1, finding_clst =>
      if finding_clst = find_end then .ok 0
      else do
        let v ← fat_get fs finding_clst
        if v = 0 then return finding_clst
        let finding_clst := finding_clst + 1
        find_free_cluster_loop fs find_end fuel
          (if finding_clst = fs.fat_length then 2 else finding_clst)

/-- `find_free_cluster`: `0` when the search comes round to `last_clst`. -/
def find_free_cluster (fs : fat_fs) : Outcome ℕ :=
  find_free_cluster_loop fs fs.last_clst (fs.fat_length + 1) (fs.last_clst + 1)

/-- The walk of `fat_create_chain` to the end of a chain. It does not move off
`ROOT_DIR_CLUSTER`. -/
def fat_create_chain_loop (fs : fat_fs) : ℕ → ℕ → Outcome ℕ
  | 0, _ => .diverge
  | fuel + 1, clst =>
      if clst = ROOT_DIR_CLUSTER then .ok clst
      else do
        let v ← fat_get fs clst
        if v = EOChain then return clst
        fat_create_chain_loop fs fuel v

/-- `fat_create_chain`: append a free cluster to the chain of `clst`, or start a
chain when `clst` is `0`. Returns `0` when the search finds nothing. -/
def fat_create_chain (fs : fat_fs) (clst : ℕ) : Outcome (ℕ × fat_fs) := do
  Outcome.assert (clst < fs.fat_length)
  let new_clst ← find_free_cluster fs
  if new_clst = 0 then return (0, fs)
  let fs ← fat_put fs new_clst EOChain
  let fs := { fs with last_clst := new_clst }
  if clst = 0 then return (new_clst, fs)
  let clst ← fat_create_chain_loop fs (fs.fat_length + 1) clst
  let fs ← fat_put fs clst new_clst
  return (new_clst, fs)

/-- The loop of `fat_remove_chain`. -/
def fat_remove_chain_loop : ℕ → fat_fs → ℕ → Outcome fat_fs
  | 0, _, _ => .diverge
  | fuel + 1, fs, clst =>
      if clst = EOChain then .ok fs
      else do
        let next ← fat_get fs clst
        let fs ← fat_put fs clst 0
        let fs := if fs.last_clst = clst then { fs with last_clst := 2 } else fs
        fat_remove_chain_loop fuel fs next

/-- `fat_remove_chain`. -/
def fat_remove_chain (fs : fat_fs) (clst pclst : ℕ) : Outcome fat_fs := do
  Outcome.assert (clst < fs.fat_length)
  let fs ← if pclst ≠ 0 then fat_put fs pclst EOChain else .ok fs
  fat_remove_chain_loop (fs.fat_length + 1) fs clst

/-- `fat_release`. -/
def fat_release (fs : fat_fs) (clst : ℕ) : Outcome fat_fs :=
  fat_remove_chain fs clst 0

/-- The loop of `fat_allocate`: extend from `prev` while clusters are wanted.
Returns what is left of `cnt`. -/
def fat_allocate_loop : fat_fs → ℕ → ℕ → Outcome (ℕ × fat_fs)
  | fs, _, 0 => .ok (0, fs)
  | fs, prev, cnt + 1 =>
      if prev = 0 then .ok (cnt + 1, fs)
      else do
        let (prev, fs) ← fat_create_chain fs prev
        fat_allocate_loop fs prev cnt

/-- `fat_allocate`: a chain of `cnt` clusters. `clusterp` is the old value of
`*clusterp`; the second component of the result is the new one. -/
def fat_allocate (fs : fat_fs) (cnt clusterp : ℕ) : Outcome (Bool × ℕ × fat_fs) := do
  if cnt = 0 then return (true, clusterp, fs)
  let (start, fs) ← fat_create_chain fs 0
  let (cnt, fs) ← fat_allocate_loop fs start (cnt - 1)
  if cnt ≠ 0 then
    let fs ← fat_remove_chain fs start 0
    return (start ≠ 0, clusterp, fs)
  else
    return (start ≠ 0, start, fs)

/-! ## Well-formed tables

What `fat_boot_create`, `fat_fs_init` and the operations above keep true of the
geometry and of the search position. -/

/-- The geometry of a table: it has a first allocatable cluster, `EOChain` is
not an index, and sector numbers do not wrap. -/
structure fat_fs.Geometry (fs : fat_fs) : Prop where
  two_lt : 2 < fs.fat_length
  length_le : fs.fat_length ≤ EOChain
  start_pos : 0 < fs.data_start
  no_wrap : fs.data_start + fs.fat_length < 2 ^ 32

/-- A well-formed table: the geometry, and a search position inside the table. -/
structure fat_fs.Wf (fs : fat_fs) : Prop extends fs.Geometry where
  last_ge : 2 ≤ fs.last_clst
  last_lt : fs.last_clst < fs.fat_length

section Access

variable {fs : fat_fs} {clst val : ℕ}

theorem fat_get_ok (h : clst < fs.fat_length) : fat_get fs clst = .ok (fs.fat clst) := if_pos h

theorem fat_get_undefined (h : ¬ clst < fs.fat_length) : fat_get fs clst = .undefined := if_neg h

theorem fat_put_ok (h : clst < fs.fat_length) :
    fat_put fs clst val = .ok { fs with fat := Function.update fs.fat clst val } := if_pos h

/-- In range, a cluster's sector is its distance from cluster 1. -/
theorem cluster_to_sector_eq (hg : fs.Geometry) (h₁ : 1 ≤ clst) (h₂ : clst ≤ fs.fat_length) :
    cluster_to_sector fs clst = fs.data_start + clst - 1 := by
  have := hg.no_wrap
  unfold cluster_to_sector
  omega

theorem cluster_to_sector_inj (hg : fs.Geometry) {c d : ℕ} (hc : c ≤ fs.fat_length)
    (hd : d ≤ fs.fat_length) (h : cluster_to_sector fs c = cluster_to_sector fs d) : c = d := by
  have := hg.no_wrap
  have := hg.start_pos
  unfold cluster_to_sector at h
  omega

theorem sector_to_cluster_to_sector (hg : fs.Geometry) (h₁ : 1 ≤ clst) (h₂ : clst ≤ fs.fat_length) :
    sector_to_cluster fs (cluster_to_sector fs clst) = clst := by
  have := hg.no_wrap
  have := hg.two_lt
  have := hg.length_le
  rw [cluster_to_sector_eq hg h₁ h₂]
  unfold sector_to_cluster
  unfold EOChain at *
  omega

end Access

/-! ## The next-fit search -/

/-- The clusters in the order the search looks at them: up from `last_clst + 1`,
then from `2` up to `last_clst`, which ends the search unread. -/
def search_order (fs : fat_fs) : List ℕ :=
  List.range' (fs.last_clst + 1) (fs.fat_length - (fs.last_clst + 1))
    ++ List.range' 2 (fs.last_clst - 2)

/-- The part of the search that has wrapped round to `2`. -/
theorem find_free_cluster_loop_low (fs : fat_fs) {find_end : ℕ} (he : find_end < fs.fat_length)
    (n : ℕ) : ∀ fuel c, c + n = find_end → n < fuel →
      find_free_cluster_loop fs find_end fuel c
        = .ok (((List.range' c n).find? (fun k => fs.fat k = 0)).getD 0) := by
  induction n with
  | zero =>
      intro fuel c hc hf
      obtain ⟨fuel, rfl⟩ : ∃ m, fuel = m + 1 := ⟨fuel - 1, by omega⟩
      simp [find_free_cluster_loop, show c = find_end by omega]
  | succ n ih =>
      intro fuel c hc hf
      obtain ⟨fuel, rfl⟩ : ∃ m, fuel = m + 1 := ⟨fuel - 1, by omega⟩
      have hne : c ≠ find_end := by omega
      rw [find_free_cluster_loop, if_neg hne, fat_get_ok (by omega), List.range'_succ,
        List.find?_cons]
      by_cases h0 : fs.fat c = 0
      · simp [h0]
      · have hwrap : c + 1 ≠ fs.fat_length := by omega
        simp only [Outcome.ok_bind, h0, if_false, hwrap, decide_false]
        exact ih fuel (c + 1) (by omega) (by omega)

/-- The part of the search above `last_clst`. -/
theorem find_free_cluster_loop_high (fs : fat_fs) {find_end : ℕ} (h2 : 2 ≤ find_end)
    (he : find_end < fs.fat_length) (n : ℕ) :
    ∀ fuel c, find_end < c → c + n + 1 = fs.fat_length → n + find_end < fuel →
      find_free_cluster_loop fs find_end fuel c
        = .ok (((List.range' c (n + 1) ++ List.range' 2 (find_end - 2)).find?
            (fun k => fs.fat k = 0)).getD 0) := by
  induction n with
  | zero =>
      intro fuel c hlt hc hf
      obtain ⟨fuel, rfl⟩ : ∃ m, fuel = m + 1 := ⟨fuel - 1, by omega⟩
      rw [find_free_cluster_loop, if_neg (by omega), fat_get_ok (by omega)]
      by_cases h0 : fs.fat c = 0
      · simp [h0]
      · have hwrap : c + 1 = fs.fat_length := by omega
        simp only [Outcome.ok_bind, h0, if_false, hwrap, if_true]
        rw [find_free_cluster_loop_low fs he (find_end - 2) fuel 2 (by omega) (by omega)]
        simp [List.range'_succ, h0]
  | succ n ih =>
      intro fuel c hlt hc hf
      obtain ⟨fuel, rfl⟩ : ∃ m, fuel = m + 1 := ⟨fuel - 1, by omega⟩
      rw [find_free_cluster_loop, if_neg (by omega), fat_get_ok (by omega), List.range'_succ,
        List.cons_append, List.find?_cons]
      by_cases h0 : fs.fat c = 0
      · simp [h0]
      · have hwrap : c + 1 ≠ fs.fat_length := by omega
        simp only [Outcome.ok_bind, h0, if_false, hwrap, decide_false]
        exact ih fuel (c + 1) (by omega) (by omega) (by omega)

/-- **The search.** Unless it has to start at the end of the table, it returns
the first free cluster in `search_order`, or `0`. -/
theorem find_free_cluster_eq {fs : fat_fs} (h : fs.Wf) (hlast : fs.last_clst + 1 < fs.fat_length) :
    find_free_cluster fs
      = .ok (((search_order fs).find? (fun k => fs.fat k = 0)).getD 0) := by
  have h2 := h.last_ge
  have hn : fs.fat_length - (fs.last_clst + 1) = fs.fat_length - (fs.last_clst + 2) + 1 := by omega
  rw [find_free_cluster, search_order, hn]
  exact find_free_cluster_loop_high fs h2 h.last_lt _ _ _ (by omega) (by omega) (by omega)

/-- Started at the end of the table, the search reads past it. -/
theorem find_free_cluster_undefined {fs : fat_fs} (hlast : fs.last_clst + 1 = fs.fat_length) :
    find_free_cluster fs = .undefined := by
  rw [find_free_cluster, find_free_cluster_loop, if_neg (by omega), fat_get_undefined (by omega)]
  rfl

theorem mem_search_order {fs : fat_fs} (h : fs.Wf) {c : ℕ} :
    c ∈ search_order fs ↔ 2 ≤ c ∧ c < fs.fat_length ∧ c ≠ fs.last_clst := by
  have := h.last_ge
  have := h.last_lt
  simp only [search_order, List.mem_append, List.mem_range'_1]
  omega

/-- What a search that returns a cluster says about it. -/
theorem find_free_cluster_pos {fs : fat_fs} (h : fs.Wf) {c : ℕ}
    (hc : find_free_cluster fs = .ok c) (hne : c ≠ 0) :
    fs.last_clst + 1 < fs.fat_length ∧ 2 ≤ c ∧ c < fs.fat_length ∧ fs.fat c = 0 := by
  have hlt := h.last_lt
  rcases Nat.lt_or_ge (fs.last_clst + 1) fs.fat_length with hlast | hlast
  · rw [find_free_cluster_eq h hlast] at hc
    have hc' := Outcome.ok.inj hc
    cases hf : (search_order fs).find? (fun k => fs.fat k = 0) with
    | none => exact absurd (by rw [← hc', hf]; rfl) hne
    | some k =>
        rw [hf] at hc'
        obtain rfl : k = c := hc'
        have hmem := (mem_search_order h).mp (List.mem_of_find?_eq_some hf)
        have hfree := List.find?_some hf
        exact ⟨hlast, hmem.1, hmem.2.1, by simpa using hfree⟩
  · rw [find_free_cluster_undefined (by omega)] at hc
    cases hc

/-- A search that returns `0` has seen no free cluster; it does not look at
`last_clst` itself. -/
theorem find_free_cluster_zero {fs : fat_fs} (h : fs.Wf) (hc : find_free_cluster fs = .ok 0) :
    ∀ c, 2 ≤ c → c < fs.fat_length → c ≠ fs.last_clst → fs.fat c ≠ 0 := by
  intro c h2 hlt hne hfree
  have hlast := h.last_lt
  rcases Nat.lt_or_ge (fs.last_clst + 1) fs.fat_length with hl | hl
  · rw [find_free_cluster_eq h hl] at hc
    have hc' := Outcome.ok.inj hc
    cases hf : (search_order fs).find? (fun k => fs.fat k = 0) with
    | none =>
        have := List.find?_eq_none.mp hf c ((mem_search_order h).mpr ⟨h2, hlt, hne⟩)
        exact this (by simpa using hfree)
    | some k =>
        rw [hf] at hc'
        obtain rfl : k = 0 := hc'
        have := (mem_search_order h).mp (List.mem_of_find?_eq_some hf)
        omega
  · rw [find_free_cluster_undefined (by omega)] at hc
    cases hc

/-- Right behind a cluster that is followed by a free one, the search takes
that one. This is what makes consecutive clusters come out of consecutive
searches. -/
theorem find_free_cluster_next {fs : fat_fs}
    (hlt : fs.last_clst + 1 < fs.fat_length) (hfree : fs.fat (fs.last_clst + 1) = 0) :
    find_free_cluster fs = .ok (fs.last_clst + 1) := by
  rw [find_free_cluster, find_free_cluster_loop, if_neg (by omega), fat_get_ok hlt]
  simp [hfree]

end Pintos
