/-
`fat_create_chain` and `fat_remove_chain`, on every table they are called on.

`FatChain.lean` says what the two walks do to one chain. Here the table is taken as a whole:
`Chained` is what it is for the chains of a table to be acyclic, in range and disjoint, and
`fat_create_chain_appends` says that an extension keeps it, with one chain longer by one
cluster and the others as they were. Of a removal no more is assumed than that the entries
from `clst` lead to `EOChain` (`Leads`): what else is in the table does not matter to it.
-/
import Pintos.Filesys.ChainCover

set_option autoImplicit false

namespace Pintos

/-! ## Tables of chains -/

/-- **The chains of a table are acyclic, in range and disjoint.** A cluster is in use when its
entry is not `0`. From each cluster in use the table leads through clusters in range to `EOChain`,
and no two of them have the same successor. `ROOT_DIR_CLUSTER` only ever starts a chain: the
search never hands it out. -/
structure fat_fs.Chained (fs : fat_fs) : Prop where
  chain : ∀ c, 1 ≤ c → c < fs.fat_length → fs.fat c ≠ 0 → ∃ l, Chain fs c l
  apart : ∀ c d, 1 ≤ c → c < fs.fat_length → 1 ≤ d → d < fs.fat_length → fs.fat c ≠ 0 →
    fs.fat c ≠ EOChain → fs.fat c = fs.fat d → c = d
  root : ∀ c, 1 ≤ c → c < fs.fat_length → fs.fat c ≠ ROOT_DIR_CLUSTER

section Chained

variable {fs : fat_fs} {clst c n t : ℕ} {l m : List ℕ}

/-- Behind its start a chain does not come to `ROOT_DIR_CLUSTER`. -/
theorem fat_fs.Chained.root_notMem (h : fs.Chained) (l : List ℕ) : ∀ c, Chain fs c l → 2 ≤ c →
    ROOT_DIR_CLUSTER ∉ l := by
  induction l with
  | nil => simp
  | cons x l ih =>
      intro c hch h2 hmem
      obtain rfl : c = x := hch.path.1
      have hc := hch.range c List.mem_cons_self
      rcases List.mem_cons.mp hmem with hroot | hmem
      · rw [← hroot] at h2
        exact absurd h2 (by decide)
      · have hrest : Chain fs (fs.fat c) l :=
          ⟨hch.path.2, fun k hk => hch.range k (List.mem_cons_of_mem _ hk)⟩
        have hnext := (hrest.range _ (hrest.path.start_mem (List.ne_nil_of_mem hmem))).1
        have hne := h.root c hc.1 hc.2
        rw [ROOT_DIR_CLUSTER] at hne
        exact ih _ hrest (by omega) hmem

/-- A chain that has the last cluster of another ends with it. -/
theorem Chain.ends_at (hg : fs.Geometry) (hch : Chain fs c m) (ht : t ∈ m)
    (hend : fs.fat t = EOChain) : ∃ s, m = s ++ [t] := by
  obtain ⟨s, r, rfl⟩ := List.append_of_mem ht
  obtain ⟨k, -, hk⟩ := Path.append_iff.mp hch.path
  have hr : r = [] := by
    by_contra hne
    have hmem : EOChain ∈ r := hend ▸ hk.2.start_mem hne
    exact hch.ne_end hg EOChain (by simp [hmem]) rfl
  exact ⟨s, by rw [hr]⟩

/-- A chain through `clst` has the whole rest of the chain of `clst`. -/
theorem Chain.rest_mem (hg : fs.Geometry) (hch : Chain fs c m) (hc : clst ∈ m)
    (hl : Chain fs clst l) : ∀ k ∈ l, k ∈ m := by
  obtain ⟨s, r, rfl⟩ := List.append_of_mem hc
  obtain ⟨k, -, hk⟩ := Path.append_iff.mp hch.path
  obtain rfl : k = clst := hk.1
  have hrest : Chain fs k (k :: r) := ⟨hk, fun j hj => hch.range j (by simp [List.mem_cons.mp hj])⟩
  rw [hl.unique hg hrest]
  intro j hj
  exact List.mem_append_right _ hj

end Chained

/-! ## `fat_create_chain` -/

/-- What a successful `fat_create_chain` makes of the table: `n` is the cluster it took. -/
structure Appended (fs : fat_fs) (clst n : ℕ) (fs' : fat_fs) : Prop where
  new_entry : fs'.fat n = EOChain
  last : fs'.last_clst = n
  /-- The end of the chain of `clst` leads to `n`, and no other entry changes. -/
  tail : clst ≠ 0 → ∃ t, OnChain fs clst t ∧ fs.fat t = EOChain ∧ fs'.fat t = n
    ∧ ∀ k, k ≠ t → k ≠ n → fs'.fat k = fs.fat k
  alone : clst = 0 → ∀ k, k ≠ n → fs'.fat k = fs.fat k
  chained : fs'.Chained
  /-- The chain of `clst` is one longer at its end. -/
  grows : ∀ h l, Chain fs h l → clst ∈ l → Chain fs' h (l ++ [n])
  /-- The other chains are as they were. -/
  keeps : ∀ h l, Chain fs h l → (∀ k ∈ l, ¬ OnChain fs clst k) → Chain fs' h l
  starts : clst = 0 → Chain fs' n [n]
  geometry : fs'.bs = fs.bs ∧ fs'.fat_length = fs.fat_length ∧ fs'.data_start = fs.data_start

section Create

variable {fs : fat_fs} {clst c n t : ℕ} {l : List ℕ}

/-- A cluster taken for a chain of its own. -/
theorem claim_cluster_appended (h : fs.Chained) (h2 : 2 ≤ n) (hlt : n < fs.fat_length)
    (hfree : fs.fat n = 0) : Appended fs 0 n (claim_cluster fs n) := by
  have hkeep : ∀ c l, Chain fs c l → Chain (claim_cluster fs n) c l := fun c l hl =>
    hl.congr rfl fun k hk => claim_cluster_fat_of_ne fun hkn => hl.notMem_of_free hfree (hkn ▸ hk)
  have hother : ∀ k, k ≠ n → (claim_cluster fs n).fat k = fs.fat k := fun k hk =>
    claim_cluster_fat_of_ne hk
  refine
    { new_entry := claim_cluster_fat_self, last := rfl, tail := fun h0 => absurd rfl h0,
      alone := fun _ => hother, chained := ⟨?_, ?_, ?_⟩, grows := ?_,
      keeps := fun c l hl _ => hkeep c l hl, starts := fun _ => chain_claim_cluster h2 hlt,
      geometry := ⟨rfl, rfl, rfl⟩ }
  · intro c h1 hc hused
    by_cases hcn : c = n
    · rw [hcn]
      exact ⟨[n], chain_claim_cluster h2 hlt⟩
    · rw [hother c hcn] at hused
      obtain ⟨l, hl⟩ := h.chain c h1 hc hused
      exact ⟨l, hkeep c l hl⟩
  · intro c d hc1 hc hd1 hd hused hend heq
    have hcn : c ≠ n := by
      rintro rfl
      exact hend claim_cluster_fat_self
    have hdn : d ≠ n := by
      rintro rfl
      exact hend (heq.trans claim_cluster_fat_self)
    rw [hother c hcn] at hused hend heq
    rw [hother d hdn] at heq
    exact h.apart c d hc1 hc hd1 hd hused hend heq
  · intro c h1 hc
    by_cases hcn : c = n
    · rw [hcn, claim_cluster_fat_self]
      decide
    · rw [hother c hcn]
      exact h.root c h1 hc
  · intro c l hl h0
    have := (hl.range 0 h0).1
    omega

/-- A cluster put behind the last one, `t`, of the chain of `clst`. -/
theorem append_cluster_appended (hg : fs.Geometry) (h : fs.Chained) (h0 : clst ≠ 0)
    (hch : Chain fs clst (l ++ [t])) (h2 : 2 ≤ n) (hlt : n < fs.fat_length)
    (hfree : fs.fat n = 0) : Appended fs clst n (append_cluster fs t n) := by
  have ht : t ∈ l ++ [t] := by simp
  have hend : fs.fat t = EOChain := (Path.snoc_iff.mp hch.path).2
  have htr := hch.range t ht
  have hnt : n ≠ t := by
    rintro rfl
    exact hch.notMem_of_free hfree ht
  have hother : ∀ k, k ≠ t → k ≠ n → (append_cluster fs t n).fat k = fs.fat k := fun k hkt hkn =>
    append_cluster_fat_of_ne hkt hkn
  -- a chain either has `t`, at its end, and grows, or it is not touched
  have hgrow : ∀ c l, Chain fs c l → t ∈ l → Chain (append_cluster fs t n) c (l ++ [n]) := by
    intro c l hl htl
    obtain ⟨s, rfl⟩ := hl.ends_at hg htl hend
    exact chain_append_cluster hg hl hfree (by omega) hlt
  have hkeep : ∀ c l, Chain fs c l → t ∉ l → Chain (append_cluster fs t n) c l := by
    intro c l hl htl
    refine hl.congr rfl fun k hk => hother k (fun hkt => htl (hkt ▸ hk)) fun hkn => ?_
    exact hl.notMem_of_free hfree (hkn ▸ hk)
  have hnew : (append_cluster fs t n).fat n = EOChain := append_cluster_fat_new hnt
  -- nothing led to the cluster that was free
  have hfresh : ∀ c, 1 ≤ c → c < fs.fat_length → fs.fat c ≠ n := by
    intro c h1 hc hcn
    obtain ⟨m, hm⟩ := h.chain c h1 hc (by omega)
    have hne : m ≠ [] := hm.ne_nil hg hc
    obtain ⟨x, m, rfl⟩ := List.exists_cons_of_ne_nil hne
    obtain rfl : c = x := hm.path.1
    have hrest : Path fs.fat n m EOChain := hcn ▸ hm.path.2
    have hmne : m ≠ [] := by
      rintro rfl
      have := hg.length_le
      have : n = EOChain := hrest
      omega
    exact hm.notMem_of_free hfree (List.mem_cons_of_mem _ (hrest.start_mem hmne))
  refine
    { new_entry := hnew, last := rfl,
      tail := fun _ => ⟨t, ⟨_, hch, ht⟩, hend, append_cluster_fat_tail, hother⟩,
      alone := fun hc => absurd hc h0, chained := ⟨?_, ?_, ?_⟩, grows := ?_, keeps := ?_,
      starts := fun hc => absurd hc h0, geometry := ⟨rfl, rfl, rfl⟩ }
  · intro c h1 hc hused
    by_cases hcn : c = n
    · rw [hcn]
      refine ⟨[n], ⟨rfl, hnew⟩, fun k hk => ?_⟩
      rw [List.mem_singleton.mp hk]
      exact ⟨by omega, hlt⟩
    · have hused' : fs.fat c ≠ 0 := by
        by_cases hct : c = t
        · rw [hct, hend]
          decide
        · rwa [hother c hct hcn] at hused
      obtain ⟨m, hm⟩ := h.chain c h1 hc hused'
      by_cases htm : t ∈ m
      · exact ⟨m ++ [n], hgrow c m hm htm⟩
      · exact ⟨m, hkeep c m hm htm⟩
  · intro c d hc1 hc hd1 hd hused hend' heq
    have hcn : c ≠ n := by
      rintro rfl
      exact hend' hnew
    have hdn : d ≠ n := by
      rintro rfl
      exact hend' (heq.trans hnew)
    -- only `t` leads to `n`
    by_cases hct : c = t
    · by_cases hdt : d = t
      · rw [hct, hdt]
      · rw [hct, append_cluster_fat_tail, hother d hdt hdn] at heq
        exact absurd heq.symm (hfresh d hd1 hd)
    · rw [hother c hct hcn] at hused hend' heq
      by_cases hdt : d = t
      · rw [hdt, append_cluster_fat_tail] at heq
        exact absurd heq (hfresh c hc1 hc)
      · rw [hother d hdt hdn] at heq
        exact h.apart c d hc1 hc hd1 hd hused hend' heq
  · intro c h1 hc
    by_cases hcn : c = n
    · rw [hcn, hnew]
      decide
    · by_cases hct : c = t
      · rw [hct, append_cluster_fat_tail, ROOT_DIR_CLUSTER]
        omega
      · rw [hother c hct hcn]
        exact h.root c h1 hc
  · intro c m hm hmem
    exact hgrow c m hm (hm.rest_mem hg hmem hch t ht)
  · intro c m hm hoff
    exact hkeep c m hm fun htm => hoff t htm ⟨_, hch, ht⟩

/-- **Chain extension appends.** In a well-formed table whose chains are acyclic, in range and
disjoint, and for `clst` that is `0` or any cluster from `2` on that is in use,
`fat_create_chain` ends, and it returns unless the last cluster of the table was the last to be
handed out, for then the search starts behind the table. If the search finds a cluster, that one
is put behind the chain of `clst` and nothing else changes; if it finds none, nothing does. -/
theorem fat_create_chain_appends (hwf : fs.Wf) (h : fs.Chained)
    (hclst : clst = 0 ∨ 2 ≤ clst ∧ clst < fs.fat_length ∧ fs.fat clst ≠ 0) :
    fat_create_chain fs clst ≠ .diverge
      ∧ (∀ n, find_free_cluster fs = .ok n → n ≠ 0 →
          2 ≤ n ∧ n < fs.fat_length ∧ fs.fat n = 0
            ∧ ∃ fs', fat_create_chain fs clst = .ok (n, fs') ∧ Appended fs clst n fs')
      ∧ (find_free_cluster fs = .ok 0 → fat_create_chain fs clst = .ok (0, fs))
      ∧ (fs.last_clst + 1 < fs.fat_length → ∃ r, fat_create_chain fs clst = .ok r) := by
  have hlen := hwf.two_lt
  have hlt : clst < fs.fat_length := by
    rcases hclst with rfl | ⟨-, hlt, -⟩
    · omega
    · exact hlt
  have hfound : ∀ n, find_free_cluster fs = .ok n → n ≠ 0 →
      2 ≤ n ∧ n < fs.fat_length ∧ fs.fat n = 0
        ∧ ∃ fs', fat_create_chain fs clst = .ok (n, fs') ∧ Appended fs clst n fs' := by
    intro n hn hn0
    obtain ⟨-, h2, hnlt, hfree⟩ := find_free_cluster_pos hwf hn hn0
    refine ⟨h2, hnlt, hfree, ?_⟩
    rcases hclst with rfl | ⟨hc2, -, hused⟩
    · exact ⟨_, fat_create_chain_start hwf hn hn0, claim_cluster_appended h h2 hnlt hfree⟩
    · obtain ⟨m, hm⟩ := h.chain clst (by omega) hlt hused
      obtain ⟨l, t, rfl⟩ := List.eq_nil_or_concat' m |>.resolve_left (hm.ne_nil hwf.toGeometry hlt)
      have hroot : ROOT_DIR_CLUSTER ∉ l := fun hk =>
        h.root_notMem _ clst hm hc2 (List.mem_append_left _ hk)
      exact ⟨_, fat_create_chain_extend hwf hn hn0 hm hroot,
        append_cluster_appended hwf.toGeometry h (by omega) hm h2 hnlt hfree⟩
  have hreturns : ∀ n, find_free_cluster fs = .ok n → ∃ r, fat_create_chain fs clst = .ok r := by
    intro n hn
    by_cases hn0 : n = 0
    · exact ⟨_, fat_create_chain_full hlt (hn0 ▸ hn)⟩
    · obtain ⟨-, -, -, fs', hrun, -⟩ := hfound n hn hn0
      exact ⟨_, hrun⟩
  refine ⟨?_, hfound, fat_create_chain_full hlt, fun hlast =>
    hreturns _ (find_free_cluster_eq hwf hlast)⟩
  rcases find_free_cluster_total hwf with ⟨n, hn⟩ | hn
  · obtain ⟨r, hrun⟩ := hreturns n hn
    rw [hrun]
    simp
  · rw [fat_create_chain_undefined hlt hn]
    simp

/-- Clusters `2` and `3` are a chain, `1` is one on its own, and `4` and `5` are free. -/
def two_chains : fat_fs :=
  { bs := { magic := FAT_MAGIC, sectors_per_cluster := SECTORS_PER_CLUSTER, total_sectors := 10,
            fat_start := 1, fat_sectors := 1, root_dir_cluster := ROOT_DIR_CLUSTER }
    fat := fun c => if c = 2 then 3 else if c = 1 ∨ c = 3 then EOChain else 0
    fat_length := 6
    data_start := 2
    last_clst := 3 }

theorem two_chains_wf : two_chains.Wf := by
  constructor
  · constructor <;> decide
  · decide
  · decide

theorem two_chains_chained : two_chains.Chained := by
  have hall : ∀ c, 1 ≤ c → c < two_chains.fat_length → c = 1 ∨ c = 2 ∨ c = 3 ∨ c = 4 ∨ c = 5 := by
    intro c h1 hc
    have : c < 6 := hc
    omega
  constructor
  · intro c h1 hc hused
    rcases hall c h1 hc with rfl | rfl | rfl | rfl | rfl
    · exact ⟨[1], by decide, by decide⟩
    · exact ⟨[2, 3], by decide, by decide⟩
    · exact ⟨[3], by decide, by decide⟩
    · exact absurd rfl hused
    · exact absurd rfl hused
  · intro c d hc1 hc hd1 hd hused hend heq
    rcases hall c hc1 hc with rfl | rfl | rfl | rfl | rfl
    · exact absurd rfl hend
    · rcases hall d hd1 hd with rfl | rfl | rfl | rfl | rfl
      · exact absurd heq (by decide)
      · rfl
      · exact absurd heq (by decide)
      · exact absurd heq (by decide)
      · exact absurd heq (by decide)
    · exact absurd rfl hend
    · exact absurd rfl hused
    · exact absurd rfl hused
  · intro c h1 hc
    rcases hall c h1 hc with rfl | rfl | rfl | rfl | rfl <;> decide

/-- The search finds cluster `4`, and the chain of `2` becomes `2`, `3`, `4`. -/
theorem fat_create_chain_appends_two_chains :
    ∃ fs', fat_create_chain two_chains 2 = .ok (4, fs') ∧ Appended two_chains 2 4 fs' := by
  have h := fat_create_chain_appends two_chains_wf two_chains_chained
    (.inr (by decide : 2 ≤ 2 ∧ 2 < two_chains.fat_length ∧ two_chains.fat 2 ≠ 0))
  exact (h.2.1 4 rfl (by decide)).2.2.2

end Create

/-! ## `fat_remove_chain` -/

/-- From `clst` the table leads through the entries `l`, none of them twice, to `EOChain`. -/
structure Leads (fs : fat_fs) (clst : ℕ) (l : List ℕ) : Prop where
  path : Path fs.fat clst l EOChain
  nodup : l.Nodup
  inside : ∀ k ∈ l, k < fs.fat_length ∧ k ≠ EOChain

/-- What `fat_remove_chain` makes of the table: `l` is the chain from `clst`. -/
structure Removed (fs : fat_fs) (pclst : ℕ) (l : List ℕ) (fs' : fat_fs) : Prop where
  cleared : ∀ k ∈ l, fs'.fat k = 0
  cut : pclst ≠ 0 → fs'.fat pclst = EOChain
  others : ∀ k, k ∉ l → (pclst = 0 ∨ k ≠ pclst) → fs'.fat k = fs.fat k
  last : fs'.last_clst = if fs.last_clst ∈ l then 2 else fs.last_clst
  geometry : fs'.bs = fs.bs ∧ fs'.fat_length = fs.fat_length ∧ fs'.data_start = fs.data_start

section Remove

variable {fs : fat_fs} {clst pclst : ℕ} {l : List ℕ}

/-- The cluster before a chain is not on it: the way would come back to its start. -/
theorem Leads.before_notMem (h : Leads fs clst l) (hl : l ≠ []) (hp : fs.fat pclst = clst) :
    pclst ∉ l := by
  intro hmem
  obtain ⟨x, l, rfl⟩ := List.exists_cons_of_ne_nil hl
  obtain rfl : clst = x := h.path.1
  obtain ⟨s, r, heq⟩ := List.append_of_mem hmem
  have hpath : Path fs.fat clst (s ++ pclst :: r) EOChain := heq ▸ h.path
  obtain ⟨k, -, hk⟩ := Path.append_iff.mp hpath
  have hrest : Path fs.fat clst r EOChain := hp ▸ hk.2
  have hne : r ≠ [] := by
    rintro rfl
    exact (h.inside clst List.mem_cons_self).2 hrest
  -- `clst` is the first of the whole way and again the first behind `pclst`
  have hagain : clst ∈ r := hrest.start_mem hne
  have hnd : (s ++ pclst :: r).Nodup := heq ▸ h.nodup
  cases s with
  | nil =>
      obtain ⟨rfl, rfl⟩ := List.cons.inj heq
      exact (List.nodup_cons.mp h.nodup).1 hagain
  | cons y s =>
      obtain ⟨rfl, rfl⟩ := List.cons.inj heq
      exact (List.nodup_cons.mp h.nodup).1 (by simp [hagain])

/-- **Chain removal is exact.** For every table and every entry `clst` from which the table
leads to `EOChain`, and a `pclst` that is `0` or leads to `clst`, `fat_remove_chain` ends and
clears that chain, cuts it off behind `pclst`, and changes no other entry. -/
theorem fat_remove_chain_exact (hl : l ≠ []) (h : Leads fs clst l)
    (hp : pclst = 0 ∨ pclst < fs.fat_length ∧ fs.fat pclst = clst) :
    ∃ fs', fat_remove_chain fs clst pclst = .ok fs' ∧ Removed fs pclst l fs' := by
  have hclst : clst < fs.fat_length := (h.inside clst (h.path.start_mem hl)).1
  have hlen : l.length < fs.fat_length + 1 :=
    Nat.lt_succ_of_le (length_le_of_nodup_lt h.nodup fun k hk => (h.inside k hk).1)
  rw [fat_remove_chain, Outcome.assert_pos hclst]
  by_cases hp0 : pclst = 0
  · refine ⟨free_clusters fs l, ?_, ?_⟩
    · simp only [Outcome.ok_bind, hp0, ne_eq, not_true_eq_false, if_false]
      exact fat_remove_chain_loop_path l _ fs clst h.path h.nodup h.inside hlen
    · exact
        { cleared := fun k hk => if_pos hk, cut := fun hne => absurd hp0 hne,
          others := fun k hk _ => if_neg hk, last := rfl, geometry := ⟨rfl, rfl, rfl⟩ }
  · obtain ⟨hplt, hpc⟩ := hp.resolve_left hp0
    have hpl : pclst ∉ l := h.before_notMem hl hpc
    refine ⟨free_clusters (fs.put pclst EOChain) l, ?_, ?_⟩
    · simp only [Outcome.ok_bind, ne_eq, hp0, not_false_eq_true, if_true, fat_put_ok hplt]
      exact fat_remove_chain_loop_path l _ (fs.put pclst EOChain) clst
        (h.path.update_of_notMem hpl) h.nodup h.inside hlen
    · refine
        { cleared := fun k hk => if_pos hk, cut := fun _ => (if_neg hpl).trans put_self,
          others := ?_, last := rfl, geometry := ⟨rfl, rfl, rfl⟩ }
      intro k hk hkp
      exact (if_neg hk).trans (put_of_ne (hkp.resolve_left hp0))

/-- The chain behind cluster `2` goes: entry `3` is cleared, `2` ends its chain, and the search
starts over from `2`. The whole chain `2, 3` goes when no cluster is in front of it. -/
theorem fat_remove_chain_exact_two_chains :
    (∃ fs', fat_remove_chain two_chains 3 2 = .ok fs' ∧ Removed two_chains 2 [3] fs')
    ∧ ∃ fs', fat_remove_chain two_chains 2 0 = .ok fs' ∧ Removed two_chains 0 [2, 3] fs' :=
  ⟨fat_remove_chain_exact (by decide) ⟨by decide, by decide, by decide⟩ (.inr (by decide)),
    fat_remove_chain_exact (by decide) ⟨by decide, by decide, by decide⟩ (.inl rfl)⟩

end Remove

end Pintos
