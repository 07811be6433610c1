/-
When `fat_allocate` is all-or-nothing.

Its loop lowers `cnt` before it is known whether the step found a cluster, and its
result looks at `start` while the decision to give the clusters back looks at `cnt`.
So a request that misses only its last cluster succeeds with a chain that is one
cluster short, one that misses more gives the clusters back and still returns true,
and one of several clusters that finds none at all removes "chain 0", which never ends.

The searches themselves are next-fit: they go up from `last_clst` and come round to
`2` once. They cannot come round after handing out the last cluster of the table,
because the next search then starts behind it. What a run of searches can hand out is
therefore counted in two parts: the free clusters above `last_clst` (`free_above`),
and all of them (`free_set`) if the last cluster of the table is in use.
-/
import Pintos.Filesys.ChainCover
import Mathlib.Data.Finset.Card
import Mathlib.Order.Interval.Finset.Nat

set_option autoImplicit false

namespace Pintos

/-! ## The free clusters -/

/-- The free clusters. -/
def free_set (fs : fat_fs) : Finset ℕ :=
  (Finset.Ico 2 fs.fat_length).filter fun k => fs.fat k = 0

/-- The free clusters that a search sees before it comes round. -/
def free_above (fs : fat_fs) : Finset ℕ :=
  (Finset.Ioo fs.last_clst fs.fat_length).filter fun k => fs.fat k = 0

section Free

variable {fs : fat_fs} {c k : ℕ}

theorem mem_free_set : k ∈ free_set fs ↔ 2 ≤ k ∧ k < fs.fat_length ∧ fs.fat k = 0 := by
  rw [free_set, Finset.mem_filter, Finset.mem_Ico, and_assoc]

theorem mem_free_above :
    k ∈ free_above fs ↔ fs.last_clst < k ∧ k < fs.fat_length ∧ fs.fat k = 0 := by
  rw [free_above, Finset.mem_filter, Finset.mem_Ioo, and_assoc]

/-- Claiming a cluster takes it from the free ones. -/
theorem free_set_claim_cluster : free_set (claim_cluster fs c) = (free_set fs).erase c := by
  ext k
  rw [Finset.mem_erase, mem_free_set, mem_free_set, claim_cluster_length]
  by_cases hk : k = c
  · subst hk
    simp [EOChain]
  · rw [claim_cluster_fat_of_ne hk]
    exact ⟨fun h => ⟨hk, h⟩, fun h => h.2⟩

/-- A search that takes the first cluster above `last_clst` leaves the others above
it. -/
theorem free_above_claim_cluster (hlast : fs.last_clst < c) (hmin : ∀ k ∈ free_above fs, c ≤ k) :
    free_above (claim_cluster fs c) = (free_above fs).erase c := by
  ext k
  rw [Finset.mem_erase, mem_free_above, claim_cluster_length, claim_cluster_last]
  constructor
  · rintro ⟨hck, hlt, hk0⟩
    rw [claim_cluster_fat_of_ne (by omega)] at hk0
    exact ⟨by omega, mem_free_above.mpr ⟨by omega, hlt, hk0⟩⟩
  · rintro ⟨hne, hk⟩
    have hck := hmin k hk
    obtain ⟨-, hlt, hk0⟩ := mem_free_above.mp hk
    exact ⟨by omega, hlt, by rwa [claim_cluster_fat_of_ne hne]⟩

/-- A search that has come round leaves all free clusters above it. -/
theorem free_above_claim_cluster_round (hc : 2 ≤ c) (hmin : ∀ k ∈ free_set fs, c ≤ k) :
    free_above (claim_cluster fs c) = (free_set fs).erase c := by
  ext k
  rw [Finset.mem_erase, mem_free_above, claim_cluster_length, claim_cluster_last]
  constructor
  · rintro ⟨hck, hlt, hk0⟩
    rw [claim_cluster_fat_of_ne (by omega)] at hk0
    exact ⟨by omega, mem_free_set.mpr ⟨by omega, hlt, hk0⟩⟩
  · rintro ⟨hne, hk⟩
    have hck := hmin k hk
    obtain ⟨-, hlt, hk0⟩ := mem_free_set.mp hk
    exact ⟨by omega, hlt, by rwa [claim_cluster_fat_of_ne hne]⟩

/-- The last cluster of the table is above `last_clst`, so it is free exactly if it is
among those above. -/
theorem last_mem_free_above (hlt : fs.last_clst + 1 < fs.fat_length) :
    fs.fat_length - 1 ∈ free_above fs ↔ fs.fat (fs.fat_length - 1) = 0 := by
  rw [mem_free_above]
  exact ⟨fun h => h.2.2, fun h => ⟨by omega, by omega, h⟩⟩

end Free

/-! ## One search, by the free clusters -/

section Search

variable {fs : fat_fs} {c : ℕ}

/-- The first number of a range that passes a test, if there is one. -/
theorem find_range'_min {p : ℕ → Bool} {s n : ℕ} (h : (List.range' s n).find? p = some c) :
    ∀ k, s ≤ k → k < s + n → p k = true → c ≤ k := by
  intro k hs hk hp
  by_contra hlt
  have hno := (List.find?_range'_eq_some.mp h).2.2
  have := hno k hs (by omega)
  simp [hp] at this

/-- **A search finds a cluster** above `last_clst` if one is free there, the first one,
and otherwise the first free one below. -/
theorem find_free_cluster_first (h : fs.Wf) (hlt : fs.last_clst + 1 < fs.fat_length)
    (hex : ∃ k ∈ free_set fs, k ≠ fs.last_clst) :
    ∃ c, find_free_cluster fs = .ok c ∧ c ∈ free_set fs ∧ c ≠ fs.last_clst
      ∧ ((fs.last_clst < c ∧ ∀ k ∈ free_above fs, c ≤ k)
        ∨ (free_above fs = ∅ ∧ c < fs.last_clst ∧ ∀ k ∈ free_set fs, c ≤ k)) := by
  obtain ⟨k, hk, hkl⟩ := hex
  obtain ⟨hk2, hklt, hk0⟩ := mem_free_set.mp hk
  have hkorder := (mem_search_order h).mpr ⟨hk2, hklt, hkl⟩
  obtain ⟨c, hc⟩ : ∃ c, (search_order fs).find? (fun k => fs.fat k = 0) = some c := by
    rw [← Option.isSome_iff_exists, List.find?_isSome]
    exact ⟨k, hkorder, by simpa using hk0⟩
  have hmem := (mem_search_order h).mp (List.mem_of_find?_eq_some hc)
  have hfree : fs.fat c = 0 := by simpa using List.find?_some hc
  refine ⟨c, ?_, mem_free_set.mpr ⟨hmem.1, hmem.2.1, hfree⟩, hmem.2.2, ?_⟩
  · rw [find_free_cluster_eq h hlt, hc]
    rfl
  · rw [search_order, List.find?_append] at hc
    cases hup : (List.range' (fs.last_clst + 1) (fs.fat_length - (fs.last_clst + 1))).find?
        (fun k => fs.fat k = 0) with
    | some d =>
        obtain rfl : d = c := by simpa [hup] using hc
        have hd := List.mem_range'_1.mp (List.mem_of_find?_eq_some hup)
        refine .inl ⟨by omega, fun j hj => ?_⟩
        obtain ⟨hj1, hj2, hj0⟩ := mem_free_above.mp hj
        exact find_range'_min hup j (by omega) (by omega) (by simpa using hj0)
    | none =>
        rw [hup, Option.none_or] at hc
        have hd := List.mem_range'_1.mp (List.mem_of_find?_eq_some hc)
        have hnone : free_above fs = ∅ := by
          apply Finset.eq_empty_of_forall_notMem
          intro j hj
          obtain ⟨hj1, hj2, hj0⟩ := mem_free_above.mp hj
          have hjr : j ∈ List.range' (fs.last_clst + 1) (fs.fat_length - (fs.last_clst + 1)) := by
            rw [List.mem_range'_1]
            omega
          exact List.find?_eq_none.mp hup j hjr (by simpa using hj0)
        refine .inr ⟨hnone, by omega, fun j hj => ?_⟩
        obtain ⟨hj2, hjlt, hj0⟩ := mem_free_set.mp hj
        by_cases hjl : j < fs.last_clst
        · exact find_range'_min hc j hj2 (by omega) (by simpa using hj0)
        · omega

/-- **A search finds nothing** if no cluster but `last_clst` is free. -/
theorem find_free_cluster_none (h : fs.Wf) (hlt : fs.last_clst + 1 < fs.fat_length)
    (hno : ∀ k ∈ free_set fs, k = fs.last_clst) : find_free_cluster fs = .ok 0 := by
  have hnone : (search_order fs).find? (fun k => fs.fat k = 0) = none := by
    rw [List.find?_eq_none]
    intro k hk hk0
    obtain ⟨hk2, hklt, hkl⟩ := (mem_search_order h).mp hk
    exact hkl (hno k (mem_free_set.mpr ⟨hk2, hklt, by simpa using hk0⟩))
  rw [find_free_cluster_eq h hlt, hnone]
  rfl

end Search

/-! ## How many clusters a run of searches hands out -/

/-- Enough free clusters for `n` searches: above `last_clst`, or anywhere if the
searches can come round. -/
def Enough (fs : fat_fs) (n : ℕ) : Prop :=
  n ≤ (free_above fs).card
    ∨ (fs.fat (fs.fat_length - 1) ≠ 0 ∧ n ≤ (free_set fs).card
      ∧ ∃ k ∈ free_set fs, k ≠ fs.last_clst)

/-- What is left after the first search. -/
theorem enough_claim_cluster {fs : fat_fs} (h : fs.Wf) (hlt : fs.last_clst + 1 < fs.fat_length)
    {c n : ℕ} (hc : c ∈ free_set fs) (hcl : c ≠ fs.last_clst)
    (hfirst : (fs.last_clst < c ∧ ∀ k ∈ free_above fs, c ≤ k)
      ∨ (free_above fs = ∅ ∧ c < fs.last_clst ∧ ∀ k ∈ free_set fs, c ≤ k)) :
    Enough fs (n + 1)
      ↔ n = 0 ∨ (c + 1 < fs.fat_length ∧ Enough (claim_cluster fs c) n) := by
  obtain ⟨hc2, hclt, hc0⟩ := mem_free_set.mp hc
  have hset : (free_set fs).card = ((free_set fs).erase c).card + 1 :=
    (Finset.card_erase_add_one hc).symm
  -- one that is left makes the searches worth coming round for
  have hother : 0 < n → n ≤ ((free_set fs).erase c).card →
      ∃ k ∈ (free_set fs).erase c, k ≠ c := by
    intro hn hle
    obtain ⟨k, hk⟩ := Finset.card_pos.mp (show 0 < ((free_set fs).erase c).card by omega)
    exact ⟨k, hk, (Finset.mem_erase.mp hk).1⟩
  rw [Enough, Enough, free_set_claim_cluster, claim_cluster_length, claim_cluster_last]
  rcases hfirst with ⟨hup, hmin⟩ | ⟨hnone, hdown, hmin⟩
  · rw [free_above_claim_cluster hup hmin]
    have hca : c ∈ free_above fs := mem_free_above.mpr ⟨hup, hclt, hc0⟩
    have habove : (free_above fs).card = ((free_above fs).erase c).card + 1 :=
      (Finset.card_erase_add_one hca).symm
    by_cases hn : n = 0
    · simp only [hn, true_or, iff_true]
      exact .inl (by omega)
    · by_cases hend : c + 1 = fs.fat_length
      · -- the table ends at `c`: it is the only one above, and the next search is lost
        have honly : (free_above fs).erase c = ∅ := by
          apply Finset.eq_empty_of_forall_notMem
          intro k hk
          have := hmin k (Finset.mem_of_mem_erase hk)
          have := (mem_free_above.mp (Finset.mem_of_mem_erase hk)).2.1
          exact (Finset.mem_erase.mp hk).1 (by omega)
        have hlast : fs.fat (fs.fat_length - 1) = 0 := by
          rwa [show fs.fat_length - 1 = c by omega]
        rw [honly, Finset.card_empty] at habove
        constructor
        · rintro (hle | ⟨hne, -⟩)
          · omega
          · exact absurd hlast hne
        · rintro (h0 | ⟨hlt', -⟩) <;> omega
      · rw [claim_cluster_fat_of_ne (show fs.fat_length - 1 ≠ c by omega)]
        constructor
        · rintro (hle | ⟨hne, hle, -⟩)
          · exact .inr ⟨by omega, .inl (by omega)⟩
          · exact .inr ⟨by omega, .inr ⟨hne, by omega, hother (by omega) (by omega)⟩⟩
        · rintro (h0 | ⟨-, hle | ⟨hne, hle, -⟩⟩)
          · exact absurd h0 hn
          · exact .inl (by omega)
          · exact .inr ⟨hne, by omega, c, hc, hcl⟩
  · rw [free_above_claim_cluster_round hc2 hmin, hnone, Finset.card_empty,
      claim_cluster_fat_of_ne (show fs.fat_length - 1 ≠ c by omega)]
    have hlast : fs.fat (fs.fat_length - 1) ≠ 0 := by
      rw [ne_eq, ← last_mem_free_above hlt, hnone]
      exact Finset.notMem_empty _
    have := h.last_lt
    constructor
    · rintro (hle | ⟨-, hle, -⟩)
      · omega
      · exact .inr ⟨by omega, .inl (by omega)⟩
    · rintro (h0 | ⟨-, hle | ⟨-, hle, -⟩⟩) <;> exact .inr ⟨hlast, by omega, c, hc, hcl⟩

/-- **A full hand-out.** `n` searches in a row hand out `n` clusters exactly if the first
one does not start behind the table and there are enough free clusters. -/
theorem handout_full_iff (n : ℕ) : ∀ {fs : fat_fs}, fs.Wf →
    ((∃ cs, handout fs n = .ok cs ∧ cs.length = n)
      ↔ n = 0 ∨ (fs.last_clst + 1 < fs.fat_length ∧ Enough fs n)) := by
  induction n with
  | zero =>
      intro fs _
      simp [handout]
  | succ n ih =>
      intro fs h
      have hle := h.last_lt
      rw [handout]
      by_cases hlt : fs.last_clst + 1 < fs.fat_length
      · by_cases hex : ∃ k ∈ free_set fs, k ≠ fs.last_clst
        · obtain ⟨c, hfind, hc, hcl, hfirst⟩ := find_free_cluster_first h hlt hex
          obtain ⟨hc2, hclt, -⟩ := mem_free_set.mp hc
          have hrest : (∃ cs, (do
                let cs ← handout (claim_cluster fs c) n
                return c :: cs : Outcome (List ℕ)) = .ok cs ∧ cs.length = n + 1)
              ↔ ∃ cs, handout (claim_cluster fs c) n = .ok cs ∧ cs.length = n := by
            constructor
            · rintro ⟨cs, hcs, hlen⟩
              obtain ⟨rest, hrest, heq⟩ := Outcome.bind_eq_ok.mp hcs
              obtain rfl : c :: rest = cs := Outcome.ok.inj heq
              exact ⟨rest, hrest, by simpa using hlen⟩
            · rintro ⟨rest, hrest, hlen⟩
              exact ⟨c :: rest, by rw [hrest]; rfl, by simpa using hlen⟩
          rw [hfind]
          simp only [Outcome.ok_bind, show c ≠ 0 by omega, if_false]
          rw [hrest, ih (claim_cluster_wf h hc2 hclt), claim_cluster_last, claim_cluster_length,
            ← enough_claim_cluster h hlt hc hcl hfirst]
          simp [hlt]
        · -- nothing is free but perhaps `last_clst`, which no search looks at
          have hnone : free_above fs = ∅ := by
            apply Finset.eq_empty_of_forall_notMem
            intro k hk
            obtain ⟨hk1, hk2, hk0⟩ := mem_free_above.mp hk
            have := h.last_ge
            exact hex ⟨k, mem_free_set.mpr ⟨by omega, hk2, hk0⟩, by omega⟩
          push Not at hex
          rw [find_free_cluster_none h hlt hex]
          have hno : ¬ Enough fs (n + 1) := by
            rintro (hcard | ⟨-, -, k, hk, hkl⟩)
            · rw [hnone, Finset.card_empty] at hcard
              omega
            · exact hkl (hex k hk)
          simp [hno]
      · rw [find_free_cluster_undefined (by omega)]
        simp [hlt]

/-! ## Chain 0 -/

/-- One turn of the loop, if the loop ends. -/
theorem fat_remove_chain_loop_turn {fuel clst : ℕ} {fs fs' : fat_fs}
    (h : fat_remove_chain_loop (fuel + 1) fs clst = .ok fs') :
    (clst = EOChain ∧ fs' = fs)
      ∨ ∃ last, fat_remove_chain_loop fuel { fs.put clst 0 with last_clst := last } (fs.fat clst)
          = .ok fs' := by
  rw [fat_remove_chain_loop] at h
  by_cases hend : clst = EOChain
  · rw [if_pos hend] at h
    exact .inl ⟨hend, (Outcome.ok.inj h).symm⟩
  · rw [if_neg hend] at h
    by_cases hlt : clst < fs.fat_length
    · rw [fat_get_ok hlt, fat_put_ok hlt] at h
      dsimp only [Outcome.ok_bind] at h
      split at h
      · exact .inr ⟨2, h⟩
      · exact .inr ⟨fs.last_clst, h⟩
    · rw [fat_get_undefined hlt] at h
      cases h

/-- Removing a chain writes nothing but `0`. -/
theorem fat_remove_chain_loop_keeps_free (fuel : ℕ) : ∀ {fs fs' : fat_fs} {clst k : ℕ},
    fat_remove_chain_loop fuel fs clst = .ok fs' → fs.fat k = 0 → fs'.fat k = 0 := by
  induction fuel with
  | zero => intro fs fs' clst k h; cases h
  | succ fuel ih =>
      intro fs fs' clst k h hk
      rcases fat_remove_chain_loop_turn h with ⟨-, rfl⟩ | ⟨last, h⟩
      · exact hk
      · refine ih h ?_
        by_cases hkc : k = clst
        · rw [hkc]
          exact put_self
        · exact (put_of_ne hkc).trans hk

/-- Entry `0` holds its own number: the loop does not get away from there. -/
theorem fat_remove_chain_loop_stuck (fuel : ℕ) : ∀ {fs fs' : fat_fs}, fs.fat 0 = 0 →
    fat_remove_chain_loop fuel fs 0 ≠ .ok fs' := by
  induction fuel with
  | zero => intro fs fs' _ h; cases h
  | succ fuel ih =>
      intro fs fs' h0 h
      rcases fat_remove_chain_loop_turn h with ⟨hend, -⟩ | ⟨last, h⟩
      · exact absurd hend (by decide)
      · rw [h0] at h
        refine ih ?_ h
        show (fs.put 0 0).fat 0 = 0
        exact put_self

/-- **Removing chain 0** never leaves the table as it was. -/
theorem fat_remove_chain_zero {fs fs' : fat_fs} (h : fat_remove_chain fs 0 0 = .ok fs') :
    fs'.fat ≠ fs.fat := by
  intro heq
  unfold fat_remove_chain at h
  obtain ⟨-, -, h⟩ := Outcome.bind_eq_ok.mp h
  obtain ⟨fs₁, hfs₁, h⟩ := Outcome.bind_eq_ok.mp h
  obtain rfl := Outcome.ok.inj hfs₁
  by_cases h0 : fs.fat 0 = 0
  · exact fat_remove_chain_loop_stuck _ h0 h
  · -- the first turn clears entry `0`, and no later one sets it again
    rcases fat_remove_chain_loop_turn h with ⟨hend, -⟩ | ⟨last, h⟩
    · exact absurd hend (by decide)
    · apply h0
      rw [← heq]
      refine fat_remove_chain_loop_keeps_free _ h ?_
      show (fs.put 0 0).fat 0 = 0
      exact put_self

/-! ## `fat_allocate` -/

/-- `c` starts a fresh chain: `cnt` clusters that were free before, linked one behind the
other, and every other entry as before. -/
def FreshChain (fs fs' : fat_fs) (c cnt : ℕ) : Prop :=
  ∃ cs : List ℕ, cs.length = cnt ∧ cs.Nodup ∧ (∀ k ∈ cs, 2 ≤ k ∧ fs.fat k = 0)
    ∧ Chain fs' c cs ∧ ∀ k ∉ cs, fs'.fat k = fs.fat k

/-- **All or nothing**, for a result and the table before and after. -/
def AllOrNothing (fs : fat_fs) (cnt : ℕ) (result : Outcome (Bool × ℕ × fat_fs)) : Prop :=
  ∃ success clst fs', result = .ok (success, clst, fs')
    ∧ (success = true ↔ FreshChain fs fs' clst cnt)
    ∧ (success = false → fs'.fat = fs.fat)

/-- A fresh chain of clusters shows in the table. -/
theorem FreshChain.ne {fs fs' : fat_fs} {c cnt : ℕ} (h : FreshChain fs fs' c cnt)
    (hcnt : 0 < cnt) : fs'.fat ≠ fs.fat := by
  obtain ⟨cs, hlen, -, hfree, hch, -⟩ := h
  obtain ⟨k, hk⟩ := List.exists_mem_of_length_pos (show 0 < cs.length by omega)
  intro heq
  exact hch.entry_ne_zero hk (heq ▸ (hfree k hk).2)

/-- **`fat_allocate` is all-or-nothing exactly** when the first search does not start behind
the table and one cluster is wanted or there are enough. -/
theorem fat_allocate_all_or_nothing_iff {fs : fat_fs} (hwf : fs.Wf) {cnt : ℕ} (hcnt : 1 ≤ cnt)
    (clusterp : ℕ) :
    AllOrNothing fs cnt (fat_allocate fs cnt clusterp)
      ↔ fs.last_clst + 1 < fs.fat_length ∧ (cnt = 1 ∨ Enough fs cnt) := by
  have hfull := handout_full_iff cnt hwf
  rw [fat_allocate_spec hwf hcnt]
  constructor
  · rintro ⟨success, clst, fs', hres, htrue, hfalse⟩
    obtain ⟨cs, hcs, hres⟩ := Outcome.bind_eq_ok.mp hres
    have hlt : fs.last_clst + 1 < fs.fat_length := by
      by_contra hlt
      have := hwf.last_lt
      obtain ⟨m, rfl⟩ : ∃ m, cnt = m + 1 := ⟨cnt - 1, by omega⟩
      rw [handout, find_free_cluster_undefined (by omega)] at hcs
      cases hcs
    refine ⟨hlt, ?_⟩
    by_cases h1 : cnt = 1
    · exact .inl h1
    · suffices hlen : cs.length = cnt by
        rcases hfull.mp ⟨cs, hcs, hlen⟩ with h0 | ⟨-, he⟩
        · omega
        · exact .inr he
      cases cs with
      | nil =>
          -- nothing at all: chain 0 is removed, which shows in the table
          rw [if_neg h1] at hres
          obtain ⟨fs₁, hrem, hres⟩ := Outcome.bind_eq_ok.mp hres
          obtain ⟨rfl, -, rfl⟩ : false = success ∧ clusterp = clst ∧ fs₁ = fs' := by
            simpa using hres
          exact absurd (hfalse rfl) (fat_remove_chain_zero hrem)
      | cons c rest =>
          obtain ⟨hlen, -, hmem⟩ := handout_spec cnt hwf hcs
          obtain ⟨hch, hfr, hwf', -, -⟩ := link_handout hwf hcs
          dsimp only at hres
          by_cases hfit : cnt ≤ rest.length + 2
          · -- a chain of the clusters that were found, and no other one starts there
            rw [if_pos hfit] at hres
            obtain ⟨rfl, rfl, rfl⟩ : true = success ∧ c = clst
                ∧ link_clusters (claim_cluster fs c) c rest = fs' := by
              simpa using hres
            obtain ⟨cs', hlen', -, -, hch', -⟩ := htrue.mp rfl
            rw [hch.unique hwf'.toGeometry hch']
            exact hlen'
          · -- the clusters have been given back, and the table is as before
            rw [if_neg hfit] at hres
            obtain ⟨rfl, -, rfl⟩ : true = success ∧ clusterp = clst
                ∧ free_clusters (link_clusters (claim_cluster fs c) c rest) (c :: rest) = fs' := by
              simpa using hres
            refine absurd ?_ ((htrue.mp rfl).ne hcnt)
            funext k
            by_cases hk : k ∈ c :: rest
            · rw [(hmem k hk).2.2]
              exact if_pos hk
            · rw [← hfr k hk]
              exact if_neg hk
  · rintro ⟨hlt, hwant⟩
    by_cases hone : cnt = 1 ∧ ¬ Enough fs cnt
    · -- one cluster is wanted and none is found
      obtain ⟨rfl, hno⟩ := hone
      have hnone : ∀ k ∈ free_set fs, k = fs.last_clst := by
        intro k hk
        by_contra hkl
        obtain ⟨c, hfind, hc, hcl, -⟩ := find_free_cluster_first hwf hlt ⟨k, hk, hkl⟩
        have hc2 := (mem_free_set.mp hc).1
        have : ∃ cs, handout fs 1 = .ok cs ∧ cs.length = 1 := by
          refine ⟨[c], ?_, rfl⟩
          simp [handout, hfind, show c ≠ 0 by omega]
        rcases hfull.mp this with h0 | ⟨-, he⟩
        · omega
        · exact hno he
      refine ⟨false, 0, fs, ?_, ?_, fun _ => rfl⟩
      · simp [handout, find_free_cluster_none hwf hlt hnone]
      · exact ⟨fun h => absurd h (by decide), fun h => absurd rfl (h.ne hcnt)⟩
    · have he : Enough fs cnt := by
        rcases hwant with h1 | he
        · by_contra hno
          exact hone ⟨h1, hno⟩
        · exact he
      obtain ⟨cs, hcs, hlen⟩ := hfull.mpr (.inr ⟨hlt, he⟩)
      cases cs with
      | nil => rw [List.length_nil] at hlen; omega
      | cons c rest =>
          obtain ⟨-, hnd, hmem⟩ := handout_spec cnt hwf hcs
          obtain ⟨hch, hfr, -⟩ := link_handout hwf hcs
          rw [List.length_cons] at hlen
          refine ⟨true, c, link_clusters (claim_cluster fs c) c rest, ?_, ?_, fun h => ?_⟩
          · rw [hcs]
            simp only [Outcome.ok_bind]
            rw [if_pos (by omega)]
            rfl
          · exact ⟨fun _ => ⟨c :: rest, hlen, hnd,
              fun k hk => ⟨(hmem k hk).1, (hmem k hk).2.2⟩, hch, hfr⟩, fun _ => rfl⟩
          · cases h

/-! ## A disk with one free cluster -/

/-- Clusters `1`, `2` and `4` are three chains, `3` is free. -/
def one_free : fat_fs where
  bs := { magic := FAT_MAGIC, sectors_per_cluster := 1, total_sectors := 16
          fat_start := 1, fat_sectors := 1, root_dir_cluster := 1 }
  fat := fun k => if k = 1 ∨ k = 2 ∨ k = 4 then EOChain else 0
  fat_length := 5
  data_start := 2
  last_clst := 2

theorem one_free_wf : one_free.Wf where
  two_lt := by decide
  length_le := by decide
  start_pos := by decide
  no_wrap := by decide
  last_ge := by decide
  last_lt := by decide

theorem one_free_used {k : ℕ} : one_free.fat k ≠ 0 ↔ k = 1 ∨ k = 2 ∨ k = 4 := by
  show (if k = 1 ∨ k = 2 ∨ k = 4 then EOChain else 0) ≠ 0 ↔ _
  split
  · rename_i h
    exact ⟨fun _ => h, fun _ => by decide⟩
  · rename_i h
    exact ⟨fun h0 => absurd rfl h0, fun h' => absurd h' h⟩

/-- Its chains are disjoint, and every cluster in use is on one. -/
theorem one_free_cover : Cover one_free fun k => k = 1 ∨ k = 2 ∨ k = 4 := by
  have hchain : ∀ k, k = 1 ∨ k = 2 ∨ k = 4 → Chain one_free k [k] := by
    intro k hk
    refine ⟨⟨rfl, if_pos hk⟩, fun j hj => ?_⟩
    obtain rfl := List.mem_singleton.mp hj
    show 1 ≤ j ∧ j < 5
    omega
  have hon : ∀ h c, (h = 1 ∨ h = 2 ∨ h = 4) → OnChain one_free h c → c = h := by
    intro h c hh hc
    simpa using (onChain_iff one_free_wf.toGeometry (hchain h hh)).mp hc
  refine ⟨fun h hh => ⟨[h], by simp, hchain h hh⟩, ?_, ?_⟩
  · intro h h' c hh hh' hc hc'
    rw [← hon h c hh hc, ← hon h' c hh' hc']
  · intro c _ _ hused
    have hc := one_free_used.mp hused
    exact ⟨c, hc, [c], hchain c hc, by simp⟩

/-- One cluster is there, and is allocated. -/
theorem one_free_allocates_one : (1 ≤ 1) ∧ one_free.Wf ∧
    AllOrNothing one_free 1 (fat_allocate one_free 1 0) :=
  ⟨le_rfl, one_free_wf, (fat_allocate_all_or_nothing_iff one_free_wf le_rfl 0).mpr
    ⟨by decide, .inl rfl⟩⟩

/-- **Not all or nothing.** Two clusters are asked for and one is free: the request succeeds
with a chain of one. -/
theorem two_of_one_free_allocated : ¬ ∀ fs : fat_fs, fs.Wf → fs.fat 0 = 0 →
    (∃ root, Cover fs root) → ∀ cnt, 1 ≤ cnt → ∀ clusterp,
      AllOrNothing fs cnt (fat_allocate fs cnt clusterp) := by
  intro hall
  obtain ⟨success, clst, fs', hres, htrue, -⟩ :=
    hall one_free one_free_wf rfl ⟨_, one_free_cover⟩ 2 (by decide) 0
  have hhand : handout one_free 2 = .ok [3] := rfl
  rw [fat_allocate_spec one_free_wf (by decide), hhand] at hres
  have hsuccess : true = success := congrArg Prod.fst (Outcome.ok.inj hres)
  obtain ⟨cs, hlen, hnd, hfree, hch, -⟩ := htrue.mp hsuccess.symm
  have hlength : fs'.fat_length = 5 := by
    have h := congrArg (fun r => r.2.2.fat_length) (Outcome.ok.inj hres)
    exact h.symm
  -- there is only one cluster to build the chain from
  have hthree : ∀ k ∈ cs, k = 3 := by
    intro k hk
    obtain ⟨hk2, hk0⟩ := hfree k hk
    have hlt := (hch.range k hk).2
    have hunused := mt one_free_used.mpr (not_not.mpr hk0)
    omega
  match cs, hlen with
  | [a, b], _ =>
      have ha := hthree a (by simp)
      have hb := hthree b (by simp)
      simp [ha, hb] at hnd

end Pintos
