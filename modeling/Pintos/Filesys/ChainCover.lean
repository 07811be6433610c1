/-
The chains of a table, all of them together.

A cluster in use is on the chain of one root: the start of a file, a cluster that has been
claimed and is not linked yet, or what is left of a chain that is being removed. `Cover` says
so, and there is one lemma for each write that `filesys/fat.c` makes to the table.
-/
import Pintos.Filesys.FatChain

set_option autoImplicit false

namespace Pintos

/-- The table with one entry written. -/
def fat_fs.put (fs : fat_fs) (clst val : ℕ) : fat_fs :=
  { fs with fat := Function.update fs.fat clst val }

/-- `c` is on the chain that starts at `h`. -/
def OnChain (fs : fat_fs) (h c : ℕ) : Prop := ∃ l, Chain fs h l ∧ c ∈ l

/-- **The clusters in use**: each is on the chain of exactly one root. -/
structure Cover (fs : fat_fs) (root : ℕ → Prop) : Prop where
  chain : ∀ h, root h → ∃ l, l ≠ [] ∧ Chain fs h l
  apart : ∀ h h' c, root h → root h' → OnChain fs h c → OnChain fs h' c → h = h'
  used : ∀ c, 1 ≤ c → c < fs.fat_length → fs.fat c ≠ 0 → ∃ h, root h ∧ OnChain fs h c

section Cover

variable {fs fs' : fat_fs} {root : ℕ → Prop} {l : List ℕ} {c h t v x : ℕ}

@[simp] theorem put_length : (fs.put c v).fat_length = fs.fat_length := rfl

theorem put_self : (fs.put c v).fat c = v := Function.update_self _ _ _

theorem put_of_ne (hx : x ≠ c) : (fs.put c v).fat x = fs.fat x := Function.update_of_ne hx _ _

theorem put_geometry (hg : fs.Geometry) : (fs.put c v).Geometry :=
  ⟨hg.two_lt, hg.length_le, hg.start_pos, hg.no_wrap⟩

theorem Chain.put (hch : Chain fs h l) (hc : c ∉ l) : Chain (fs.put c v) h l :=
  hch.congr rfl fun _ hk => put_of_ne fun he => hc (he ▸ hk)

theorem onChain_iff (hg : fs.Geometry) (hch : Chain fs h l) : OnChain fs h c ↔ c ∈ l := by
  refine ⟨?_, fun hc => ⟨l, hch, hc⟩⟩
  rintro ⟨l', hch', hc⟩
  rwa [hch.unique hg hch']

theorem OnChain.range (hc : OnChain fs h c) : 1 ≤ c ∧ c < fs.fat_length := by
  obtain ⟨l, hch, hmem⟩ := hc
  exact hch.range c hmem

theorem OnChain.used (hc : OnChain fs h c) : fs.fat c ≠ 0 := by
  obtain ⟨l, hch, hmem⟩ := hc
  exact hch.entry_ne_zero hmem

/-- The cluster behind one on a chain is on it. -/
theorem OnChain.next (hc : OnChain fs h c) (hend : fs.fat c ≠ EOChain) :
    OnChain fs h (fs.fat c) := by
  obtain ⟨l, hch, hmem⟩ := hc
  obtain ⟨s, t, rfl⟩ := List.append_of_mem hmem
  obtain ⟨m, -, hm⟩ := Path.append_iff.mp hch.path
  have hne : t ≠ [] := by
    rintro rfl
    exact hend hm.2
  have ht : fs.fat c ∈ t := hm.2.start_mem hne
  exact ⟨_, hch, by simp [ht]⟩

theorem Cover.start (hcov : Cover fs root) (hh : root h) : OnChain fs h h := by
  obtain ⟨l, hne, hch⟩ := hcov.chain h hh
  exact ⟨l, hch, hch.path.start_mem hne⟩

theorem Cover.roots {root' : ℕ → Prop} (hcov : Cover fs root) (hroot : ∀ h, root' h ↔ root h) :
    Cover fs root' := by
  rwa [show root' = root from funext fun h => propext (hroot h)]

/-- Only the table itself matters. -/
theorem OnChain.congr (hlen : fs'.fat_length = fs.fat_length) (hfat : fs'.fat = fs.fat)
    (hc : OnChain fs h c) : OnChain fs' h c := by
  obtain ⟨l, hch, hmem⟩ := hc
  exact ⟨l, hch.congr hlen fun _ _ => by rw [hfat], hmem⟩

theorem Cover.congr (hcov : Cover fs root) (hlen : fs'.fat_length = fs.fat_length)
    (hfat : fs'.fat = fs.fat) : Cover fs' root := by
  have hback : ∀ h c, OnChain fs' h c → OnChain fs h c :=
    fun h c => OnChain.congr hlen.symm hfat.symm
  refine ⟨?_, ?_, ?_⟩
  · intro h hh
    obtain ⟨l, hne, hch⟩ := hcov.chain h hh
    exact ⟨l, hne, hch.congr hlen fun _ _ => by rw [hfat]⟩
  · intro h h' c hh hh' hc hc'
    exact hcov.apart h h' c hh hh' (hback h c hc) (hback h' c hc')
  · intro c h1 hlt hused
    rw [hlen] at hlt
    rw [hfat] at hused
    obtain ⟨h, hh, hc⟩ := hcov.used c h1 hlt hused
    exact ⟨h, hh, hc.congr hlen hfat⟩

/-- **Exactly one chain.** -/
theorem Cover.existsUnique (hcov : Cover fs root) (h1 : 1 ≤ c) (hlt : c < fs.fat_length)
    (hused : fs.fat c ≠ 0) : ∃! h, root h ∧ OnChain fs h c := by
  obtain ⟨h, hh, hc⟩ := hcov.used c h1 hlt hused
  exact ⟨h, ⟨hh, hc⟩, fun r hr => hcov.apart r h c hr.1 hh hr.2 hc⟩

/-! ## Writing an entry -/

/-- Writing an entry leaves the chains that do not go through it. -/
theorem Cover.onChain_put (hg : fs.Geometry) (hcov : Cover fs root) (hh : root h)
    (hc : ¬ OnChain fs h c) : OnChain (fs.put c v) h x ↔ OnChain fs h x := by
  obtain ⟨l, -, hch⟩ := hcov.chain h hh
  have hcl : c ∉ l := fun hmem => hc ⟨l, hch, hmem⟩
  rw [onChain_iff (put_geometry hg) (hch.put hcl), onChain_iff hg hch]

theorem Cover.chain_put (hcov : Cover fs root) (hh : root h) (hc : ¬ OnChain fs h c) :
    ∃ l, l ≠ [] ∧ Chain (fs.put c v) h l := by
  obtain ⟨l, hne, hch⟩ := hcov.chain h hh
  exact ⟨l, hne, hch.put fun hmem => hc ⟨l, hch, hmem⟩⟩

/-- **A free cluster is claimed**: it is a chain of its own. -/
theorem Cover.claim (hg : fs.Geometry) (hcov : Cover fs root) (hfree : fs.fat c = 0) (h1 : 1 ≤ c)
    (hlt : c < fs.fat_length) : Cover (fs.put c EOChain) (fun r => root r ∨ r = c)
      ∧ Chain (fs.put c EOChain) c [c]
      ∧ ∀ r x, root r → OnChain fs r x → OnChain (fs.put c EOChain) r x := by
  have hoff : ∀ h, ¬ OnChain fs h c := fun h hc => hc.used hfree
  have hsame : ∀ h x, root h → (OnChain (fs.put c EOChain) h x ↔ OnChain fs h x) :=
    fun h x hh => hcov.onChain_put hg hh (hoff h)
  have hch : Chain (fs.put c EOChain) c [c] := ⟨⟨rfl, put_self⟩, by simpa using ⟨h1, hlt⟩⟩
  have hown : ∀ x, OnChain (fs.put c EOChain) c x ↔ x = c := by
    intro x
    rw [onChain_iff (put_geometry hg) hch, List.mem_singleton]
  have hoffc : ∀ r, root r → ¬ OnChain (fs.put c EOChain) r c :=
    fun r hr hc => hoff r ((hsame r c hr).mp hc)
  refine ⟨⟨?_, ?_, ?_⟩, hch, fun r x hr hx => (hsame r x hr).mpr hx⟩
  · rintro r (hr | rfl)
    · exact hcov.chain_put hr (hoff r)
    · exact ⟨[r], by simp, hch⟩
  · rintro r r' x (hr | rfl) (hr' | rfl) hx hx'
    · exact hcov.apart r r' x hr hr' ((hsame r x hr).mp hx) ((hsame r' x hr').mp hx')
    · obtain rfl := (hown x).mp hx'
      exact absurd hx (hoffc r hr)
    · obtain rfl := (hown x).mp hx
      exact absurd hx' (hoffc r' hr')
    · rfl
  · intro x h1x hltx hused
    by_cases hxc : x = c
    · exact ⟨c, .inr rfl, (hown x).mpr hxc⟩
    · rw [put_of_ne hxc] at hused
      obtain ⟨r, hr, hx⟩ := hcov.used x h1x hltx hused
      exact ⟨r, .inl hr, (hsame r x hr).mpr hx⟩

/-- A cluster whose entry is `EOChain` is the last one. -/
theorem Chain.last_split (hg : fs.Geometry) (hch : Chain fs h l) (ht : t ∈ l)
    (hend : fs.fat t = EOChain) : ∃ s, l = s ++ [t] := by
  obtain ⟨s, r, rfl⟩ := List.append_of_mem ht
  obtain ⟨m, -, hm⟩ := Path.append_iff.mp hch.path
  have hr : r = [] := by
    by_contra hne
    have hmem : EOChain ∈ r := hend ▸ hm.2.start_mem hne
    exact hch.ne_end hg EOChain (by simp [hmem]) rfl
  exact ⟨s, by rw [hr]⟩

/-- Two chains, one put behind the other. -/
theorem Chain.link {s : List ℕ} (hg : fs.Geometry) (hch : Chain fs h (s ++ [t])) (hc : Chain fs c l)
    (ht : t ∉ l) : Chain (fs.put t c) h (s ++ [t] ++ l) := by
  have hts : t ∉ s := by
    intro hmem
    exact (List.nodup_append.mp (hch.nodup hg)).2.2 t hmem t (by simp) rfl
  refine ⟨Path.append_iff.mpr ⟨c, hch.path.update_last hts, hc.path.update_of_notMem ht⟩, ?_⟩
  intro k hk
  rcases List.mem_append.mp hk with hk | hk
  · exact hch.range k hk
  · exact hc.range k hk

/-- **A chain is linked** behind the last cluster of another one, and is none of its own. -/
theorem Cover.link (hg : fs.Geometry) (hcov : Cover fs root) (hh : root h)
    (hc : root c) (hne : h ≠ c) (ht : OnChain fs h t) (htend : fs.fat t = EOChain) :
    Cover (fs.put t c) (fun r => root r ∧ r ≠ c) ∧ OnChain (fs.put t c) h c
      ∧ ∀ r x, root r → r ≠ c → OnChain fs r x → OnChain (fs.put t c) r x := by
  obtain ⟨lh, hlh, hchh⟩ := hcov.chain h hh
  obtain ⟨lc, hlc, hchc⟩ := hcov.chain c hc
  have hmem : t ∈ lh := (onChain_iff hg hchh).mp ht
  obtain ⟨s, rfl⟩ := hchh.last_split hg hmem htend
  have htc : t ∉ lc := fun hmemc => hne (hcov.apart h c t hh hc ht ⟨lc, hchc, hmemc⟩)
  have hnew := hchh.link hg hchc htc
  have hg' : (fs.put t c).Geometry := put_geometry hg
  have hoff : ∀ r, root r → r ≠ h → ¬ OnChain fs r t :=
    fun r hr hrh hrt => hrh (hcov.apart r h t hr hh hrt ht)
  have hsame : ∀ r x, root r → r ≠ h → (OnChain (fs.put t c) r x ↔ OnChain fs r x) :=
    fun r x hr hrh => hcov.onChain_put hg hr (hoff r hr hrh)
  -- The chain of `h` gets what the chain of `c` had.
  have hown : ∀ x, OnChain (fs.put t c) h x ↔ OnChain fs h x ∨ OnChain fs c x := by
    intro x
    rw [onChain_iff hg' hnew, onChain_iff hg hchh, onChain_iff hg hchc, List.mem_append]
  have hback : ∀ r x, root r → r ≠ c → OnChain (fs.put t c) r x →
      OnChain fs r x ∨ r = h ∧ OnChain fs c x := by
    intro r x hr hrc hx
    by_cases hrh : r = h
    · subst hrh
      exact ((hown x).mp hx).imp_right fun hxc => ⟨rfl, hxc⟩
    · exact .inl ((hsame r x hr hrh).mp hx)
  have hkept : ∀ r x, root r → r ≠ c → OnChain fs r x → OnChain (fs.put t c) r x := by
    intro r x hr hrc hx
    by_cases hrh : r = h
    · subst hrh
      exact (hown x).mpr (.inl hx)
    · exact (hsame r x hr hrh).mpr hx
  refine ⟨⟨?_, ?_, ?_⟩, (hown c).mpr (.inr (hcov.start hc)), hkept⟩
  · rintro r ⟨hr, hrc⟩
    by_cases hrh : r = h
    · subst hrh
      exact ⟨_, by simp, hnew⟩
    · exact hcov.chain_put hr (hoff r hr hrh)
  · rintro r r' x ⟨hr, hrc⟩ ⟨hr', hrc'⟩ hx hx'
    rcases hback r x hr hrc hx with hold | ⟨hrh, hxc⟩
    · rcases hback r' x hr' hrc' hx' with hold' | ⟨-, hxc'⟩
      · exact hcov.apart r r' x hr hr' hold hold'
      · exact absurd (hcov.apart r c x hr hc hold hxc') hrc
    · rcases hback r' x hr' hrc' hx' with hold' | ⟨hrh', -⟩
      · exact absurd (hcov.apart r' c x hr' hc hold' hxc) hrc'
      · rw [hrh, hrh']
  · intro x h1x hltx hused
    by_cases hxt : x = t
    · exact ⟨h, ⟨hh, hne⟩, hkept h x hh hne (hxt ▸ ht)⟩
    · rw [put_of_ne hxt] at hused
      obtain ⟨r, hr, hx⟩ := hcov.used x h1x hltx hused
      by_cases hrc : r = c
      · subst hrc
        exact ⟨h, ⟨hh, hne⟩, (hown x).mpr (.inr hx)⟩
      · exact ⟨r, ⟨hr, hrc⟩, hkept r x hr hrc hx⟩

/-- **The first cluster of a chain is freed**, and the next one is the root. -/
theorem Cover.free (hg : fs.Geometry) (hcov : Cover fs root) (hc : root c) :
    Cover (fs.put c 0) (fun r => root r ∧ r ≠ c ∨ r = fs.fat c ∧ r ≠ EOChain)
      ∧ ∀ r x, root r → r ≠ c → OnChain fs r x → OnChain (fs.put c 0) r x := by
  obtain ⟨lc, hlc, hch⟩ := hcov.chain c hc
  obtain ⟨l, rfl⟩ : ∃ l, lc = c :: l := by
    cases lc with
    | nil => exact absurd rfl hlc
    | cons y l => exact ⟨l, by rw [hch.path.1]⟩
  have hcl : c ∉ l := (List.nodup_cons.mp (hch.nodup hg)).1
  have hg' : (fs.put c 0).Geometry := put_geometry hg
  have hrest : Chain (fs.put c 0) (fs.fat c) l :=
    ⟨hch.path.2.update_of_notMem hcl, fun k hk => hch.range k (List.mem_cons_of_mem c hk)⟩
  have hoff : ∀ r, root r → r ≠ c → ¬ OnChain fs r c :=
    fun r hr hrc hx => hrc (hcov.apart r c c hr hc hx (hcov.start hc))
  have hsame : ∀ r x, root r → r ≠ c → (OnChain (fs.put c 0) r x ↔ OnChain fs r x) :=
    fun r x hr hrc => hcov.onChain_put hg hr (hoff r hr hrc)
  -- What is left of the chain was on it.
  have hleft : ∀ x, OnChain (fs.put c 0) (fs.fat c) x → OnChain fs c x := by
    intro x hx
    rw [onChain_iff hg' hrest] at hx
    exact ⟨_, hch, List.mem_cons_of_mem c hx⟩
  refine ⟨⟨?_, ?_, ?_⟩, fun r x hr hrc hx => (hsame r x hr hrc).mpr hx⟩
  · rintro r (⟨hr, hrc⟩ | ⟨rfl, hrend⟩)
    · exact hcov.chain_put hr (hoff r hr hrc)
    · refine ⟨l, ?_, hrest⟩
      rintro rfl
      exact hrend hrest.path
  · rintro r r' x (⟨hr, hrc⟩ | ⟨rfl, -⟩) (⟨hr', hrc'⟩ | ⟨rfl, -⟩) hx hx'
    · exact hcov.apart r r' x hr hr' ((hsame r x hr hrc).mp hx) ((hsame r' x hr' hrc').mp hx')
    · exact absurd (hcov.apart r c x hr hc ((hsame r x hr hrc).mp hx) (hleft x hx')) hrc
    · exact absurd (hcov.apart r' c x hr' hc ((hsame r' x hr' hrc').mp hx') (hleft x hx)) hrc'
    · rfl
  · intro x h1 hlt hused
    have hxc : x ≠ c := by
      rintro rfl
      exact hused put_self
    rw [put_of_ne hxc] at hused
    obtain ⟨r, hr, hx⟩ := hcov.used x h1 hlt hused
    by_cases hrc : r = c
    · subst hrc
      have hxl : x ∈ l := ((List.mem_cons.mp ((onChain_iff hg hch).mp hx))).resolve_left hxc
      refine ⟨fs.fat r, .inr ⟨rfl, ?_⟩, l, hrest, hxl⟩
      intro hend
      have hnil : l = [] := Path.eq_nil_of_end (hend ▸ hrest.path)
        fun hmem => hch.ne_end hg EOChain (List.mem_cons_of_mem r hmem) rfl
      rw [hnil] at hxl
      cases hxl
    · exact ⟨r, .inl ⟨hr, hrc⟩, (hsame r x hr hrc).mpr hx⟩

end Cover

end Pintos
