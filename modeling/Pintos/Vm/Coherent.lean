/-
When the memory of all processes fits together.

`Coherent` is the invariant of the virtual memory system. Three groups of facts:

* `Registered`: supplemental page tables name pages that exist, each page once,
  under its own address.
* `Mapped`: a page-table entry is present exactly where the page registered there
  has a frame, and it names that frame; frames have physical pages of their own;
  no more virtual pages share a frame than its `ref_cnt` says.
* `Swapped`: an anonymous page without a frame has a swap slot to itself.

The second half goes through the operations that keep it. What breaks it is
eviction: a victim that other page tables still map, or that belongs to another
process, is exactly what `EvictsOwn` rules out.
-/
import Pintos.Lib.RefCount
import Pintos.Vm.Steps

set_option autoImplicit false

namespace Pintos

namespace vm

variable (s : vm)

/-- The page registered at a virtual page. -/
def registered (t va : ℕ) : Option Pintos.page := (s.page_at t va).bind s.page

/-- The virtual page has frame `f`. -/
def Resident (t va f : ℕ) : Prop := ∃ pg, s.registered t va = some pg ∧ pg.frame = some f

/-- The page-table entry is present and names the physical page `k`. -/
def Maps (t va k : ℕ) : Prop := ∃ e, s.pte_at t va = some e ∧ e.present = true ∧ e.kva = k

/-- The virtual page is in swap slot `i`. -/
def OnSlot (t va i : ℕ) : Prop := ∃ pg, s.registered t va = some pg ∧ pg.kind = .anon i

/-- Supplemental page tables and the heap of pages agree. -/
structure Registered : Prop where
  page : ∀ {t va p : ℕ}, s.page_at t va = some p → ∃ pg, s.page p = some pg ∧ pg.va = va
  inj : ∀ {t va t' va' p : ℕ}, s.page_at t va = some p → s.page_at t' va' = some p →
    t' = t ∧ va' = va
  aligned : ∀ {t va p : ℕ}, s.page_at t va = some p → pg_round_down va = va
  fresh : ∀ {p : ℕ} {pg : Pintos.page}, s.page p = some pg → p < s.next_page
  alive : ∀ {t : ℕ}, (s.proc t).alive = true → t < s.next_proc

/-- Page tables, pages and frames agree. -/
structure Mapped : Prop where
  fresh : ∀ {f : ℕ} {fr : Pintos.frame}, s.frame f = some fr → f < s.next_frame
  kva_inj : ∀ {f g : ℕ} {fr gr : Pintos.frame}, s.frame f = some fr → s.frame g = some gr →
    gr.kva = fr.kva → g = f
  used : ∀ {f : ℕ} {fr : Pintos.frame}, s.frame f = some fr → s.used fr.kva = true
  resident : ∀ {t va f : ℕ}, s.Resident t va f → ∃ fr, s.frame f = some fr ∧ s.Maps t va fr.kva
  maps : ∀ {t va k : ℕ}, s.Maps t va k →
    ∃ f fr, s.Resident t va f ∧ s.frame f = some fr ∧ fr.kva = k
  counted : ∀ {f : ℕ} {fr : Pintos.frame}, s.frame f = some fr →
    Counted (fun x : ℕ × ℕ => s.Resident x.1 x.2 f) fr.ref_cnt
  same_va : ∀ {t va t' va' f : ℕ}, s.Resident t va f → s.Resident t' va' f → va' = va

/-- Anonymous pages and the swap area agree; a page that was never touched is nowhere. -/
structure Swapped : Prop where
  slot : ∀ {t va i : ℕ}, s.OnSlot t va i → s.swap_table i = true
  inj : ∀ {t va t' va' i : ℕ}, s.OnSlot t va i → s.OnSlot t' va' i → t' = t ∧ va' = va
  home : ∀ {t va : ℕ} {pg : Pintos.page} {i : ℤ}, s.registered t va = some pg →
    pg.kind = .anon i → (0 ≤ i ↔ pg.frame = none)
  untouched : ∀ {t va : ℕ} {pg : Pintos.page} {u : uninit_page}, s.registered t va = some pg →
    pg.kind = .uninit u → pg.frame = none

/-- The memory of all processes fits together. -/
structure Coherent : Prop where
  registered : s.Registered
  mapped : s.Mapped
  swapped : s.Swapped

/-! ## Looking things up -/

variable {s} {s' : vm}

theorem registered_eq_some {t va : ℕ} {pg : Pintos.page} :
    s.registered t va = some pg ↔ ∃ p, s.page_at t va = some p ∧ s.page p = some pg := by
  unfold registered
  exact Option.bind_eq_some_iff

theorem Registered.va (h : s.Registered) {t va : ℕ} {pg : Pintos.page}
    (hr : s.registered t va = some pg) : pg.va = va := by
  obtain ⟨p, hp, hpg⟩ := registered_eq_some.mp hr
  obtain ⟨pg', hpg', hva⟩ := h.page hp
  rw [hpg] at hpg'
  cases hpg'
  exact hva

theorem registered_congr {t va : ℕ} (hat : s'.page_at t va = s.page_at t va)
    (hpg : ∀ p, s.page_at t va = some p → s'.page p = s.page p) :
    s'.registered t va = s.registered t va := by
  unfold registered
  rw [hat]
  cases hp : s.page_at t va with
  | none => rfl
  | some p => exact hpg p hp

theorem Resident.eq {t va f g : ℕ} (hf : s.Resident t va f) (hg : s.Resident t va g) : g = f := by
  obtain ⟨pg, hpg, hf⟩ := hf
  obtain ⟨pg', hpg', hg⟩ := hg
  rw [hpg] at hpg'
  cases hpg'
  rw [hf] at hg
  exact (Option.some.inj hg).symm

theorem Maps.eq {t va k l : ℕ} (hk : s.Maps t va k) (hl : s.Maps t va l) : l = k := by
  obtain ⟨e, he, -, rfl⟩ := hk
  obtain ⟨e', he', -, rfl⟩ := hl
  rw [he] at he'
  cases he'
  rfl

/-- Entries that name one physical page go through one frame. -/
theorem Mapped.frame_of_maps (h : s.Mapped) {t va t' va' k : ℕ} (hk : s.Maps t va k)
    (hk' : s.Maps t' va' k) :
    ∃ f fr, s.frame f = some fr ∧ fr.kva = k ∧ s.Resident t va f ∧ s.Resident t' va' f := by
  obtain ⟨f, fr, hr, hf, hkva⟩ := h.maps hk
  obtain ⟨g, gr, hr', hg, hkva'⟩ := h.maps hk'
  have hgf : g = f := h.kva_inj hf hg (hkva'.trans hkva.symm)
  subst hgf
  exact ⟨g, fr, hf, hkva, hr, hr'⟩

/-! ## Before the first page -/

/-- Nothing is registered, so nothing is wrong there. -/
theorem Registered.of_no_page (hat : ∀ t va, s.page_at t va = none) (hpage : ∀ p, s.page p = none)
    (halive : ∀ t, (s.proc t).alive = true → t < s.next_proc) : s.Registered := by
  have hnone : ∀ {t va p}, ¬ s.page_at t va = some p := by
    intro t va p hp
    rw [hat] at hp
    cases hp
  refine ⟨fun hp => absurd hp hnone, fun hp => absurd hp hnone, fun hp => absurd hp hnone, ?_,
    fun {t} => halive t⟩
  intro p pg hp
  rw [hpage] at hp
  cases hp

/-- A machine without pages, frames and entries. -/
theorem Coherent.of_no_page (hat : ∀ t va, s.page_at t va = none) (hpage : ∀ p, s.page p = none)
    (halive : ∀ t, (s.proc t).alive = true → t < s.next_proc) (hframe : ∀ f, s.frame f = none)
    (hpte : ∀ t va, s.pte_at t va = none) : s.Coherent := by
  have hreg : ∀ {t va pg}, ¬ s.registered t va = some pg := by
    intro t va pg hr
    obtain ⟨p, hp, -⟩ := registered_eq_some.mp hr
    rw [hat] at hp
    cases hp
  have hres : ∀ {t va f}, ¬ s.Resident t va f := by
    rintro t va f ⟨pg, hr, -⟩
    exact hreg hr
  have hslot : ∀ {t va i}, ¬ s.OnSlot t va i := by
    rintro t va i ⟨pg, hr, -⟩
    exact hreg hr
  have hmaps : ∀ {t va k}, ¬ s.Maps t va k := by
    rintro t va k ⟨e, he, -⟩
    rw [hpte] at he
    cases he
  have hfr : ∀ {f fr}, ¬ s.frame f = some fr := by
    intro f fr hf
    rw [hframe] at hf
    cases hf
  exact ⟨.of_no_page hat hpage halive,
    ⟨fun hf => absurd hf hfr, fun hf => absurd hf hfr, fun hf => absurd hf hfr,
      fun hr => absurd hr hres, fun hk => absurd hk hmaps, fun hf => absurd hf hfr,
      fun hr => absurd hr hres⟩,
    ⟨fun hi => absurd hi hslot, fun hi => absurd hi hslot, fun hr => absurd hr hreg,
      fun hr => absurd hr hreg⟩⟩

/-! ## What the groups depend on -/

theorem Registered.congr (h : s.Registered) (hat : ∀ t va, s'.page_at t va = s.page_at t va)
    (hva : ∀ p, (s'.page p).map (·.va) = (s.page p).map (·.va))
    (hnext : s'.next_page = s.next_page) (hproc : s'.next_proc = s.next_proc)
    (halive : ∀ t, (s'.proc t).alive = true → (s.proc t).alive = true) : s'.Registered := by
  refine ⟨fun {t va p} hp => ?_, fun {t va t' va' p} hp hp' => ?_, fun {t va p} hp => ?_,
    fun {p pg} hpg => ?_, fun {t} ht => ?_⟩
  · rw [hat] at hp
    obtain ⟨pg, hpg, rfl⟩ := h.page hp
    have := hva p
    rw [hpg, Option.map_some, Option.map_eq_some_iff] at this
    exact this
  · rw [hat] at hp hp'
    exact h.inj hp hp'
  · rw [hat] at hp
    exact h.aligned hp
  · have := (hva p).symm
    rw [hpg, Option.map_some, Option.map_eq_some_iff] at this
    obtain ⟨pg', hpg', -⟩ := this
    rw [hnext]
    exact h.fresh hpg'
  · rw [hproc]
    exact h.alive (halive t ht)

/-- A new page is registered where there was none. -/
theorem Registered.register (h : s.Registered) (t : ℕ) (pg : Pintos.page)
    (hround : pg_round_down pg.va = pg.va) : (s.register t pg).Registered := by
  have hnew : ∀ {t' va' q}, s.page_at t' va' = some q → q ≠ s.next_page := by
    intro t' va' q hq
    obtain ⟨qg, hqg, -⟩ := h.page hq
    exact (h.fresh hqg).ne
  have hpage : ∀ q, q ≠ s.next_page → (s.register t pg).page q = s.page q := by
    intro q hq
    exact Function.update_of_ne hq _ _
  have hself : (s.register t pg).page s.next_page = some pg := Function.update_self _ _ _
  refine ⟨?_, ?_, ?_, ?_, ?_⟩
  · intro t' va' q hq
    rw [page_at_register] at hq
    by_cases heq : t' = t ∧ va' = pg.va
    · rw [if_pos heq] at hq
      obtain rfl := Option.some.inj hq
      exact ⟨pg, hself, heq.2.symm⟩
    · rw [if_neg heq] at hq
      rw [hpage q (hnew hq)]
      exact h.page hq
  · intro t₁ va₁ t₂ va₂ q hq₁ hq₂
    rw [page_at_register] at hq₁ hq₂
    by_cases heq₁ : t₁ = t ∧ va₁ = pg.va
    · rw [if_pos heq₁] at hq₁
      by_cases heq₂ : t₂ = t ∧ va₂ = pg.va
      · exact ⟨heq₂.1.trans heq₁.1.symm, heq₂.2.trans heq₁.2.symm⟩
      · rw [if_neg heq₂] at hq₂
        exact absurd (Option.some.inj hq₁).symm (hnew hq₂)
    · rw [if_neg heq₁] at hq₁
      by_cases heq₂ : t₂ = t ∧ va₂ = pg.va
      · rw [if_pos heq₂] at hq₂
        exact absurd (Option.some.inj hq₂).symm (hnew hq₁)
      · rw [if_neg heq₂] at hq₂
        exact h.inj hq₁ hq₂
  · intro t' va' q hq
    rw [page_at_register] at hq
    by_cases heq : t' = t ∧ va' = pg.va
    · rw [heq.2]
      exact hround
    · rw [if_neg heq] at hq
      exact h.aligned hq
  · intro q qg hq
    have hnext : (s.register t pg).next_page = s.next_page + 1 := rfl
    rw [hnext]
    by_cases heq : q = s.next_page
    · omega
    · rw [hpage q heq] at hq
      have := h.fresh hq
      omega
  · intro t' ht'
    have halive : ((s.register t pg).proc t').alive = (s.proc t').alive := by
      unfold vm.register
      rw [alive_set_spt]
      rfl
    rw [halive] at ht'
    exact h.alive ht'

/-- What `Mapped` reads of a frame. -/
def core (fr : Pintos.frame) : ℕ × ℤ := (fr.kva, fr.ref_cnt)

theorem frame_of_core {f : ℕ} {fr' : Pintos.frame}
    (hcore : (s'.frame f).map core = (s.frame f).map core) (hf : s'.frame f = some fr') :
    ∃ fr, s.frame f = some fr ∧ fr.kva = fr'.kva ∧ fr.ref_cnt = fr'.ref_cnt := by
  rw [hf, Option.map_some, eq_comm, Option.map_eq_some_iff] at hcore
  obtain ⟨fr, hfr, hcore⟩ := hcore
  exact ⟨fr, hfr, congrArg Prod.fst hcore, congrArg Prod.snd hcore⟩

theorem Mapped.congr (h : s.Mapped) (hres : ∀ t va f, s'.Resident t va f ↔ s.Resident t va f)
    (hmaps : ∀ t va k, s'.Maps t va k ↔ s.Maps t va k)
    (hframe : ∀ f, (s'.frame f).map core = (s.frame f).map core)
    (hnext : s'.next_frame = s.next_frame)
    (hused : ∀ k, s.used k = true → s'.used k = true) : s'.Mapped := by
  have hold : ∀ {f fr'}, s'.frame f = some fr' →
      ∃ fr, s.frame f = some fr ∧ fr.kva = fr'.kva ∧ fr.ref_cnt = fr'.ref_cnt :=
    fun {f fr'} hf => frame_of_core (hframe f) hf
  have hnew : ∀ {f fr}, s.frame f = some fr → ∃ fr', s'.frame f = some fr' ∧ fr'.kva = fr.kva := by
    intro f fr hf
    obtain ⟨fr', hf', hk, -⟩ := frame_of_core (hframe f).symm hf
    exact ⟨fr', hf', hk⟩
  refine ⟨fun {f fr} hf => ?_, fun {f g fr gr} hf hg hk => ?_, fun {f fr} hf => ?_,
    fun {t va f} hr => ?_, fun {t va k} hk => ?_, fun {f fr} hf => ?_,
    fun {t va t' va' f} hr hr' => ?_⟩
  · obtain ⟨fr', hf', -⟩ := hold hf
    rw [hnext]
    exact h.fresh hf'
  · obtain ⟨fr', hf', hkf, -⟩ := hold hf
    obtain ⟨gr', hg', hkg, -⟩ := hold hg
    apply h.kva_inj hf' hg'
    rw [hkf, hkg, hk]
  · obtain ⟨fr', hf', hkf, -⟩ := hold hf
    rw [← hkf]
    exact hused _ (h.used hf')
  · obtain ⟨fr, hf, hmap⟩ := h.resident ((hres t va f).mp hr)
    obtain ⟨fr', hf', hk⟩ := hnew hf
    refine ⟨fr', hf', ?_⟩
    rw [hk]
    exact (hmaps _ _ _).mpr hmap
  · obtain ⟨f, fr, hr, hf, rfl⟩ := h.maps ((hmaps t va k).mp hk)
    obtain ⟨fr', hf', hk'⟩ := hnew hf
    exact ⟨f, fr', (hres t va f).mpr hr, hf', hk'⟩
  · obtain ⟨fr', hf', -, href⟩ := hold hf
    rw [← href]
    exact (h.counted hf').mono (fun x hx => (hres _ _ _).mp hx) le_rfl
  · exact h.same_va ((hres t va f).mp hr) ((hres t' va' f).mp hr')

theorem Swapped.congr (h : s.Swapped) (hreg : ∀ t va, s'.registered t va = s.registered t va)
    (htable : s'.swap_table = s.swap_table) : s'.Swapped := by
  refine ⟨fun {t va i} hi => ?_, fun {t va t' va' i} hi hi' => ?_, fun {t va pg i} hr hk => ?_,
    fun {t va pg u} hr hk => ?_⟩
  · unfold OnSlot at hi
    rw [hreg] at hi
    rw [htable]
    exact h.slot hi
  · unfold OnSlot at hi hi'
    rw [hreg] at hi hi'
    exact h.inj hi hi'
  · rw [hreg] at hr
    exact h.home hr hk
  · rw [hreg] at hr
    exact h.untouched hr hk

/-! ## Changes to one virtual page -/

/-- Only the page registered at `(t, va)` has changed. -/
structure PageUpdate (s s' : vm) (t va : ℕ) (pg : Pintos.page) : Prop where
  page_at : ∀ t' va', s'.page_at t' va' = s.page_at t' va'
  self : s'.registered t va = some pg
  other : ∀ t' va', ¬ (t' = t ∧ va' = va) → s'.registered t' va' = s.registered t' va'

section PageUpdate

variable {t va p : ℕ} {pg : Pintos.page}

theorem Registered.pageUpdate (h : s.Registered) (hp : s.page_at t va = some p)
    (hat : ∀ t' va', s'.page_at t' va' = s.page_at t' va')
    (hpage : s'.page = Function.update s.page p (some pg)) : PageUpdate s s' t va pg := by
  refine ⟨hat, ?_, fun t' va' hne => ?_⟩
  · apply registered_eq_some.mpr
    refine ⟨p, (hat t va).trans hp, ?_⟩
    rw [hpage, Function.update_self]
  · apply registered_congr (hat t' va')
    intro p' hp'
    rw [hpage, Function.update_of_ne]
    intro heq
    subst heq
    exact hne (h.inj hp hp')

theorem PageUpdate.resident_self (h : PageUpdate s s' t va pg) {f : ℕ} :
    s'.Resident t va f ↔ pg.frame = some f := by
  unfold Resident
  rw [h.self]
  simp

theorem PageUpdate.resident_other (h : PageUpdate s s' t va pg) {t' va' f : ℕ}
    (hne : ¬ (t' = t ∧ va' = va)) : s'.Resident t' va' f ↔ s.Resident t' va' f := by
  unfold Resident
  rw [h.other t' va' hne]

theorem PageUpdate.resident_iff (h : PageUpdate s s' t va pg) {t' va' f : ℕ} :
    s'.Resident t' va' f ↔ (t' = t ∧ va' = va ∧ pg.frame = some f)
      ∨ (¬ (t' = t ∧ va' = va) ∧ s.Resident t' va' f) := by
  by_cases heq : t' = t ∧ va' = va
  · obtain ⟨rfl, rfl⟩ := heq
    rw [h.resident_self]
    simp
  · rw [h.resident_other heq]
    constructor
    · intro hr
      exact .inr ⟨heq, hr⟩
    · rintro (⟨ht, hva, -⟩ | ⟨-, hr⟩)
      · exact absurd ⟨ht, hva⟩ heq
      · exact hr

/-- The page keeps its frame, whatever else changes about it. -/
theorem PageUpdate.resident_congr (h : PageUpdate s s' t va pg) {old : Pintos.page}
    (hold : s.registered t va = some old) (hframe : pg.frame = old.frame) (t' va' f : ℕ) :
    s'.Resident t' va' f ↔ s.Resident t' va' f := by
  by_cases heq : t' = t ∧ va' = va
  · obtain ⟨rfl, rfl⟩ := heq
    rw [h.resident_self, hframe]
    unfold Resident
    rw [hold]
    simp
  · exact h.resident_other heq

/-- A page that is not in the swap area after the change. -/
theorem Swapped.update (h : s.Swapped) (hu : PageUpdate s s' t va pg)
    (htable : ∀ i, s.swap_table i = true → s'.swap_table i = true ∨ s.OnSlot t va i)
    (hkind : ∀ i : ℤ, pg.kind = .anon i → i < 0 ∧ pg.frame ≠ none)
    (huninit : ∀ u, pg.kind = .uninit u → pg.frame = none) : s'.Swapped := by
  have hslot : ∀ {t' va' i : ℕ}, s'.OnSlot t' va' i →
      ¬ (t' = t ∧ va' = va) ∧ s.OnSlot t' va' i := by
    rintro t' va' i ⟨pg', hpg', hk⟩
    by_cases heq : t' = t ∧ va' = va
    · obtain ⟨rfl, rfl⟩ := heq
      rw [hu.self] at hpg'
      obtain rfl := Option.some.inj hpg'
      have := (hkind _ hk).1
      omega
    · rw [hu.other t' va' heq] at hpg'
      exact ⟨heq, pg', hpg', hk⟩
  refine ⟨fun {t' va' i} hi => ?_, fun {t' va' t'' va'' i} hi hi' => ?_,
    fun {t' va' pg' i} hr hk => ?_, fun {t' va' pg' u} hr hk => ?_⟩
  · obtain ⟨hne, hi⟩ := hslot hi
    refine (htable i (h.slot hi)).resolve_right fun hon => hne ?_
    exact h.inj hon hi
  · exact h.inj (hslot hi).2 (hslot hi').2
  · by_cases heq : t' = t ∧ va' = va
    · obtain ⟨rfl, rfl⟩ := heq
      rw [hu.self] at hr
      obtain rfl := Option.some.inj hr
      have := hkind _ hk
      constructor
      · intro hi
        omega
      · intro hf
        exact absurd hf this.2
    · rw [hu.other t' va' heq] at hr
      exact h.home hr hk
  · by_cases heq : t' = t ∧ va' = va
    · obtain ⟨rfl, rfl⟩ := heq
      rw [hu.self] at hr
      obtain rfl := Option.some.inj hr
      exact huninit u hk
    · rw [hu.other t' va' heq] at hr
      exact h.untouched hr hk

/-- The general change of a mapping: elsewhere nothing moves, frames keep their
physical pages, and at `(t, va)` page and entry agree again. -/
theorem Mapped.remap (h : s.Mapped) (hu : PageUpdate s s' t va pg)
    (hmaps : ∀ t' va' k, ¬ (t' = t ∧ va' = va) → (s'.Maps t' va' k ↔ s.Maps t' va' k))
    (hkva : ∀ g, (s'.frame g).map (·.kva) = (s.frame g).map (·.kva))
    (hnext : s'.next_frame = s.next_frame) (hused : s'.used = s.used)
    (hin : ∀ f, pg.frame = some f → ∃ fr, s'.frame f = some fr ∧ s'.Maps t va fr.kva)
    (hout : ∀ k, s'.Maps t va k → ∃ f fr, pg.frame = some f ∧ s'.frame f = some fr ∧ fr.kva = k)
    (hva : ∀ f t' va', pg.frame = some f → ¬ (t' = t ∧ va' = va) → s.Resident t' va' f → va' = va)
    (hcount : ∀ {f : ℕ} {fr : Pintos.frame}, s'.frame f = some fr →
      Counted (fun x : ℕ × ℕ => s'.Resident x.1 x.2 f) fr.ref_cnt) : s'.Mapped := by
  have hold : ∀ {f fr'}, s'.frame f = some fr' → ∃ fr, s.frame f = some fr ∧ fr.kva = fr'.kva := by
    intro f fr' hf
    have := (hkva f).symm
    rw [hf, Option.map_some, Option.map_eq_some_iff] at this
    exact this
  have hnew : ∀ {f fr}, s.frame f = some fr → ∃ fr', s'.frame f = some fr' ∧ fr'.kva = fr.kva := by
    intro f fr hf
    have := hkva f
    rw [hf, Option.map_some, Option.map_eq_some_iff] at this
    exact this
  refine ⟨fun {f fr} hf => ?_, fun {f g fr gr} hf hg hk => ?_, fun {f fr} hf => ?_,
    fun {t' va' f} hr => ?_, fun {t' va' k} hk => ?_, hcount, fun {t₁ va₁ t₂ va₂ f} hr hr' => ?_⟩
  · obtain ⟨fr', hf', -⟩ := hold hf
    rw [hnext]
    exact h.fresh hf'
  · obtain ⟨fr', hf', hkf⟩ := hold hf
    obtain ⟨gr', hg', hkg⟩ := hold hg
    apply h.kva_inj hf' hg'
    rw [hkf, hkg, hk]
  · obtain ⟨fr', hf', hkf⟩ := hold hf
    rw [← hkf, hused]
    exact h.used hf'
  · rcases hu.resident_iff.mp hr with ⟨rfl, rfl, hf⟩ | ⟨hne, hr⟩
    · exact hin f hf
    · obtain ⟨fr, hf, hmap⟩ := h.resident hr
      obtain ⟨fr', hf', hk⟩ := hnew hf
      refine ⟨fr', hf', ?_⟩
      rw [hk]
      exact (hmaps _ _ _ hne).mpr hmap
  · by_cases heq : t' = t ∧ va' = va
    · obtain ⟨rfl, rfl⟩ := heq
      obtain ⟨f, fr, hpf, hf, hfk⟩ := hout k hk
      exact ⟨f, fr, hu.resident_self.mpr hpf, hf, hfk⟩
    · obtain ⟨f, fr, hr, hf, rfl⟩ := h.maps ((hmaps t' va' k heq).mp hk)
      obtain ⟨fr', hf', hk'⟩ := hnew hf
      exact ⟨f, fr', (hu.resident_other heq).mpr hr, hf', hk'⟩
  · rcases hu.resident_iff.mp hr with ⟨rfl, rfl, hf⟩ | ⟨hne, hr⟩
    · rcases hu.resident_iff.mp hr' with ⟨rfl, rfl, -⟩ | ⟨hne', hr'⟩
      · rfl
      · exact hva f t₂ va₂ hf hne' hr'
    · rcases hu.resident_iff.mp hr' with ⟨rfl, rfl, hf⟩ | ⟨hne', hr'⟩
      · exact (hva f t₁ va₁ hf hne hr).symm
      · exact h.same_va hr hr'

/-- The page at `(t, va)` loses its frame, and the entry goes. -/
theorem Mapped.detach (h : s.Mapped) (hu : PageUpdate s s' t va pg) (hpf : pg.frame = none)
    (hmaps : ∀ t' va' k, s'.Maps t' va' k ↔ ¬ (t' = t ∧ va' = va) ∧ s.Maps t' va' k)
    (hframe : ∀ f, (s'.frame f).map core = (s.frame f).map core)
    (hnext : s'.next_frame = s.next_frame) (hused : s'.used = s.used) : s'.Mapped := by
  have hres : ∀ {t' va' f}, s'.Resident t' va' f → s.Resident t' va' f := by
    intro t' va' f hr
    rcases hu.resident_iff.mp hr with ⟨-, -, hf⟩ | ⟨-, hr⟩
    · rw [hpf] at hf
      cases hf
    · exact hr
  apply h.remap hu
  · intro t' va' k hne
    rw [hmaps]
    exact and_iff_right hne
  · intro g
    have := congrArg (Option.map Prod.fst) (hframe g)
    simpa [Option.map_map, Function.comp_def, core] using this
  · exact hnext
  · exact hused
  · intro f hf
    rw [hpf] at hf
    cases hf
  · intro k hk
    exact absurd ⟨rfl, rfl⟩ ((hmaps t va k).mp hk).1
  · intro f t' va' hf
    rw [hpf] at hf
    cases hf
  · intro f fr hf
    obtain ⟨fr', hf', -, href⟩ := frame_of_core (hframe f) hf
    rw [← href]
    exact (h.counted hf').mono (fun x hx => hres hx) le_rfl

end PageUpdate

/-! ## Frames come and go -/

theorem Mapped.free_frame (h : s.Mapped) {f : ℕ} (hno : ∀ t va, ¬ s.Resident t va f) :
    (s.free_frame f).Mapped := by
  have hold : ∀ {g gr}, (s.free_frame f).frame g = some gr → g ≠ f ∧ s.frame g = some gr := by
    intro g gr hg
    by_cases heq : g = f
    · subst heq
      simp at hg
    · rw [free_frame_frame, Function.update_of_ne heq] at hg
      exact ⟨heq, hg⟩
  have hnew : ∀ {g gr}, g ≠ f → s.frame g = some gr → (s.free_frame f).frame g = some gr := by
    intro g gr hne hg
    rw [free_frame_frame, Function.update_of_ne hne]
    exact hg
  refine ⟨fun {g gr} hg => h.fresh (hold hg).2, fun {g g' gr gr'} hg hg' hk => ?_,
    fun {g gr} hg => h.used (hold hg).2, fun {t va g} hr => ?_, fun {t va k} hk => ?_,
    fun {g gr} hg => h.counted (hold hg).2, fun {t va t' va' g} hr hr' => h.same_va hr hr'⟩
  · exact h.kva_inj (hold hg).2 (hold hg').2 hk
  · have hr : s.Resident t va g := hr
    obtain ⟨gr, hg, hmap⟩ := h.resident hr
    refine ⟨gr, hnew ?_ hg, hmap⟩
    intro heq
    subst heq
    exact hno t va hr
  · obtain ⟨g, gr, hr, hg, hgk⟩ := h.maps hk
    refine ⟨g, gr, hr, hnew ?_ hg, hgk⟩
    intro heq
    subst heq
    exact hno t va hr

theorem Mapped.new_frame (h : s.Mapped) {fr : Pintos.frame} (hused : s.used fr.kva = true)
    (hfree : ∀ {g gr}, s.frame g = some gr → gr.kva ≠ fr.kva) (hcnt : 0 ≤ fr.ref_cnt) :
    (s.new_frame fr).Mapped := by
  have hnone : ∀ t va, ¬ s.Resident t va s.next_frame := by
    intro t va hr
    obtain ⟨gr, hg, -⟩ := h.resident hr
    exact absurd (h.fresh hg) (lt_irrefl _)
  have hold : ∀ {g gr}, (s.new_frame fr).frame g = some gr →
      (g = s.next_frame ∧ gr = fr) ∨ (g ≠ s.next_frame ∧ s.frame g = some gr) := by
    intro g gr hg
    by_cases heq : g = s.next_frame
    · subst heq
      rw [new_frame_frame, Function.update_self] at hg
      exact .inl ⟨rfl, (Option.some.inj hg).symm⟩
    · rw [new_frame_frame, Function.update_of_ne heq] at hg
      exact .inr ⟨heq, hg⟩
  have hnew : ∀ {g gr}, s.frame g = some gr → (s.new_frame fr).frame g = some gr := by
    intro g gr hg
    have hne : g ≠ s.next_frame := (h.fresh hg).ne
    rw [new_frame_frame, Function.update_of_ne hne]
    exact hg
  refine ⟨fun {g gr} hg => ?_, fun {g g' gr gr'} hg hg' hk => ?_, fun {g gr} hg => ?_,
    fun {t va g} hr => ?_, fun {t va k} hk => ?_, fun {g gr} hg => ?_,
    fun {t va t' va' g} hr hr' => h.same_va hr hr'⟩
  · rw [new_frame_next_frame]
    rcases hold hg with ⟨rfl, -⟩ | ⟨-, hg⟩
    · exact Nat.lt_succ_self _
    · exact Nat.lt_succ_of_lt (h.fresh hg)
  · rcases hold hg with ⟨rfl, rfl⟩ | ⟨-, hold₁⟩
    · rcases hold hg' with ⟨rfl, -⟩ | ⟨-, hold₂⟩
      · rfl
      · exact absurd hk (hfree hold₂)
    · rcases hold hg' with ⟨rfl, rfl⟩ | ⟨-, hold₂⟩
      · exact absurd hk.symm (hfree hold₁)
      · exact h.kva_inj hold₁ hold₂ hk
  · rcases hold hg with ⟨-, rfl⟩ | ⟨-, hg⟩
    · exact hused
    · exact h.used hg
  · have hr : s.Resident t va g := hr
    obtain ⟨gr, hg, hmap⟩ := h.resident hr
    exact ⟨gr, hnew hg, hmap⟩
  · obtain ⟨g, gr, hr, hg, hgk⟩ := h.maps hk
    exact ⟨g, gr, hr, hnew hg, hgk⟩
  · rcases hold hg with ⟨rfl, rfl⟩ | ⟨-, hg⟩
    · exact .of_empty (fun x => hnone x.1 x.2) hcnt
    · exact h.counted hg

end vm

end Pintos
