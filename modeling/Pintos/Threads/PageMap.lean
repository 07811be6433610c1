/-
A page map is a finite map from user pages to pages of the kernel.

What an address translates to is what is found at four indices, and the indices of a user
address name its page. A call descends to one page table, which adds tables on the way but
maps nothing by them, and stores one entry: the translations of the other pages are found
where they were, because the user tables form a tree and a new table is none of them.
-/
import Pintos.Threads.PageWalk

set_option autoImplicit false

namespace Pintos.mmu

open Radix

/-! ## Trees of user tables -/

/-- The places of the user tables of a page map. -/
def user (pml4 r : ℕ) (is : List (Fin 512)) : Prop := r = pml4 ∧ UserPos is

/-- The user tables of a page map form a tree, of pages in use. -/
structure UserTree (m : memory) (pml4 : ℕ) : Prop where
  forest : Forest (child m) (user pml4)
  used : ∀ {is t}, UserPos is → reach (child m) pml4 is = some t → kernel_page m t true

/-- The page that an address is mapped to. -/
def mapped (m : memory) (pml4 va : ℕ) : Option ℕ := reach (child m) pml4 (path va ++ [PTX va])

section Positions

variable {va va' : ℕ} {is : List (Fin 512)} {i : Fin 512}

theorem UserPos.of_path (h : is_user_vaddr va) : UserPos (path va) := ⟨va, h, List.prefix_refl _⟩

theorem UserPos.above {js : List (Fin 512)} (h : UserPos (is ++ js)) : UserPos is := by
  obtain ⟨va, hva, hpre⟩ := h
  exact ⟨va, hva, (List.prefix_append is js).trans hpre⟩

theorem not_user_pos_leaf (i : Fin 512) : ¬ UserPos (path va ++ [i]) := by
  rintro ⟨va', -, hpre⟩
  have hlen := hpre.length_le
  simp [path] at hlen

/-- **The indices of a user address** name its page. -/
theorem page_eq_of_path (hva : is_user_vaddr va) (hva' : is_user_vaddr va')
    (hpath : path va = path va') (hidx : PTX va = PTX va') :
    pg_round_down va = pg_round_down va' := by
  unfold is_user_vaddr KERN_BASE at hva hva'
  unfold path at hpath
  simp only [List.cons.injEq, and_true] at hpath
  obtain ⟨h₁, h₂, h₃⟩ := hpath
  have h₁ : va / 2 ^ 39 % 512 = va' / 2 ^ 39 % 512 := congrArg Fin.val h₁
  have h₂ : va / 2 ^ 30 % 512 = va' / 2 ^ 30 % 512 := congrArg Fin.val h₂
  have h₃ : va / 2 ^ 21 % 512 = va' / 2 ^ 21 % 512 := congrArg Fin.val h₃
  have h₄ : va / 2 ^ 12 % 512 = va' / 2 ^ 12 % 512 := congrArg Fin.val hidx
  unfold pg_round_down PGSIZE
  omega

/-- Addresses of one page have the same indices. -/
theorem path_of_page_eq (h : pg_round_down va = va') : path va = path va' ∧ PTX va = PTX va' := by
  unfold pg_round_down PGSIZE at h
  have h₁ : PML4 va = PML4 va' := Fin.ext (by show va / 2 ^ 39 % 512 = va' / 2 ^ 39 % 512; omega)
  have h₂ : PDPE va = PDPE va' := Fin.ext (by show va / 2 ^ 30 % 512 = va' / 2 ^ 30 % 512; omega)
  have h₃ : PDX va = PDX va' := Fin.ext (by show va / 2 ^ 21 % 512 = va' / 2 ^ 21 % 512; omega)
  have h₄ : PTX va = PTX va' := Fin.ext (by show va / 2 ^ 12 % 512 = va' / 2 ^ 12 % 512; omega)
  unfold path
  rw [h₁, h₂, h₃]
  exact ⟨rfl, h₄⟩

theorem path_congr (h : pg_round_down va = pg_round_down va') :
    path va = path va' ∧ PTX va = PTX va' := by
  obtain ⟨hpath, hidx⟩ := path_of_page_eq h
  obtain ⟨hpath', hidx'⟩ := path_of_page_eq (rfl : pg_round_down va' = pg_round_down va')
  rw [hpath, hpath', hidx, hidx']
  exact ⟨rfl, rfl⟩

end Positions

/-! ## What the calls keep -/

/-- The tree is kept, and every user address is mapped as before. -/
structure Keeps (m : memory) (pml4 : ℕ) (m' : memory) : Prop where
  tree : UserTree m' pml4
  base : m'.base_pml4 = m.base_pml4
  mapped : ∀ va, is_user_vaddr va → mapped m' pml4 va = mapped m pml4 va

section Keeps

variable {m m' m₁ m₂ : memory} {pml4 va t u v page : ℕ} {pos is : List (Fin 512)} {i : Fin 512}
  {gots : List ℕ}

theorem Keeps.refl (h : UserTree m pml4) : Keeps m pml4 m := ⟨h, rfl, fun _ _ => rfl⟩

theorem Keeps.trans (h₁ : Keeps m pml4 m₁) (h₂ : Keeps m₁ pml4 m₂) : Keeps m pml4 m₂ where
  tree := h₂.tree
  base := h₂.base.trans h₁.base
  mapped va hva := (h₂.mapped va hva).trans (h₁.mapped va hva)

theorem UserTree.sound (h : UserTree m pml4) (hva : is_user_vaddr va) : Sound m pml4 (path va) := by
  intro js i hjs u hu
  exact h.used ⟨va, hva, (List.prefix_append js [i]).trans hjs⟩ hu

/-- A walk that failed zeroed entries that were not present. -/
theorem Undone.keeps (hu : Undone m pml4 is gots m') (h : UserTree m pml4) : Keeps m pml4 m' := by
  have hchild : ∀ {js t}, UserPos js → reach (child m) pml4 js = some t
      → child m' t = child m t := by
    intro js t hjs ht
    have hin : t ∉ gots := fun hmem => kernel_page_ne (h.used hjs ht) (hu.free t hmem) rfl
    funext j
    rcases hu.word t j hin with heq | ⟨hzero, hnone, -⟩
    · unfold child
      rw [heq]
    · rw [hnone, child_eq_none, hzero]
      rfl
  have hsame : ∀ {r js t}, user pml4 r js → reach (child m) r js = some t →
      child m' t = child m t := by
    rintro r js t ⟨rfl, hjs⟩ ht
    exact hchild hjs ht
  refine ⟨⟨h.forest.congr hsame, ?_⟩, hu.base, ?_⟩
  · intro js t hjs ht
    rw [h.forest.reach_eq hsame ⟨rfl, hjs⟩] at ht
    obtain ⟨hin, hbit⟩ := h.used hjs ht
    unfold kernel_page
    rw [hu.kernel_pool]
    exact ⟨hin, hbit⟩
  · intro va hva
    exact h.forest.reach_concat_eq hsame ⟨rfl, .of_path hva⟩ (PTX va)

/-- **A new table** maps nothing. -/
theorem UserTree.linked (h : UserTree m pml4) (hpos : UserPos (pos ++ [i]))
    (ht : reach (child m) pml4 pos = some t) (hnone : child m t i = none)
    (hfree : kernel_page m page false) :
    Keeps m pml4 (m.linked t i page)
      ∧ reach (child (m.linked t i page)) pml4 (pos ++ [i]) = some page := by
  have hfresh : ∀ {r js}, user pml4 r js → reach (child m) r js ≠ some page := by
    rintro r js ⟨rfl, hjs⟩ hr
    exact kernel_page_ne (h.used hjs hr) hfree rfl
  have hl : Radix.Linked (child m) (user pml4) pml4 pos i page (child (m.linked t i page)) := by
    refine ⟨⟨rfl, hpos.above⟩, ⟨t, ht, hnone, linked_child, ?_⟩, hfresh, ?_⟩
    · intro u j hne hu
      have hboth : ¬ (u = t ∧ j = i) := by tauto
      unfold child
      rw [linked_word, if_neg hboth, if_neg hu]
    · intro j
      have htp : page ≠ t := by
        rintro rfl
        exact hfresh ⟨rfl, hpos.above⟩ ht
      rw [child_eq_none, linked_word, if_neg (fun hboth => htp hboth.1), if_pos rfl]
      rfl
  refine ⟨⟨⟨h.forest.linked hl, ?_⟩, rfl, ?_⟩, ?_⟩
  · intro js u hjs hu
    rw [kernel_page_linked]
    rcases h.forest.reach_linked hl ⟨rfl, hjs⟩ with ⟨-, -, hv⟩ | ⟨-, hsame⟩
    · rw [hv] at hu
      obtain rfl := Option.some.inj hu
      exact ⟨hfree.1, if_pos rfl⟩
    · rw [hsame] at hu
      obtain ⟨hin, hbit⟩ := h.used hjs hu
      rw [if_neg (kernel_page_ne ⟨hin, hbit⟩ hfree)]
      exact ⟨hin, hbit⟩
  · intro va hva
    apply h.forest.leaf_linked hl ⟨rfl, hpos⟩ ⟨rfl, .of_path hva⟩
    rintro ⟨-, hleaf⟩
    exact not_user_pos_leaf _ hleaf
  · rcases h.forest.reach_linked hl ⟨rfl, hpos⟩ with ⟨-, -, hv⟩ | ⟨hne, -⟩
    · exact hv
    · exact absurd ⟨rfl, rfl⟩ hne

/-- **A descent** keeps what is mapped, and ends at the page table. -/
theorem Creates.keeps (hc : Creates m t is gots m' v) (h : UserTree m pml4)
    (ht : reach (child m) pml4 pos = some t) (hpos : UserPos (pos ++ is)) :
    Keeps m pml4 m' ∧ reach (child m') pml4 (pos ++ is) = some v := by
  induction hc generalizing pos with
  | found =>
      rw [List.append_nil]
      exact ⟨.refl h, ht⟩
  | @present m m' t u v i is gots hu hc ih =>
      rw [List.append_cons] at hpos ⊢
      apply ih h ?_ hpos
      rw [reach_concat, ht, Option.bind_some, hu]
  | @created m m' t page v i is gots hnone hfree hc ih =>
      rw [List.append_cons] at hpos ⊢
      obtain ⟨hk, hpage⟩ := h.linked hpos.above ht hnone hfree
      obtain ⟨hk', hv⟩ := ih hk.tree hpage hpos
      exact ⟨hk.trans hk', hv⟩

/-- **The walk** keeps what is mapped, whether it fails or not. -/
theorem pml4e_walk_keeps (h : UserTree m pml4) (hva : is_user_vaddr va) (create : Bool) :
    ∃ pte m', pml4e_walk m pml4 va create = .ok (pte, m') ∧ Keeps m pml4 m'
      ∧ (pte = none ∨ ∃ t, pte = some (t, PTX va) ∧ reach (child m') pml4 (path va) = some t) := by
  have hresult := logged_pml4e_walk_result (m := m) pml4 va create
  obtain ⟨gots, m', ⟨heq, hu⟩ | ⟨v, heq, hc⟩⟩ := pml4e_walk_descends (h.sound hva) create
  · rw [heq] at hresult
    exact ⟨_, _, hresult.symm, hu.keeps h, .inl rfl⟩
  · rw [heq] at hresult
    have hroot : reach (child m) pml4 [] = some pml4 := rfl
    have hpos : UserPos ([] ++ path va) := .of_path hva
    obtain ⟨hk, hv⟩ := hc.keeps h hroot hpos
    exact ⟨_, _, hresult.symm, hk, .inr ⟨v, rfl, hv⟩⟩

end Keeps

/-! ## One call -/

/-- The tree is kept, and of the user addresses those of the page `upage` are mapped to
`page` from now on. -/
structure Maps (m : memory) (pml4 upage : ℕ) (page : Option ℕ) (m' : memory) : Prop where
  tree : UserTree m' pml4
  base : m'.base_pml4 = m.base_pml4
  here : ∀ va, is_user_vaddr va → pg_round_down va = upage → mapped m' pml4 va = page
  others : ∀ va, is_user_vaddr va → pg_round_down va ≠ upage → mapped m' pml4 va = mapped m pml4 va

section Calls

variable {m m' : memory} {pml4 upage kpage t : ℕ}

theorem pg_round_down_of_aligned (h : pg_ofs upage = 0) : pg_round_down upage = upage := by
  have := pg_round_down_add_pg_ofs upage
  omega

/-- A store to an entry of a page table, as a store below the tree. -/
theorem stored_below (hva : is_user_vaddr upage)
    (ht : reach (child m) pml4 (path upage) = some t) (e : entry) :
    Stored (child m) (user pml4) pml4 (path upage) (PTX upage)
      (child (m.set_entry t (PTX upage) e)) := by
  refine ⟨⟨rfl, .of_path hva⟩, ?_, t, ht, ?_⟩
  · rintro ⟨-, hleaf⟩
    exact not_user_pos_leaf _ hleaf
  · intro u j hne
    have hboth : ¬ (u = t ∧ j = PTX upage) := by tauto
    rw [child_set_entry, if_neg hboth]

theorem UserTree.set_entry (h : UserTree m pml4) (hva : is_user_vaddr upage)
    (ht : reach (child m) pml4 (path upage) = some t) (e : entry) :
    UserTree (m.set_entry t (PTX upage) e) pml4 := by
  have hs := stored_below hva ht e
  refine ⟨h.forest.stored hs, ?_⟩
  intro is u his hu
  rw [h.forest.reach_stored hs ⟨rfl, his⟩] at hu
  exact h.used his hu

/-- An entry of the page table is stored. -/
theorem Keeps.stored (hk : Keeps m pml4 m') (hva : is_user_vaddr upage) (hofs : pg_ofs upage = 0)
    (ht : reach (child m') pml4 (path upage) = some t) (e : entry) :
    Maps m pml4 upage (if e.present then some e.page else none)
      (m'.set_entry t (PTX upage) e) := by
  have h := hk.tree
  have hs := stored_below hva ht e
  refine ⟨h.set_entry hva ht e, hk.base, ?_, ?_⟩
  · intro va huser hpage
    obtain ⟨hpath, hidx⟩ := path_of_page_eq hpage
    unfold mmu.mapped
    rw [hpath, hidx, reach_concat, h.forest.reach_stored hs ⟨rfl, .of_path hva⟩, ht,
      Option.bind_some, child_set_entry, if_pos ⟨rfl, rfl⟩]
  · intro va huser hpage
    rw [← hk.mapped va huser]
    apply h.forest.leaf_stored hs ⟨rfl, .of_path huser⟩
    rintro ⟨-, hpath, hidx⟩
    apply hpage
    rw [page_eq_of_path huser hva hpath hidx, pg_round_down_of_aligned hofs]

/-- A page that is not mapped is as good as cleared. -/
theorem UserTree.maps_none (h : UserTree m pml4) (hnone : mapped m pml4 upage = none) :
    Maps m pml4 upage none m := by
  refine ⟨h, rfl, ?_, fun _ _ _ => rfl⟩
  intro va _ hpage
  obtain ⟨hpath, hidx⟩ := path_of_page_eq hpage
  unfold mapped
  rw [hpath, hidx]
  exact hnone

/-- **`pml4_set_page`**: the page is mapped, or nothing changes. -/
theorem pml4_set_page_maps (h : UserTree m pml4) (hbase : pml4 ≠ m.base_pml4)
    (hofs : pg_ofs upage = 0) (hkofs : pg_ofs kpage = 0) (hva : is_user_vaddr upage)
    (hkva : ¬ is_user_vaddr kpage) (rw : Bool) :
    ∃ ok m', pml4_set_page m pml4 upage kpage rw = .ok (ok, m')
      ∧ ((ok = true ∧ Maps m pml4 upage (some ((kpage - KERN_BASE) / PGSIZE)) m')
        ∨ (ok = false ∧ Keeps m pml4 m')) := by
  unfold pml4_set_page
  rw [Outcome.assert_pos hofs, Outcome.ok_bind, Outcome.assert_pos hkofs, Outcome.ok_bind,
    Outcome.assert_pos hva, Outcome.ok_bind, Outcome.assert_pos hbase, Outcome.ok_bind]
  obtain ⟨pte, m', hwalk, hk, rfl | ⟨t, rfl, ht⟩⟩ := pml4e_walk_keeps h hva true
  · rw [hwalk]
    exact ⟨false, m', rfl, .inr ⟨rfl, hk⟩⟩
  · rw [hwalk, Outcome.ok_bind]
    dsimp only
    rw [Outcome.assert_pos hkva]
    exact ⟨true, _, rfl, .inl ⟨rfl, hk.stored hva hofs ht
      { page := (kpage - KERN_BASE) / PGSIZE, present := true, writable := rw, user := true
        accessed := false, dirty := false }⟩⟩

/-- **`pml4_clear_page`**: the page is mapped no more. -/
theorem pml4_clear_page_maps (h : UserTree m pml4) (hofs : pg_ofs upage = 0)
    (hva : is_user_vaddr upage) :
    ∃ m', pml4_clear_page m pml4 upage = .ok m' ∧ Maps m pml4 upage none m' := by
  unfold pml4_clear_page
  rw [Outcome.assert_pos hofs, Outcome.ok_bind, Outcome.assert_pos hva, Outcome.ok_bind,
    pml4e_walk_lookup, Outcome.ok_bind]
  have hmapped : mapped m pml4 upage = (reach (child m) pml4 (path upage)).bind fun t =>
      child m t (PTX upage) := reach_concat
  cases ht : reach (child m) pml4 (path upage) with
  | none =>
      rw [ht] at hmapped
      rw [path] at ht
      rw [ht]
      exact ⟨m, rfl, h.maps_none hmapped⟩
  | some t =>
      rw [ht] at hmapped
      have hstored := (Keeps.refl h).stored hva hofs ht
      rw [path] at ht
      rw [ht]
      show ∃ m', (if (m.word t (PTX upage)).present = true then _ else _) = Outcome.ok m' ∧ _
      cases hpresent : (m.word t (PTX upage)).present with
      | true =>
          rw [if_pos rfl]
          exact ⟨_, rfl, hstored { m.word t (PTX upage) with present := false }⟩
      | false =>
          rw [if_neg (by simp)]
          refine ⟨m, rfl, h.maps_none ?_⟩
          rw [hmapped, Option.bind_some, child_eq_none]
          exact hpresent

end Calls

/-! ## Sequences of calls -/

/-- A call on a page map. -/
inductive map_call
  | pml4_set_page (upage kpage : ℕ) (rw : Bool)
  | pml4_clear_page (upage : ℕ)
  deriving DecidableEq, Repr

/-- The page the call is about. -/
def map_call.upage : map_call → ℕ
  | .pml4_set_page upage _ _ => upage
  | .pml4_clear_page upage => upage

/-- The page of the kernel it is mapped to. -/
def map_call.kpage : map_call → Option ℕ
  | .pml4_set_page _ kpage _ => some kpage
  | .pml4_clear_page _ => none

/-- What the call asserts of its arguments. -/
def map_call.Valid (c : map_call) : Prop :=
  pg_ofs c.upage = 0 ∧ is_user_vaddr c.upage ∧ ∀ kpage ∈ c.kpage, pg_ofs kpage = 0
    ∧ ¬ is_user_vaddr kpage

/-- One call, and whether it succeeded. -/
def map_step (pml4 : ℕ) (m : memory) : map_call → Outcome (Bool × memory)
  | .pml4_set_page upage kpage rw => pml4_set_page m pml4 upage kpage rw
  | .pml4_clear_page upage => do
      let m ← pml4_clear_page m pml4 upage
      return (true, m)

/-- A sequence of calls, and whether all of them succeeded. -/
def map_run (pml4 : ℕ) : List map_call → memory → Outcome (Bool × memory)
  | [], m => .ok (true, m)
  | c :: cs, m => do
      let (ok, m) ← map_step pml4 m c
      let (oks, m) ← map_run pml4 cs m
      return (ok && oks, m)

/-- The last call about a page. -/
def last_call (cs : List map_call) (page : ℕ) : Option map_call :=
  (cs.filter fun c => c.upage = page).getLast?

section Runs

variable {m m' : memory} {pml4 va : ℕ} {c : map_call} {cs : List map_call}

theorem last_call_cons (page : ℕ) : last_call (c :: cs) page
    = (last_call cs page).or (if c.upage = page then some c else none) := by
  unfold last_call
  rw [List.filter_cons]
  split_ifs with hc hpage hpage
  · rw [List.getLast?_cons]
    cases (cs.filter fun c => c.upage = page).getLast? with
    | none => rfl
    | some d => rfl
  · exact absurd (by simpa using hc) hpage
  · exact absurd (by simpa using hpage) hc
  · rw [Option.or_none]

/-- **One call** maps its page, if it succeeds, and no other. -/
theorem map_step_maps (h : UserTree m pml4) (hbase : pml4 ≠ m.base_pml4) (hc : c.Valid) :
    ∃ ok m', map_step pml4 m c = .ok (ok, m')
      ∧ ((ok = true ∧ Maps m pml4 c.upage (c.kpage.map fun k => (k - KERN_BASE) / PGSIZE) m')
        ∨ (ok = false ∧ Keeps m pml4 m')) := by
  obtain ⟨hofs, hva, hk⟩ := hc
  cases c with
  | pml4_set_page upage kpage rw =>
      obtain ⟨hkofs, hkva⟩ := hk kpage rfl
      exact pml4_set_page_maps h hbase hofs hkofs hva hkva rw
  | pml4_clear_page upage =>
      obtain ⟨m', hclear, hmaps⟩ := pml4_clear_page_maps h hofs hva
      refine ⟨true, m', ?_, .inl ⟨rfl, hmaps⟩⟩
      change pml4_clear_page m pml4 upage = _ at hclear
      show (pml4_clear_page m pml4 upage >>= _) = _
      rw [hclear]
      rfl

/-- **A sequence of calls**, as far as it concerns an address. -/
theorem map_run_mapped (h : UserTree m pml4) (hbase : pml4 ≠ m.base_pml4)
    (hcs : ∀ c ∈ cs, c.Valid) :
    ∃ ok m', map_run pml4 cs m = .ok (ok, m') ∧ UserTree m' pml4 ∧ ∀ va, is_user_vaddr va →
      ((∀ c ∈ cs, c.upage ≠ pg_round_down va) → mapped m' pml4 va = mapped m pml4 va)
      ∧ (ok = true → ∀ c, last_call cs (pg_round_down va) = some c →
        mapped m' pml4 va = c.kpage.map fun k => (k - KERN_BASE) / PGSIZE) := by
  induction cs generalizing m with
  | nil =>
      refine ⟨true, m, rfl, h, fun va _ => ⟨fun _ => rfl, ?_⟩⟩
      intro _ c hc
      cases hc
  | cons c cs ih =>
      have hc := hcs c (List.mem_cons_self ..)
      have hrest : ∀ c ∈ cs, c.Valid := fun c' hc' => hcs c' (List.mem_cons_of_mem _ hc')
      obtain ⟨ok, m₁, hstep, hres⟩ := map_step_maps h hbase hc
      have htree : UserTree m₁ pml4 ∧ m₁.base_pml4 = m.base_pml4 := by
        rcases hres with ⟨-, hm⟩ | ⟨-, hk⟩
        · exact ⟨hm.tree, hm.base⟩
        · exact ⟨hk.tree, hk.base⟩
      have hbase₁ : pml4 ≠ m₁.base_pml4 := by rwa [htree.2]
      obtain ⟨oks, m', hrun, htree', hmapped⟩ := ih htree.1 hbase₁ hrest
      refine ⟨ok && oks, m', ?_, htree', fun va hva => ⟨fun hnot => ?_, fun hok c' hlast => ?_⟩⟩
      · unfold map_run
        rw [hstep, Outcome.ok_bind]
        dsimp only
        rw [hrun]
        rfl
      · rw [(hmapped va hva).1 (fun c' hc' => hnot c' (List.mem_cons_of_mem _ hc'))]
        rcases hres with ⟨-, hm⟩ | ⟨-, hk⟩
        · exact hm.others va hva (hnot c (List.mem_cons_self ..)).symm
        · exact hk.mapped va hva
      · rw [Bool.and_eq_true] at hok
        rw [last_call_cons] at hlast
        cases hcs_last : last_call cs (pg_round_down va) with
        | some d =>
            rw [hcs_last, Option.some_or] at hlast
            obtain rfl := Option.some.inj hlast
            exact (hmapped va hva).2 hok.2 d hcs_last
        | none =>
            -- this call is the last one about the page
            rw [hcs_last, Option.none_or] at hlast
            split_ifs at hlast with hpage
            obtain rfl := Option.some.inj hlast
            have hnot : ∀ c' ∈ cs, c'.upage ≠ pg_round_down va := by
              intro c' hc' heq
              have hmem : c' ∈ cs.filter fun c => c.upage = pg_round_down va := by
                simp [hc', heq]
              rw [List.getLast?_eq_none_iff.mp hcs_last] at hmem
              cases hmem
            rw [(hmapped va hva).1 hnot]
            rcases hres with ⟨-, hm⟩ | ⟨hfalse, -⟩
            · exact hm.here va hva hpage.symm
            · rw [hok.1] at hfalse
              cases hfalse

theorem get_page_of_mapped (hva : is_user_vaddr va) : pml4_get_page m pml4 va
    = .ok ((mapped m pml4 va).map fun page => KERN_BASE + page * PGSIZE + pg_ofs va) :=
  pml4_get_page_eq hva

/-- The number of a page of the kernel, and back. -/
theorem kpage_of_number {kpage : ℕ} (hofs : pg_ofs kpage = 0) (hkva : ¬ is_user_vaddr kpage) :
    KERN_BASE + (kpage - KERN_BASE) / PGSIZE * PGSIZE = kpage := by
  unfold is_user_vaddr at hkva
  unfold pg_ofs PGSIZE at hofs
  unfold KERN_BASE PGSIZE at *
  omega

/-- **A page map is a finite map.** After any sequence of calls an address of a page that no
call was about translates as before; if every allocation succeeded, the others translate to
what the last call about their page says, with the offset in the page. -/
theorem page_map_is_finite_map (h : UserTree m pml4) (hbase : pml4 ≠ m.base_pml4)
    (hcs : ∀ c ∈ cs, c.Valid) :
    ∃ ok m', map_run pml4 cs m = .ok (ok, m') ∧ ∀ va, is_user_vaddr va →
      ((∀ c ∈ cs, c.upage ≠ pg_round_down va) →
        pml4_get_page m' pml4 va = pml4_get_page m pml4 va)
      ∧ (ok = true → ∀ c, last_call cs (pg_round_down va) = some c →
        pml4_get_page m' pml4 va = .ok (c.kpage.map fun kpage => kpage + pg_ofs va)) := by
  obtain ⟨ok, m', hrun, -, hmapped⟩ := map_run_mapped h hbase hcs
  refine ⟨ok, m', hrun, fun va hva => ⟨fun hnot => ?_, fun hok c hlast => ?_⟩⟩
  · rw [get_page_of_mapped hva, get_page_of_mapped hva, (hmapped va hva).1 hnot]
  · rw [get_page_of_mapped hva, (hmapped va hva).2 hok c hlast]
    have hc : c ∈ cs := List.mem_of_mem_filter (List.mem_of_getLast? hlast)
    obtain ⟨-, -, hk⟩ := hcs c hc
    cases hkpage : c.kpage with
    | none => rfl
    | some kpage =>
        obtain ⟨hofs, hkva⟩ := hk kpage hkpage
        simp only [Option.map_some]
        rw [kpage_of_number hofs hkva]

end Runs

/-- Seven free pages for the tables of the empty page map 0. -/
def spare : memory where
  kernel_pool := { base := 0, page_cnt := 8, used_map := fun page => decide (page = 0) }
  user_pool := { base := 8, page_cnt := 4, used_map := fun _ => false }
  word _ _ := entry.zero
  base_pml4 := 12

theorem spare_user_tree : UserTree spare 0 := by
  have honly : ∀ {is t}, reach (child spare) 0 is = some t → is = [] ∧ t = 0 := by
    intro is t ht
    cases is with
    | nil => exact ⟨rfl, (Option.some.inj ht).symm⟩
    | cons i is => cases ht
  refine ⟨⟨?_, ?_⟩, fun _ ht => ?_⟩
  · rintro r is i ⟨rfl, his⟩
    exact ⟨rfl, his.above⟩
  · rintro r is r' js t ⟨rfl, -⟩ ⟨rfl, -⟩ ht ht'
    rw [(honly ht).1, (honly ht').1]
    exact ⟨rfl, rfl⟩
  · rw [(honly ht).2]
    exact ⟨rfl, rfl⟩

/-- Two pages of one table are mapped, and one of them is cleared. -/
theorem spare_map_is_finite_map :
    let cs := [.pml4_set_page 0x400000 (KERN_BASE + 8 * PGSIZE) true,
      .pml4_set_page 0x401000 (KERN_BASE + 9 * PGSIZE) true, .pml4_clear_page 0x401000]
    ∃ m', map_run 0 cs spare = .ok (true, m')
      ∧ pml4_get_page m' 0 0x400123 = .ok (some (KERN_BASE + 8 * PGSIZE + 0x123))
      ∧ pml4_get_page m' 0 0x401000 = .ok none := by
  intro cs
  have hcs : ∀ c ∈ cs, c.Valid := by
    intro c hc
    simp only [cs, List.mem_cons, List.not_mem_nil, or_false] at hc
    rcases hc with rfl | rfl | rfl
    · refine ⟨by decide, by decide, fun kpage hk => ?_⟩
      obtain rfl := Option.some.inj hk
      decide
    · refine ⟨by decide, by decide, fun kpage hk => ?_⟩
      obtain rfl := Option.some.inj hk
      decide
    · exact ⟨by decide, by decide, fun kpage hk => by cases hk⟩
  obtain ⟨ok, m', hrun, hmap⟩ := page_map_is_finite_map spare_user_tree (by decide) hcs
  have hok : (map_run 0 cs spare).satisfies (fun r => r.1) = true := by decide +kernel
  rw [hrun] at hok
  change ok = true at hok
  subst hok
  exact ⟨m', hrun, (hmap 0x400123 (by decide)).2 rfl _ rfl, (hmap 0x401000 (by decide)).2 rfl _ rfl⟩

end Pintos.mmu
