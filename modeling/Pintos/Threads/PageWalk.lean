/-
What `pml4e_walk` leaves behind.

A walk that adds tables is a descent: at each level the table below is there, or a page
is got, filled with zeros and linked in. `Creates` is that descent as a derivation, and
what a successful walk changes is read off it by induction. A walk that fails has freed
what it got, the last page first; the log of `logged.pml4e_walk` says so.
-/
import Pintos.Threads.AddressSpace
import Pintos.Lib.Traced
import Mathlib.Data.List.Count

set_option autoImplicit false

namespace Pintos.mmu

open Radix

/-! ## The walk with a log -/

/-- A page that is got, and a page that is freed. -/
inductive page_event
  | got (page : ℕ)
  | freed (page : ℕ)
  deriving DecidableEq, Repr

namespace logged

/-- `palloc_get_page`. -/
def palloc_get_page (m : memory) (user zero : Bool) : Traced page_event (Option ℕ × memory) :=
  match mmu.palloc_get_page m user zero with
  | (none, m) => return (none, m)
  | (some page, m) => do
      Traced.note (.got page)
      return (some page, m)

/-- `palloc_free_page`. -/
def palloc_free_page (m : memory) (page : ℕ) : Traced page_event memory := do
  let m ← Traced.lift (mmu.palloc_free_page m page)
  Traced.note (.freed page)
  return m

/-- `pgdir_walk`. -/
def pgdir_walk (m : memory) (pdp va : ℕ) (create : Bool) :
    Traced page_event (Option pte_ptr × memory) :=
  if (m.word pdp (PDX va)).present then return (some ((m.word pdp (PDX va)).page, PTX va), m)
  else if create then do
    let (page, m) ← palloc_get_page m false true
    match page with
    | none => return (none, m)
    | some new_page =>
        let m := m.set_entry pdp (PDX va) (entry.table new_page)
        return (some ((m.word pdp (PDX va)).page, PTX va), m)
  else return (none, m)

/-- One level of `pdpe_walk` and `pml4e_walk`. -/
def table_walk (next : memory → ℕ → Traced page_event (Option pte_ptr × memory)) (m : memory)
    (table : ℕ) (idx : Fin 512) (create : Bool) : Traced page_event (Option pte_ptr × memory) :=
  if (m.word table idx).present then next m (m.word table idx).page
  else if create then do
    let (page, m) ← palloc_get_page m false true
    match page with
    | none => return (none, m)
    | some new_page => do
        let m := m.set_entry table idx (entry.table new_page)
        let (pte, m) ← next m (m.word table idx).page
        match pte with
        | some pte => return (some pte, m)
        | none => do
            let m ← palloc_free_page m (m.word table idx).page
            return (none, m.set_entry table idx entry.zero)
  else return (none, m)

/-- `pdpe_walk`. -/
def pdpe_walk (m : memory) (pdpe va : ℕ) (create : Bool) :
    Traced page_event (Option pte_ptr × memory) :=
  table_walk (fun m pdp => pgdir_walk m pdp va create) m pdpe (PDPE va) create

/-- `pml4e_walk`. -/
def pml4e_walk (m : memory) (pml4e va : ℕ) (create : Bool) :
    Traced page_event (Option pte_ptr × memory) :=
  table_walk (fun m pdpe => pdpe_walk m pdpe va create) m pml4e (PML4 va) create

end logged

/-! ### The log adds nothing -/

section Result

variable {m : memory}

theorem logged_get_page_result (user zero : Bool) :
    (logged.palloc_get_page m user zero).result = .ok (palloc_get_page m user zero) := by
  unfold logged.palloc_get_page
  cases hget : palloc_get_page m user zero with
  | mk page m' =>
      cases page with
      | none => rfl
      | some page => rfl

theorem logged_free_page_result (page : ℕ) :
    (logged.palloc_free_page m page).result = palloc_free_page m page := by
  unfold logged.palloc_free_page
  rw [Traced.bind_result, Traced.lift_result]
  cases palloc_free_page m page with
  | ok m' => rfl
  | panic => rfl
  | undefined => rfl
  | diverge => rfl

theorem logged_table_walk_result {next : memory → ℕ → Outcome (Option pte_ptr × memory)}
    {next' : memory → ℕ → Traced page_event (Option pte_ptr × memory)}
    (hnext : ∀ m u, (next' m u).result = next m u) (table : ℕ) (idx : Fin 512) (create : Bool) :
    (logged.table_walk next' m table idx create).result = table_walk next m table idx create := by
  unfold logged.table_walk table_walk
  split_ifs
  · exact hnext m _
  · rw [Traced.bind_result, logged_get_page_result, Outcome.ok_bind]
    cases palloc_get_page m false true with
    | mk page m₁ =>
        cases page with
        | none => rfl
        | some page =>
            dsimp only
            rw [Traced.bind_result, hnext]
            congr 1
            funext r
            obtain ⟨pte, m₂⟩ := r
            cases pte with
            | some pte => rfl
            | none =>
                dsimp only
                rw [Traced.bind_result, logged_free_page_result]
                rfl
  · rfl

theorem logged_pgdir_walk_eq (pdp va : ℕ) (create : Bool) : logged.pgdir_walk m pdp va create
    = logged.table_walk (fun m t => return (some (t, PTX va), m)) m pdp (PDX va) create := by
  unfold logged.pgdir_walk logged.table_walk
  split_ifs
  · rfl
  · rfl
  · rfl

/-- **Without its log** the walk is `pml4e_walk`. -/
theorem logged_pml4e_walk_result (pml4 va : ℕ) (create : Bool) :
    (logged.pml4e_walk m pml4 va create).result = pml4e_walk m pml4 va create := by
  apply logged_table_walk_result
  intro m₁ t₁
  apply logged_table_walk_result
  intro m₂ t₂
  rw [logged_pgdir_walk_eq, pgdir_walk_eq]
  apply logged_table_walk_result
  intro m₃ t₃
  rfl

end Result

/-! ## Pages of the kernel pool -/

/-- A page of the kernel pool, and its bit. -/
def kernel_page (m : memory) (page : ℕ) (used : Bool) : Prop :=
  page_from_pool m.kernel_pool page = true ∧ m.kernel_pool.used_map page = used

/-- `palloc_get_page (PAL_ZERO)` took the page. -/
def memory.taken (m : memory) (page : ℕ) : memory :=
  ({ m with kernel_pool := m.kernel_pool.mark page true } : memory).set_page page
    fun _ => entry.zero

/-- The page is linked in as a table. -/
def memory.linked (m : memory) (table : ℕ) (idx : Fin 512) (page : ℕ) : memory :=
  (m.taken page).set_entry table idx (entry.table page)

section Pages

variable {m m' : memory} {t page u : ℕ} {i : Fin 512}

theorem palloc_get_page_table : palloc_get_page m false true = (none, m)
    ∨ ∃ page, kernel_page m page false ∧ palloc_get_page m false true = (some page,
      m.taken page) := by
  unfold palloc_get_page
  rw [if_neg (by simp)]
  cases hscan : m.kernel_pool.scan with
  | none => exact .inl rfl
  | some page => exact .inr ⟨page, scan_spec hscan, rfl⟩

theorem kernel_page_ne (hused : kernel_page m u true) (hfree : kernel_page m page false) :
    u ≠ page := by
  rintro rfl
  have hbit := hused.2
  rw [hfree.2] at hbit
  cases hbit

theorem kernel_page_linked (b : Bool) : kernel_page (m.linked t i page) u b
    ↔ page_from_pool m.kernel_pool u = true
      ∧ (if u = page then true else m.kernel_pool.used_map u) = b := by
  have hbit : (m.linked t i page).kernel_pool.used_map u
      = if u = page then true else m.kernel_pool.used_map u := by
    show (m.kernel_pool.mark page true).used_map u = _
    rw [pool.mark_used_map, Function.update_apply]
  unfold kernel_page
  rw [hbit]
  rfl

theorem set_entry_word_ne {j : Fin 512} (h : ¬ (u = t ∧ j = i)) (e : entry) :
    (m.set_entry t i e).word u j = m.word u j := by
  rw [memory.set_entry_word, Function.update_apply]
  split_ifs with hu
  · subst hu
    exact Function.update_of_ne (fun hj => h ⟨rfl, hj⟩) _ _
  · rfl

theorem taken_word (x : ℕ) :
    (m.taken page).word x = if x = page then fun _ => entry.zero else m.word x :=
  Function.update_apply _ _ _ _

/-- What a link changes. -/
theorem linked_word (x : ℕ) (j : Fin 512) : (m.linked t i page).word x j
    = if x = t ∧ j = i then entry.table page else if x = page then entry.zero else m.word x j := by
  unfold memory.linked
  by_cases hboth : x = t ∧ j = i
  · rw [if_pos hboth, hboth.1, hboth.2, memory.set_entry_word, Function.update_self,
      Function.update_self]
  · rw [if_neg hboth, set_entry_word_ne hboth, taken_word]
    split_ifs
    · rfl
    · rfl

theorem linked_child : child (m.linked t i page) t i = some page := by
  rw [child_eq_some, linked_word, if_pos ⟨rfl, rfl⟩]
  exact ⟨rfl, rfl⟩

/-- There is nothing below the new table. -/
theorem reach_linked_page (htp : t ≠ page) {js : List (Fin 512)} {x : ℕ}
    (hx : reach (child (m.linked t i page)) page js = some x) : js = [] ∧ x = page := by
  cases js with
  | nil => exact ⟨rfl, (Option.some.inj hx).symm⟩
  | cons k js =>
      have hnone : child (m.linked t i page) page k = none := by
        rw [child_eq_none, linked_word, if_neg (fun hboth => htp hboth.1.symm), if_pos rfl]
        rfl
      rw [reach_cons, hnone] at hx
      cases hx

end Pages

/-! ## Descents -/

/-- A walk from the table `t` along `is` finds the table `v`, and adds the pages `gots` on
the way. -/
inductive Creates : memory → ℕ → List (Fin 512) → List ℕ → memory → ℕ → Prop
  | found {m : memory} {t : ℕ} : Creates m t [] [] m t
  | present {m m' : memory} {t u v : ℕ} {i : Fin 512} {is : List (Fin 512)} {gots : List ℕ} :
      child m t i = some u → Creates m u is gots m' v → Creates m t (i :: is) gots m' v
  | created {m m' : memory} {t page v : ℕ} {i : Fin 512} {is : List (Fin 512)} {gots : List ℕ} :
      child m t i = none → kernel_page m page false →
      Creates (m.linked t i page) page is gots m' v → Creates m t (i :: is) (page :: gots) m' v

/-- The tables on a path are pages in use. -/
def Sound (m : memory) (t : ℕ) (is : List (Fin 512)) : Prop :=
  ∀ js i, js ++ [i] <+: is → ∀ u, reach (child m) t js = some u → kernel_page m u true

/-- Pages were got and freed again; an entry on the path that was not present is zero. -/
structure Undone (m : memory) (t : ℕ) (is : List (Fin 512)) (gots : List ℕ) (m' : memory) :
    Prop where
  kernel_pool : m'.kernel_pool = m.kernel_pool
  user_pool : m'.user_pool = m.user_pool
  base : m'.base_pml4 = m.base_pml4
  nodup : gots.Nodup
  free : ∀ page ∈ gots, kernel_page m page false
  word : ∀ page idx, page ∉ gots → m'.word page idx = m.word page idx
    ∨ m'.word page idx = entry.zero ∧ child m page idx = none
      ∧ ∃ js, js ++ [idx] <+: is ∧ reach (child m) t js = some page

theorem Undone.refl (m : memory) (t : ℕ) (is : List (Fin 512)) : Undone m t is [] m :=
  ⟨rfl, rfl, rfl, List.nodup_nil, by simp, fun _ _ _ => .inl rfl⟩

/-- How a walk towards the entry `d` of the table at the end of `is` ends: it found
nothing and freed what it got, or it found the table. -/
def Descends (m : memory) (t : ℕ) (is : List (Fin 512)) (d : Fin 512)
    (x : Traced page_event (Option pte_ptr × memory)) : Prop :=
  ∃ gots m', (x = ⟨gots.map .got ++ gots.reverse.map .freed, .ok (none, m')⟩
      ∧ Undone m t is gots m')
    ∨ ∃ v, x = ⟨gots.map .got, .ok (some (v, d), m')⟩ ∧ Creates m t is gots m' v

section Level

variable {m m' : memory} {t u page v : ℕ} {i d : Fin 512} {is : List (Fin 512)} {gots : List ℕ}

theorem Sound.head (h : Sound m t (i :: is)) : kernel_page m t true := h [] i ⟨is, rfl⟩ t rfl

theorem Sound.tail (h : Sound m t (i :: is)) (hu : child m t i = some u) : Sound m u is := by
  intro js j hjs x hx
  apply h (i :: js) j
  · rw [List.cons_append, List.cons_prefix_cons]
    exact ⟨rfl, hjs⟩
  · rw [reach_cons, hu, Option.bind_some, hx]

/-- The new table is in use and empty. -/
theorem Sound.linked (h : Sound m t (i :: is)) (hfree : kernel_page m page false) :
    Sound (m.linked t i page) page is := by
  intro js j hjs x hx
  obtain ⟨rfl, rfl⟩ := reach_linked_page (kernel_page_ne h.head hfree) hx
  rw [kernel_page_linked, if_pos rfl]
  exact ⟨hfree.1, rfl⟩

theorem Undone.cons (hu : Undone m u is gots m') (hchild : child m t i = some u) :
    Undone m t (i :: is) gots m' := by
  refine ⟨hu.kernel_pool, hu.user_pool, hu.base, hu.nodup, hu.free, fun x j hx => ?_⟩
  refine (hu.word x j hx).imp_right ?_
  rintro ⟨hzero, hnone, js, hjs, hreach⟩
  refine ⟨hzero, hnone, i :: js, ?_, ?_⟩
  · rw [List.cons_append, List.cons_prefix_cons]
    exact ⟨rfl, hjs⟩
  · rw [reach_cons, hchild, Option.bind_some, hreach]

/-- The table that was got in vain is freed, and its link is taken back. -/
theorem Undone.unlink (h : Sound m t (i :: is)) (hnone : child m t i = none)
    (hfree : kernel_page m page false) (hu : Undone (m.linked t i page) page is gots m') :
    ∃ m₂, palloc_free_page m' (m'.word t i).page = .ok m₂ ∧ (m'.word t i).page = page
      ∧ Undone m t (i :: is) (page :: gots) (m₂.set_entry t i entry.zero) := by
  have htused := h.head
  have htp := kernel_page_ne htused hfree
  have hnot : ∀ {x}, page_from_pool m.kernel_pool x = true →
      (if x = page then true else m.kernel_pool.used_map x) = true → x ∉ gots := by
    intro x hin hbit hmem
    have hclear := (kernel_page_linked false).mp (hu.free x hmem)
    rw [hbit] at hclear
    cases hclear.2
  have hpage_not : page ∉ gots := hnot hfree.1 (if_pos rfl)
  have ht_not : t ∉ gots := by
    apply hnot htused.1
    rw [if_neg htp]
    exact htused.2
  -- the entries of the other tables are as the link left them
  have hword : ∀ x j, x ≠ page → x ∉ gots → m'.word x j = (m.linked t i page).word x j := by
    intro x j hxp hx
    rcases hu.word x j hx with heq | ⟨-, -, js, -, hreach⟩
    · exact heq
    · exact absurd (reach_linked_page htp hreach).2 hxp
  have hpage : (m'.word t i).page = page := by
    rw [hword t i htp ht_not, linked_word, if_pos ⟨rfl, rfl⟩]
    rfl
  have hkp : m'.kernel_pool = m.kernel_pool.mark page true := hu.kernel_pool
  have hk : page_from_pool m'.kernel_pool page = true := by
    rw [hkp]
    exact hfree.1
  have hbit : m'.kernel_pool.used_map page = true := by
    rw [hkp, pool.mark_used_map, Function.update_self]
  refine ⟨{ m'.set_page page fun _ => entry.freed with
    kernel_pool := m'.kernel_pool.mark page false }, ?_, hpage, ?_⟩
  · rw [hpage]
    unfold palloc_free_page
    rw [if_pos hk, Outcome.assert_pos hbit]
    rfl
  · constructor
    case user_pool => exact hu.user_pool
    case base => exact hu.base
    case nodup => exact List.nodup_cons.mpr ⟨hpage_not, hu.nodup⟩
    case kernel_pool =>
      -- the bit was clear before
      show m'.kernel_pool.mark page false = m.kernel_pool
      rw [hkp]
      unfold pool.mark
      rw [Function.update_idem, ← hfree.2, Function.update_eq_self]
    case free =>
      intro x hx
      rcases List.mem_cons.mp hx with rfl | hmem
      · exact hfree
      · have hne : x ≠ page := by
          rintro rfl
          exact hpage_not hmem
        have hclear := (kernel_page_linked false).mp (hu.free x hmem)
        rw [if_neg hne] at hclear
        exact hclear
    case word =>
      intro x j hx
      rw [List.mem_cons, not_or] at hx
      have hstored : Function.update m'.word page (fun _ => entry.freed) x j = m'.word x j := by
        rw [Function.update_of_ne hx.1]
      by_cases hboth : x = t ∧ j = i
      · obtain ⟨rfl, rfl⟩ := hboth
        refine .inr ⟨?_, hnone, [], ⟨is, rfl⟩, rfl⟩
        rw [memory.set_entry_word, Function.update_self, Function.update_self]
      · left
        rw [set_entry_word_ne hboth]
        refine hstored.trans ?_
        rw [hword x j hx.1 hx.2, linked_word, if_neg hboth, if_neg hx.1]

/-- **One level.** -/
theorem table_walk_descends {next : memory → ℕ → Traced page_event (Option pte_ptr × memory)}
    (h : Sound m t (i :: is)) (create : Bool)
    (hnext : ∀ m u, Sound m u is → Descends m u is d (next m u)) :
    Descends m t (i :: is) d (logged.table_walk next m t i create) := by
  have hnothing : Descends m t (i :: is) d (return (none, m)) :=
    ⟨[], m, .inl ⟨rfl, .refl m t (i :: is)⟩⟩
  unfold logged.table_walk
  cases hpresent : (m.word t i).present with
  | true =>
      rw [if_pos rfl]
      have hu : child m t i = some (m.word t i).page := child_eq_some.mpr ⟨hpresent, rfl⟩
      obtain ⟨gots, m', hres⟩ := hnext m _ (h.tail hu)
      refine ⟨gots, m', ?_⟩
      rcases hres with ⟨heq, hundone⟩ | ⟨v, heq, hc⟩
      · exact .inl ⟨heq, hundone.cons hu⟩
      · exact .inr ⟨v, heq, .present hu hc⟩
  | false =>
      have hnone : child m t i = none := child_eq_none.mpr hpresent
      rw [if_neg (by simp)]
      cases create with
      | false =>
          rw [if_neg (by simp)]
          exact hnothing
      | true =>
          rw [if_pos rfl]
          unfold logged.palloc_get_page
          rcases palloc_get_page_table (m := m) with hfull | ⟨page, hfree, hget⟩
          · rw [hfull]
            exact hnothing
          · rw [hget]
            have hpage : ((m.linked t i page).word t i).page = page := by
              rw [linked_word, if_pos ⟨rfl, rfl⟩]
              rfl
            obtain ⟨gots, m', hres⟩ := hnext (m.linked t i page) page (h.linked hfree)
            refine ⟨page :: gots, ?_⟩
            rcases hres with ⟨heq, hu⟩ | ⟨v, heq, hc⟩
            · obtain ⟨m₂, hfreed, hsame, hu₂⟩ := hu.unlink h hnone hfree
              refine ⟨m₂.set_entry t i entry.zero, .inl ⟨?_, hu₂⟩⟩
              show (Traced.mk [page_event.got page] (.ok (some page, m.taken page)) >>= _) = _
              rw [Traced.mk_ok_bind]
              dsimp only
              rw [← memory.linked, hpage, heq, Traced.mk_ok_bind]
              dsimp only
              unfold logged.palloc_free_page
              rw [hfreed, hsame]
              show Traced.mk ([page_event.got page] ++ (gots.map .got ++ gots.reverse.map .freed
                ++ [.freed page])) _ = _
              rw [List.reverse_cons, List.map_append]
              simp
            · refine ⟨m', .inr ⟨v, ?_, .created hnone hfree hc⟩⟩
              show (Traced.mk [page_event.got page] (.ok (some page, m.taken page)) >>= _) = _
              rw [Traced.mk_ok_bind]
              dsimp only
              rw [← memory.linked, hpage, heq, Traced.mk_ok_bind]
              show Traced.mk ([page_event.got page] ++ (gots.map .got ++ [])) _ = _
              rw [List.append_nil]
              rfl

/-- **The walk** is a descent. -/
theorem pml4e_walk_descends {pml4 va : ℕ} (h : Sound m pml4 (path va)) (create : Bool) :
    Descends m pml4 (path va) (PTX va) (logged.pml4e_walk m pml4 va create) := by
  apply table_walk_descends h create
  intro m₁ t₁ h₁
  apply table_walk_descends h₁ create
  intro m₂ t₂ h₂
  rw [logged_pgdir_walk_eq]
  apply table_walk_descends h₂ create
  intro m₃ t₃ _
  exact ⟨[], m₃, .inr ⟨t₃, rfl, .found⟩⟩

end Level

/-! ## What a walk that succeeds changes -/

/-- An entry on the path that links in one of the new pages. -/
def Link (m' : memory) (t : ℕ) (is : List (Fin 512)) (gots : List ℕ) (page : ℕ) (idx : Fin 512) :
    Prop :=
  ∃ js u, js ++ [idx] <+: is ∧ reach (child m') t js = some page ∧ u ∈ gots
    ∧ m'.word page idx = entry.table u

/-- The pages `gots` were got, and linked in on the path from `t` to `v`. -/
structure Extended (m : memory) (t : ℕ) (is : List (Fin 512)) (gots : List ℕ) (m' : memory)
    (v : ℕ) : Prop where
  found : reach (child m') t is = some v
  nodup : gots.Nodup
  free : ∀ page ∈ gots, kernel_page m page false
  pages : ∀ page b, kernel_page m' page b ↔ page_from_pool m.kernel_pool page = true
    ∧ (m.kernel_pool.used_map page || decide (page ∈ gots)) = b
  user_pool : m'.user_pool = m.user_pool
  base : m'.base_pml4 = m.base_pml4
  old : ∀ page idx, page ∉ gots → m'.word page idx = m.word page idx
    ∨ child m page idx = none ∧ Link m' t is gots page idx
  new : ∀ page idx, page ∈ gots → m'.word page idx = entry.zero ∨ Link m' t is gots page idx

section Extended

variable {m m' : memory} {t u page v : ℕ} {i : Fin 512} {is : List (Fin 512)} {gots : List ℕ}

/-- What is present in a table that was there before stays. -/
theorem Extended.child_eq (h : Extended m u is gots m' v) (ht : t ∉ gots)
    (hu : child m t i = some u) : child m' t i = some u := by
  rcases h.old t i ht with heq | ⟨hnone, -⟩
  · unfold child
    rw [heq]
    exact hu
  · rw [hu] at hnone
    cases hnone

theorem Link.cons (hl : Link m' u is gots page i) {j : Fin 512} (hu : child m' t j = some u) :
    Link m' t (j :: is) gots page i := by
  obtain ⟨js, w, hpre, hreach, hw, hword⟩ := hl
  refine ⟨j :: js, w, ?_, ?_, hw, hword⟩
  · rw [List.cons_append, List.cons_prefix_cons]
    exact ⟨rfl, hpre⟩
  · rw [reach_cons, hu, Option.bind_some, hreach]

theorem Link.mono (hl : Link m' t is gots page i) (w : ℕ) : Link m' t is (w :: gots) page i := by
  obtain ⟨js, u, hpre, hreach, hu, hword⟩ := hl
  exact ⟨js, u, hpre, hreach, List.mem_cons_of_mem _ hu, hword⟩

/-- **By induction on the descent**: only links were added. -/
theorem Creates.extended (h : Sound m t is) (hc : Creates m t is gots m' v) :
    Extended m t is gots m' v := by
  induction hc with
  | found => 
      refine ⟨rfl, List.nodup_nil, by simp, ?_, rfl, rfl, fun _ _ _ => .inl rfl, by simp⟩
      intro page b
      simp [kernel_page]
  | @present m m' t u v i is gots hu hc ih =>
      have he := ih (h.tail hu)
      have ht : t ∉ gots := fun hmem => kernel_page_ne h.head (he.free t hmem) rfl
      have hchild := he.child_eq ht hu
      constructor
      case found => rw [reach_cons, hchild, Option.bind_some, he.found]
      case nodup => exact he.nodup
      case free => exact he.free
      case pages => exact he.pages
      case user_pool => exact he.user_pool
      case base => exact he.base
      case old =>
        intro x j hx
        refine (he.old x j hx).imp_right ?_
        rintro ⟨hnone, hl⟩
        exact ⟨hnone, hl.cons hchild⟩
      case new =>
        intro x j hx
        exact (he.new x j hx).imp_right fun hl => hl.cons hchild
  | @created m m' t page v i is gots hnone hfree hc ih =>
      have he := ih (h.linked hfree)
      have htp := kernel_page_ne h.head hfree
      -- the pages below are neither the table nor the new page
      have hclear : ∀ x ∈ gots, x ≠ page ∧ kernel_page m x false := by
        intro x hx
        obtain ⟨hin, hbit⟩ := (kernel_page_linked false).mp (he.free x hx)
        split_ifs at hbit with hne
        exact ⟨hne, hin, hbit⟩
      have ht : t ∉ gots := fun hmem => kernel_page_ne h.head (hclear t hmem).2 rfl
      have hpage : page ∉ gots := fun hmem => (hclear page hmem).1 rfl
      have hword : ∀ x j, (m.linked t i page).word x j = _ := fun x j => linked_word x j
      have hlink : child (m.linked t i page) t i = some page := linked_child
      have hchild := he.child_eq ht hlink
      have hnew : Link m' t (i :: is) (page :: gots) t i := by
        refine ⟨[], page, ⟨is, rfl⟩, rfl, List.mem_cons_self .., ?_⟩
        rcases he.old t i ht with heq | ⟨hnot, -⟩
        · rw [heq, hword, if_pos ⟨rfl, rfl⟩]
        · rw [hlink] at hnot
          cases hnot
      have hbelow : ∀ {x j}, Link m' page is gots x j → Link m' t (i :: is) (page :: gots) x j :=
        fun hl => (hl.cons hchild).mono page
      constructor
      case found => rw [reach_cons, hchild, Option.bind_some, he.found]
      case nodup => exact List.nodup_cons.mpr ⟨hpage, he.nodup⟩
      case user_pool => exact he.user_pool
      case base => exact he.base
      case free =>
        intro x hx
        rcases List.mem_cons.mp hx with rfl | hmem
        · exact hfree
        · exact (hclear x hmem).2
      case pages =>
        intro x b
        have hbit : (m.linked t i page).kernel_pool.used_map x
            = if x = page then true else m.kernel_pool.used_map x := by
          show (m.kernel_pool.mark page true).used_map x = _
          rw [pool.mark_used_map, Function.update_apply]
        have heq : ((if x = page then true else m.kernel_pool.used_map x) || decide (x ∈ gots))
            = (m.kernel_pool.used_map x || decide (x ∈ page :: gots)) := by
          by_cases hx : x = page
          · simp [hx]
          · simp [hx]
        rw [he.pages, hbit, heq]
        rfl
      case old =>
        intro x j hx
        rw [List.mem_cons, not_or] at hx
        rcases he.old x j hx.2 with heq | ⟨hnot, hl⟩
        · by_cases hboth : x = t ∧ j = i
          · obtain ⟨rfl, rfl⟩ := hboth
            exact .inr ⟨hnone, hnew⟩
          · left
            rw [heq, hword, if_neg hboth, if_neg hx.1]
        · right
          refine ⟨?_, hbelow hl⟩
          have hboth : ¬ (x = t ∧ j = i) := by
            rintro ⟨rfl, rfl⟩
            rw [hlink] at hnot
            cases hnot
          unfold child at hnot ⊢
          rw [hword, if_neg hboth, if_neg hx.1] at hnot
          exact hnot
      case new =>
        intro x j hx
        rcases List.mem_cons.mp hx with rfl | hmem
        · rcases he.old x j hpage with heq | ⟨-, hl⟩
          · left
            rw [heq, hword, if_neg (fun hboth => htp hboth.1.symm), if_pos rfl]
          · exact .inr (hbelow hl)
        · exact (he.new x j hmem).imp_right hbelow

end Extended

/-! ## No trace -/

/-- A place that user addresses pass through. -/
def UserPos (is : List (Fin 512)) : Prop := ∃ va, is_user_vaddr va ∧ is <+: path va

/-- A page map as `pml4_create` and the walk leave it: its user tables are pages in use, and
their entries that are not present are zero, but for those of the page tables. -/
structure UserMap (m : memory) (pml4 : ℕ) : Prop where
  used : ∀ {is t}, UserPos is → reach (child m) pml4 is = some t → kernel_page m t true
  zero : ∀ {is i t}, UserPos (is ++ [i]) → reach (child m) pml4 is = some t → child m t i = none →
    m.word t i = entry.zero

theorem UserMap.sound {m : memory} {pml4 va : ℕ} (h : UserMap m pml4) (hva : is_user_vaddr va) :
    Sound m pml4 (path va) := by
  intro js i hjs u hu
  exact h.used ⟨va, hva, (List.prefix_append js [i]).trans hjs⟩ hu

/-- Every page that was got is free again, and every other page is as it was. -/
structure Restored (m : memory) (log : List page_event) (m' : memory) : Prop where
  kernel_pool : m'.kernel_pool = m.kernel_pool
  user_pool : m'.user_pool = m.user_pool
  base : m'.base_pml4 = m.base_pml4
  free : ∀ page, .got page ∈ log → kernel_page m page false
  once : ∀ page, .got page ∈ log → log.count (.got page) = 1 ∧ log.count (.freed page) = 1
  word : ∀ page, .got page ∉ log → m'.word page = m.word page

/-- Entries that were not present are zero again, as they were. -/
theorem Undone.restored {m m' : memory} {pml4 va : ℕ} {gots : List ℕ} (hm : UserMap m pml4)
    (hva : is_user_vaddr va) (h : Undone m pml4 (path va) gots m') :
    Restored m (gots.map .got ++ gots.reverse.map .freed) m' := by
  have hmem : ∀ page, page_event.got page ∈ gots.map .got ++ gots.reverse.map .freed
      ↔ page ∈ gots := by
    intro page
    simp
  have hgot : Function.Injective page_event.got := fun _ _ heq => page_event.got.inj heq
  have hfreed : Function.Injective page_event.freed := fun _ _ heq => page_event.freed.inj heq
  refine ⟨h.kernel_pool, h.user_pool, h.base, ?_, ?_, ?_⟩
  · intro page hpage
    exact h.free page ((hmem page).mp hpage)
  · intro page hpage
    have hone : gots.count page = 1 :=
      List.count_eq_one_of_mem h.nodup ((hmem page).mp hpage)
    have hno_freed : (gots.map page_event.got).count (.freed page) = 0 :=
      List.count_eq_zero.mpr (by simp)
    have hno_got : (gots.reverse.map page_event.freed).count (.got page) = 0 :=
      List.count_eq_zero.mpr (by simp)
    constructor
    · rw [List.count_append, hno_got, List.count_map_of_injective _ _ hgot, hone]
    · rw [List.count_append, hno_freed, List.count_map_of_injective _ _ hfreed,
        List.count_reverse, hone]
  · intro page hpage
    funext idx
    rcases h.word page idx (fun hin => hpage ((hmem page).mpr hin)) with
      heq | ⟨hzero, hnone, js, hjs, hreach⟩
    · exact heq
    · rw [hzero, hm.zero ⟨va, hva, hjs⟩ hreach hnone]

section NoTrace

variable {m : memory} {pml4 va : ℕ}

/-- **A walk leaves no trace when it fails**, wherever on the way the kernel pool runs out:
every page it got is freed again, once, and all the others are as before. When it finds an
entry it has freed nothing, and what it changed are the links to the pages it got, on the
path of the address. That the tables form a tree is not needed. -/
theorem pml4e_walk_leaves_no_trace (h : UserMap m pml4) (hva : is_user_vaddr va) (create : Bool) :
    ∃ log pte m', logged.pml4e_walk m pml4 va create = ⟨log, .ok (pte, m')⟩
      ∧ pml4e_walk m pml4 va create = .ok (pte, m')
      ∧ (pte = none → Restored m log m')
      ∧ ∀ t idx, pte = some (t, idx) → idx = PTX va
        ∧ ∃ gots, log = gots.map .got ∧ Extended m pml4 (path va) gots m' t := by
  have hsound := h.sound hva
  have hresult := logged_pml4e_walk_result (m := m) pml4 va create
  obtain ⟨gots, m', ⟨heq, hu⟩ | ⟨v, heq, hc⟩⟩ := pml4e_walk_descends hsound create
  · rw [heq] at hresult
    refine ⟨_, _, _, heq, hresult.symm, fun _ => hu.restored h hva, ?_⟩
    intro t idx hnone
    cases hnone
  · rw [heq] at hresult
    refine ⟨_, _, _, heq, hresult.symm, ?_, ?_⟩
    · intro hsome
      cases hsome
    · intro t idx hsome
      cases hsome
      exact ⟨rfl, gots, rfl, hc.extended hsound⟩

end NoTrace

/-- Two free pages, where a walk from the empty page map 0 needs three. -/
def scarce : memory where
  kernel_pool := { base := 0, page_cnt := 3, used_map := fun page => decide (page = 0) }
  user_pool := { base := 3, page_cnt := 1, used_map := fun _ => false }
  word _ _ := entry.zero
  base_pml4 := 0

theorem scarce_user_map : UserMap scarce 0 := by
  have honly : ∀ {is t}, reach (child scarce) 0 is = some t → t = 0 := by
    intro is t ht
    cases is with
    | nil => exact (Option.some.inj ht).symm
    | cons i is => cases ht
  refine ⟨fun _ ht => ?_, fun _ _ _ => rfl⟩
  rw [honly ht]
  exact ⟨rfl, rfl⟩

/-- The pages 1 and 2 are got, and freed in the reverse order. -/
theorem scarce_walk_leaves_no_trace : ∃ m',
    logged.pml4e_walk scarce 0 0x400000 true
      = ⟨[.got 1, .got 2, .freed 2, .freed 1], .ok (none, m')⟩
    ∧ Restored scarce [.got 1, .got 2, .freed 2, .freed 1] m' := by
  have hva : is_user_vaddr 0x400000 := by decide
  obtain ⟨log, pte, m', heq, -, hnone, -⟩ :=
    pml4e_walk_leaves_no_trace scarce_user_map hva true
  have hlog : (logged.pml4e_walk scarce 0 0x400000 true).log
      = [.got 1, .got 2, .freed 2, .freed 1] := by decide +kernel
  have hpte : (logged.pml4e_walk scarce 0 0x400000 true).result.satisfies
      (fun r => decide (r.1 = none)) = true := by decide +kernel
  rw [heq] at hlog hpte
  change log = _ at hlog
  have hnull : pte = none := of_decide_eq_true hpte
  subst hlog hnull
  exact ⟨m', heq, hnone rfl⟩

end Pintos.mmu
