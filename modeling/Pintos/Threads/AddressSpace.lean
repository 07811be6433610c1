/-
Page maps do not see each other, as far as they do not share tables.

The tables below the first entry of a page map are its own; those below the other
entries are the kernel's, and the same for every page map. `Separate` says so: the
positions that belong to a page map or to `base_pml4` hold different pages of the
kernel pool. Every call keeps it, and a call on `p` touches no table of `q`.

User addresses reach a little further than the first entry: `KERN_BASE` is 64 MiB
above `2 ^ 39`. For the addresses in between, `pml4_set_page` stores into the
kernel's tables, and `pml4_destroy` does not look there.
-/
import Pintos.Threads.Mmu

set_option autoImplicit false

namespace Pintos.mmu

open Radix

/-! ## Positions -/

/-- What an entry points to. -/
def child (m : memory) (table : ℕ) (idx : Fin 512) : Option ℕ :=
  if (m.word table idx).present then some (m.word table idx).page else none

/-- The tables of the kernel, and those of a page map below its first entry. -/
def own (base : ℕ) (maps : List ℕ) (r : ℕ) (is : List (Fin 512)) : Prop :=
  is.length ≤ 3 ∧ (r = base ∨ r ∈ maps ∧ ∀ i ∈ is.head?, i = 0)

/-- The two pools have no page in common. -/
def Pools (m : memory) : Prop :=
  ∀ page, page_from_pool m.kernel_pool page = true → page_from_pool m.user_pool page = false

/-- The invariant. Between `2 ^ 39` and `KERN_BASE` nothing is mapped. -/
structure Separate (m : memory) (maps : List ℕ) : Prop where
  pools : Pools m
  forest : Forest (child m) (own m.base_pml4 maps)
  pool : ∀ {r is t}, own m.base_pml4 maps r is → reach (child m) r is = some t →
    page_from_pool m.kernel_pool t = true ∧ m.used t = true
  nodup : maps.Nodup
  base : m.base_pml4 ∉ maps
  empty : child m m.base_pml4 0 = none
  shared : ∀ {p a}, p ∈ maps → a ≠ 0 → child m p a = child m m.base_pml4 a
  gap : ∀ c : Fin 512, c.val < 32 → reach (child m) m.base_pml4 [1, 0, c] = none

section Own

variable {base r : ℕ} {maps : List ℕ} {is : List (Fin 512)} {i : Fin 512}

theorem own_parent (h : own base maps r (is ++ [i])) : own base maps r is := by
  obtain ⟨hlen, hr⟩ := h
  rw [List.length_append, List.length_singleton] at hlen
  refine ⟨by omega, hr.imp_right fun ⟨hmem, hhead⟩ => ⟨hmem, ?_⟩⟩
  intro j hj
  apply hhead
  rw [List.head?_append]
  rw [Option.mem_def] at hj ⊢
  rw [hj]
  rfl

theorem own_base (hlen : is.length ≤ 3) : own base maps base is := ⟨hlen, .inl rfl⟩

theorem own_root (h : r ∈ maps) : own base maps r [] :=
  ⟨Nat.zero_le _, .inr ⟨h, by simp⟩⟩

theorem own_first (h : r ∈ maps) (hlen : is.length ≤ 2) : own base maps r (0 :: is) := by
  refine ⟨?_, .inr ⟨h, by simp⟩⟩
  rw [List.length_cons]
  omega

end Own

/-! ## Pages -/

section Palloc

variable {m m' : memory} {page : ℕ}

theorem used_kernel (h : Pools m) (hk : page_from_pool m.kernel_pool page = true) :
    m.used page = m.kernel_pool.used_map page := by
  unfold memory.used
  rw [hk, h page hk]
  simp

/-- The bit of a page of the kernel pool is stored. -/
theorem used_mark (h : Pools m) (hk : page_from_pool m.kernel_pool page = true) (b : Bool) (x : ℕ) :
    ({ m with kernel_pool := m.kernel_pool.mark page b } : memory).used x
      = if x = page then b else m.used x := by
  by_cases hx : x = page
  · subst hx
    rw [if_pos rfl]
    have hk' : page_from_pool (m.kernel_pool.mark x b) x = true := hk
    show ((page_from_pool (m.kernel_pool.mark x b) x && (m.kernel_pool.mark x b).used_map x)
      || _) = b
    rw [hk', h x hk, pool.mark_used_map, Function.update_self]
    simp
  · rw [if_neg hx]
    show ((page_from_pool m.kernel_pool x && (m.kernel_pool.mark page b).used_map x) || _) = _
    rw [pool.mark_used_map, Function.update_of_ne hx]
    rfl

/-- A page of the kernel pool is got: it was free, and nothing else changes. -/
structure Got (m : memory) (page : ℕ) (m' : memory) : Prop where
  kernel : page_from_pool m.kernel_pool page = true
  free : m.used page = false
  kernel_pool : m'.kernel_pool = m.kernel_pool.mark page true
  user_pool : m'.user_pool = m.user_pool
  base : m'.base_pml4 = m.base_pml4
  word : ∀ x, x ≠ page → m'.word x = m.word x

theorem palloc_get_page_kernel (h : Pools m) (zero : Bool) :
    palloc_get_page m false zero = (none, m)
    ∨ ∃ page m', palloc_get_page m false zero = (some page, m') ∧ Got m page m'
      ∧ (zero = true → m'.word page = fun _ => entry.zero) := by
  unfold palloc_get_page
  rw [if_neg (by simp)]
  cases hscan : m.kernel_pool.scan with
  | none => exact .inl rfl
  | some page =>
      right
      obtain ⟨hk, hfree⟩ := scan_spec hscan
      have hused : m.used page = false := by rw [used_kernel h hk, hfree]
      cases zero with
      | false =>
          exact ⟨page, _, rfl, ⟨hk, hused, rfl, rfl, rfl, fun _ _ => rfl⟩, by simp⟩
      | true =>
          refine ⟨page, _, rfl, ⟨hk, hused, rfl, rfl, rfl, fun x hx => ?_⟩, fun _ => ?_⟩
          · exact Function.update_of_ne hx _ _
          · exact Function.update_self _ _ _

theorem Got.pools (h : Got m page m') (hp : Pools m) : Pools m' := by
  intro x hx
  rw [h.kernel_pool] at hx
  rw [h.user_pool]
  exact hp x hx

theorem Got.used (h : Got m page m') (hp : Pools m) (x : ℕ) :
    m'.used x = if x = page then true else m.used x := by
  have heq : m'.used x = ({ m with kernel_pool := m.kernel_pool.mark page true } :
      memory).used x := by
    unfold memory.used
    rw [h.kernel_pool, h.user_pool]
  rw [heq, used_mark hp h.kernel]

/-- Pages are freed: their bits are cleared, and no other page is touched. -/
structure Freed (m : memory) (l : List ℕ) (m' : memory) : Prop where
  pools : Pools m → Pools m'
  kernel : ∀ x, page_from_pool m'.kernel_pool x = page_from_pool m.kernel_pool x
  user : ∀ x, page_from_pool m'.user_pool x = page_from_pool m.user_pool x
  base : m'.base_pml4 = m.base_pml4
  used : ∀ x, m'.used x = (m.used x && decide (x ∉ l))
  word : ∀ x, x ∉ l → m'.word x = m.word x

theorem Freed.refl : Freed m [] m where
  pools h := h
  kernel _ := rfl
  user _ := rfl
  base := rfl
  used x := by simp
  word _ _ := rfl

theorem Freed.trans {m₁ m₂ : memory} {l₁ l₂ : List ℕ} (h₁ : Freed m l₁ m₁) (h₂ : Freed m₁ l₂ m₂) :
    Freed m (l₁ ++ l₂) m₂ where
  pools h := h₂.pools (h₁.pools h)
  kernel x := (h₂.kernel x).trans (h₁.kernel x)
  user x := (h₂.user x).trans (h₁.user x)
  base := h₂.base.trans h₁.base
  used x := by
    rw [h₂.used, h₁.used]
    by_cases hx : x ∈ l₁
    · simp [hx]
    · simp [hx]
  word x hx := by
    rw [List.mem_append, not_or] at hx
    rw [h₂.word x hx.2, h₁.word x hx.1]

/-- **`palloc_free_page`** returns exactly when the page is in use. -/
theorem palloc_free_page_spec (hp : Pools m) :
    (m.used page = true → ∃ m', palloc_free_page m page = .ok m')
    ∧ ∀ m', palloc_free_page m page = .ok m' → m.used page = true ∧ Freed m [page] m' := by
  unfold palloc_free_page
  by_cases hk : page_from_pool m.kernel_pool page = true
  · rw [if_pos hk, used_kernel hp hk]
    refine ⟨fun hused => ⟨_, by rw [Outcome.assert_pos hused]; rfl⟩, fun m' h => ?_⟩
    obtain ⟨_, hused, hret⟩ := Outcome.bind_eq_ok.mp h
    rw [Outcome.assert_eq_ok] at hused
    obtain rfl := Outcome.ok.inj hret
    refine ⟨hused, ?_⟩
    constructor
    case pools => exact fun h x hx => h x hx
    case kernel => exact fun x => rfl
    case user => exact fun x => rfl
    case base => rfl
    case word =>
      intro x hx
      exact Function.update_of_ne (by simpa using hx) _ _
    case used =>
      intro x
      refine (used_mark hp hk false x).trans ?_
      by_cases hx : x = page
      · simp [hx]
      · simp [hx]
  · rw [if_neg hk]
    by_cases hu : page_from_pool m.user_pool page = true
    · have hused_eq : m.used page = m.user_pool.used_map page := by
        unfold memory.used
        simp [hu, hk]
      rw [if_pos hu, hused_eq]
      refine ⟨fun hused => ⟨_, by rw [Outcome.assert_pos hused]; rfl⟩, fun m' h => ?_⟩
      obtain ⟨_, hused, hret⟩ := Outcome.bind_eq_ok.mp h
      rw [Outcome.assert_eq_ok] at hused
      obtain rfl := Outcome.ok.inj hret
      refine ⟨hused, ?_⟩
      constructor
      case pools => exact fun h x hx => h x hx
      case kernel => exact fun x => rfl
      case user => exact fun x => rfl
      case base => rfl
      case word =>
        intro x hx
        exact Function.update_of_ne (by simpa using hx) _ _
      case used =>
        intro x
        show ((page_from_pool m.kernel_pool x && m.kernel_pool.used_map x)
          || (page_from_pool m.user_pool x && (m.user_pool.mark page false).used_map x)) = _
        rw [pool.mark_used_map]
        unfold memory.used
        by_cases hx : x = page
        · subst hx
          have hk' : page_from_pool m.kernel_pool x = false := by simpa using hk
          simp [hk']
        · simp [hx]
    · rw [if_neg hu]
      refine ⟨fun hused => ?_, fun m' h => by cases h⟩
      unfold memory.used at hused
      simp [hk, hu] at hused

end Palloc

/-! ## Walking -/

section Walk

variable {m m' : memory} {maps : List ℕ}

/-- Tables are not written to, and stay in use. -/
theorem Separate.agree (h : Separate m maps) (hpools : Pools m')
    (hbase : m'.base_pml4 = m.base_pml4)
    (hchild : ∀ {r is t}, own m.base_pml4 maps r is → reach (child m) r is = some t →
      child m' t = child m t ∧ page_from_pool m'.kernel_pool t = true ∧ m'.used t = true) :
    Separate m' maps := by
  have hsame : ∀ {r is t}, own m.base_pml4 maps r is → reach (child m) r is = some t →
      child m' t = child m t := fun ho ht => (hchild ho ht).1
  have hroot : ∀ {p}, p ∈ maps → child m' p = child m p := fun hp => hsame (own_root hp) rfl
  have hkernel : child m' m.base_pml4 = child m m.base_pml4 :=
    hsame (own_base (Nat.zero_le _) : own m.base_pml4 maps m.base_pml4 []) rfl
  refine ⟨hpools, ?_, fun {r is t} ho ht => ?_, h.nodup, ?_, ?_, fun {p a} hp ha => ?_,
    fun c hc => ?_⟩
  · rw [hbase]
    exact h.forest.congr hsame
  · rw [hbase] at ho
    rw [h.forest.reach_eq hsame ho] at ht
    exact (hchild ho ht).2
  · rw [hbase]
    exact h.base
  · rw [hbase, hkernel]
    exact h.empty
  · rw [hbase, hroot hp, hkernel]
    exact h.shared hp ha
  · rw [hbase, h.forest.reach_eq hsame (own_base le_rfl)]
    exact h.gap c hc

/-- What a walk that fails leaves behind. -/
structure Unchanged (m : memory) (maps : List ℕ) (m' : memory) : Prop where
  kernel_pool : m'.kernel_pool = m.kernel_pool
  user_pool : m'.user_pool = m.user_pool
  base : m'.base_pml4 = m.base_pml4
  child : ∀ {r is t}, own m.base_pml4 maps r is → reach (child m) r is = some t →
    child m' t = child m t

theorem Unchanged.refl : Unchanged m maps m := ⟨rfl, rfl, rfl, fun _ _ => rfl⟩

theorem Unchanged.separate (hu : Unchanged m maps m') (h : Separate m maps) : Separate m' maps := by
  apply h.agree
  · intro x hx
    rw [hu.kernel_pool] at hx
    rw [hu.user_pool]
    exact h.pools x hx
  · exact hu.base
  · intro r is t ho ht
    refine ⟨hu.child ho ht, ?_⟩
    unfold memory.used
    rw [hu.kernel_pool, hu.user_pool]
    exact h.pool ho ht

/-- What a walk leaves behind: perhaps more tables, but nothing mapped by them. -/
structure Walked (m : memory) (maps : List ℕ) (m' : memory) : Prop where
  separate : Separate m' maps
  base : m'.base_pml4 = m.base_pml4
  leaf : ∀ {r is}, own m.base_pml4 maps r is → is.length = 3 → ∀ j,
    reach (child m') r (is ++ [j]) = reach (child m) r (is ++ [j])

theorem Walked.refl (h : Separate m maps) : Walked m maps m := ⟨h, rfl, fun _ _ _ => rfl⟩

theorem Walked.trans {m₁ m₂ : memory} (h₁ : Walked m maps m₁) (h₂ : Walked m₁ maps m₂) :
    Walked m maps m₂ where
  separate := h₂.separate
  base := h₂.base.trans h₁.base
  leaf ho hlen j := by
    have ho₁ := ho
    rw [← h₁.base] at ho₁
    rw [h₂.leaf ho₁ hlen j, h₁.leaf ho hlen j]

theorem Unchanged.walked (hu : Unchanged m maps m') (h : Separate m maps) : Walked m maps m' where
  separate := hu.separate h
  base := hu.base
  leaf ho _ j := h.forest.reach_concat_eq hu.child ho j

/-- Where a walk may add a table: below a page map's own entry, or, while there are no
page maps yet, below `base_pml4` where the kernel is mapped. -/
def linkable (base : ℕ) (maps : List ℕ) (r : ℕ) (is : List (Fin 512)) : Prop :=
  own base maps r is ∧ (r = base → maps = [] ∧ is ≠ [0] ∧ ∀ c : Fin 512, c.val < 32
    → is ≠ [1, 0, c])

section Link

variable {r t new_page : ℕ} {is : List (Fin 512)} {i : Fin 512}

theorem child_set_entry (table : ℕ) (idx : Fin 512) (e : entry) (u : ℕ) (j : Fin 512) :
    child (m.set_entry table idx e) u j
      = if u = table ∧ j = idx then (if e.present then some e.page else none) else child m u j := by
  unfold child
  rw [memory.set_entry_word]
  by_cases hu : u = table
  · subst hu
    rw [Function.update_self]
    by_cases hj : j = idx
    · subst hj
      simp
    · simp [hj]
  · simp [hu]

theorem Got.linked (hg : Got m new_page m') (hzero : m'.word new_page = fun _ => entry.zero)
    (h : Separate m maps) (ho : own m.base_pml4 maps r is) (ht : reach (child m) r is = some t)
    (hnone : child m t i = none) :
    Radix.Linked (child m) (own m.base_pml4 maps) r is i new_page
      (child (m'.set_entry t i (entry.table new_page))) := by
  have hfresh : ∀ {r' js}, own m.base_pml4 maps r' js → reach (child m) r' js ≠ some new_page := by
    intro r' js ho' hr
    have hused := (h.pool ho' hr).2
    rw [hg.free] at hused
    cases hused
  have htn : new_page ≠ t := by
    rintro rfl
    exact hfresh ho ht
  refine ⟨ho, ⟨t, ht, hnone, ?_, fun u j hne hu => ?_⟩, hfresh, fun j => ?_⟩
  · rw [child_set_entry, if_pos ⟨rfl, rfl⟩]
    rfl
  · rw [child_set_entry, if_neg (by tauto)]
    unfold child
    rw [hg.word u hu]
  · rw [child_set_entry, if_neg (fun hboth => htn hboth.1)]
    unfold child
    rw [hzero]
    rfl

/-- A new table is linked in. -/
theorem Got.separate (hg : Got m new_page m') (hzero : m'.word new_page = fun _ => entry.zero)
    (h : Separate m maps) (hlink : linkable m.base_pml4 maps r (is ++ [i]))
    (ht : reach (child m) r is = some t) (hnone : child m t i = none) :
    Walked m maps (m'.set_entry t i (entry.table new_page)) := by
  obtain ⟨hnew, hbase⟩ := hlink
  have ho := own_parent hnew
  have hl := hg.linked hzero h ho ht hnone
  have hb : (m'.set_entry t i (entry.table new_page)).base_pml4 = m.base_pml4 := hg.base
  have hpools : Pools (m'.set_entry t i (entry.table new_page)) := hg.pools h.pools
  -- a position that is not the new one
  have hkeep : ∀ {r' js}, own m.base_pml4 maps r' js → ¬ (r' = r ∧ js = is ++ [i]) →
      reach (child (m'.set_entry t i (entry.table new_page))) r' js = reach (child m) r' js := by
    intro r' js ho' hne
    rcases h.forest.reach_linked hl ho' with ⟨hr, hjs, -⟩ | ⟨-, hsame⟩
    · exact absurd ⟨hr, hjs⟩ hne
    · exact hsame
  refine ⟨⟨hpools, ?_, fun {r' js u} ho' hu => ?_, h.nodup, ?_, ?_, fun {p a} hp ha => ?_,
    fun c hc => ?_⟩, hb, fun {r' js} ho' hlen j => ?_⟩
  · rw [hb]
    exact h.forest.linked hl
  · rw [hb] at ho'
    have hk : ∀ x, page_from_pool (m'.set_entry t i (entry.table new_page)).kernel_pool x
        = page_from_pool m.kernel_pool x := by
      intro x
      show page_from_pool m'.kernel_pool x = _
      rw [hg.kernel_pool]
      rfl
    have hused : (m'.set_entry t i (entry.table new_page)).used u = if u = new_page then true
        else m.used u :=
      hg.used h.pools u
    rw [hk, hused]
    rcases h.forest.reach_linked hl ho' with ⟨-, -, hv⟩ | ⟨-, hsame⟩
    · rw [hv] at hu
      obtain rfl := Option.some.inj hu
      exact ⟨hg.kernel, if_pos rfl⟩
    · rw [hsame] at hu
      obtain ⟨hin, hu'⟩ := h.pool ho' hu
      refine ⟨hin, ?_⟩
      split_ifs
      · rfl
      · exact hu'
  · rw [hb]
    exact h.base
  · -- the first entry of `base_pml4` is not the one that was stored
    rw [hb]
    have hzero₀ : reach (child m) m.base_pml4 [0] = none := by
      rw [reach_cons, h.empty]
      rfl
    have hstill := hkeep (own_base (by simp) : own m.base_pml4 maps m.base_pml4 [0]) (by
      rintro ⟨hr, hjs⟩
      exact (hbase hr.symm).2.1 hjs.symm)
    rw [hzero₀, reach_cons] at hstill
    cases hc : child (m'.set_entry t i (entry.table new_page)) m.base_pml4 0 with
    | none => rfl
    | some u =>
        rw [hc] at hstill
        cases hstill
  · rw [hb]
    have hrb : r ≠ m.base_pml4 := by
      intro hr
      rw [(hbase hr).1] at hp
      cases hp
    have hreach : ∀ x, own m.base_pml4 maps x [] → ¬ (x = r ∧ is = [] ∧ a = i) →
        child (m'.set_entry t i (entry.table new_page)) x a = child m x a := by
      intro x hx hne
      rw [child_set_entry, if_neg ?_]
      · unfold child
        rw [hg.word x (fun hxn => hl.fresh hx (by rw [hxn, reach_nil]))]
      · rintro ⟨rfl, rfl⟩
        obtain ⟨rfl, hnil⟩ := h.forest.unique hx ho rfl ht
        exact hne ⟨rfl, hnil.symm, rfl⟩
    rw [hreach p (own_root hp) ?_, hreach _ (own_base (Nat.zero_le _)) ?_]
    · exact h.shared hp ha
    · rintro ⟨hr, -, -⟩
      exact hrb hr.symm
    · rintro ⟨rfl, rfl, rfl⟩
      rcases hnew.2 with hr | ⟨-, hhead⟩
      · exact hrb hr
      · exact ha (hhead a rfl)
  · rw [hb, hkeep (own_base le_rfl)]
    · exact h.gap c hc
    · rintro ⟨hr, hjs⟩
      exact (hbase hr.symm).2.2 c hc hjs.symm
  · refine h.forest.leaf_linked hl hnew ho' j fun hown => ?_
    have := hown.1
    rw [List.length_append, List.length_singleton] at this
    omega

end Link

/-- A walk towards the table at `(r, full)` ends: it fails and undoes what it did, or
it finds the table. -/
def Walks (m : memory) (maps : List ℕ) (r : ℕ) (full : List (Fin 512)) (d : Fin 512)
    (o : Outcome (Option pte_ptr × memory)) : Prop :=
  ∃ pte m', o = .ok (pte, m') ∧ ((pte = none ∧ Unchanged m maps m')
    ∨ ∃ t, pte = some (t, d) ∧ Walked m maps m' ∧ reach (child m') r full = some t)

section Level

variable {r t : ℕ} {is full : List (Fin 512)} {i d : Fin 512}
  {next : memory → ℕ → Outcome (Option pte_ptr × memory)}

theorem child_eq_some {u : ℕ} : child m t i = some u
    ↔ (m.word t i).present = true ∧ (m.word t i).page = u := by
  unfold child
  cases (m.word t i).present <;> simp

theorem child_eq_none : child m t i = none ↔ (m.word t i).present = false := by
  unfold child
  cases (m.word t i).present <;> simp

/-- The table that was allocated in vain is freed: everything is as before. -/
theorem Got.unlink {m₃ : memory} {new_page : ℕ} (hg : Got m new_page m')
    (hzero : m'.word new_page = fun _ => entry.zero) (h : Separate m maps)
    (ho : own m.base_pml4 maps r (is ++ [i])) (ht : reach (child m) r is = some t)
    (hnone : child m t i = none)
    (hu : Unchanged (m'.set_entry t i (entry.table new_page)) maps m₃) :
    ∃ m₄, palloc_free_page m₃ (m₃.word t i).page = .ok m₄
      ∧ Unchanged m maps (m₄.set_entry t i entry.zero) := by
  have hl := hg.linked hzero h (own_parent ho) ht hnone
  obtain ⟨m₂, hm₂⟩ : ∃ m₂, m₂ = m'.set_entry t i (entry.table new_page) := ⟨_, rfl⟩
  rw [← hm₂] at hl hu
  have hbase₂ : m₂.base_pml4 = m.base_pml4 := by rw [hm₂]; exact hg.base
  -- the other tables are where they were, and not the new one
  have hstay : ∀ {r' js u}, own m.base_pml4 maps r' js → reach (child m) r' js = some u →
      u ≠ new_page ∧ child m₃ u = child m₂ u := by
    intro r' js u ho' hu'
    have hne : u ≠ new_page := by
      rintro rfl
      exact hl.fresh ho' hu'
    refine ⟨hne, hu.child (by rw [hbase₂]; exact ho') ?_⟩
    rcases h.forest.reach_linked hl ho' with ⟨rfl, rfl, -⟩ | ⟨-, hsame⟩
    · rw [reach_concat, ht, Option.bind_some, hnone] at hu'
      cases hu'
    · rw [hsame, hu']
  have hpage : (m₃.word t i).page = new_page := by
    have hc : child m₃ t i = some new_page := by
      rw [(hstay (own_parent ho) ht).2, hm₂, child_set_entry, if_pos ⟨rfl, rfl⟩]
      rfl
    exact (child_eq_some.mp hc).2
  have hkp : m₃.kernel_pool = m.kernel_pool.mark new_page true := by
    rw [hu.kernel_pool, hm₂]
    exact hg.kernel_pool
  have hup : m₃.user_pool = m.user_pool := by
    rw [hu.user_pool, hm₂]
    exact hg.user_pool
  have hk₃ : page_from_pool m₃.kernel_pool new_page = true := by
    rw [hkp]
    exact hg.kernel
  have hused₃ : m₃.kernel_pool.used_map new_page = true := by
    rw [hkp, pool.mark_used_map, Function.update_self]
  rw [hpage]
  refine ⟨{ m₃.set_page new_page fun _ => entry.freed with
    kernel_pool := m₃.kernel_pool.mark new_page false }, ?_, ?_⟩
  · unfold palloc_free_page
    rw [if_pos hk₃, Outcome.assert_pos hused₃]
    rfl
  · refine ⟨?_, hup, ?_, fun {r' js u} ho' hu' => ?_⟩
    · -- the bit was clear before
      have hfree : m.kernel_pool.used_map new_page = false := by
        rw [← used_kernel h.pools hg.kernel]
        exact hg.free
      show m₃.kernel_pool.mark new_page false = m.kernel_pool
      rw [hkp]
      unfold pool.mark
      rw [Function.update_idem, ← hfree, Function.update_eq_self]
    · show m₃.base_pml4 = m.base_pml4
      rw [hu.base, hbase₂]
    · obtain ⟨hne, hkeep⟩ := hstay ho' hu'
      funext j
      rw [child_set_entry]
      by_cases hpos : u = t ∧ j = i
      · rw [if_pos hpos, hpos.1, hpos.2, hnone]
        rfl
      · rw [if_neg hpos]
        have hword : child { m₃.set_page new_page fun _ => entry.freed with
            kernel_pool := m₃.kernel_pool.mark new_page false } u j = child m₃ u j := by
          unfold child
          rw [memory.set_page_word, Function.update_of_ne hne]
        refine hword.trans ?_
        rw [hkeep, hm₂, child_set_entry, if_neg hpos]
        unfold child
        rw [hg.word u hne]

/-- One level. -/
theorem table_walk_walks (h : Separate m maps) (hlink : linkable m.base_pml4 maps r (is ++ [i]))
    (ht : reach (child m) r is = some t) (create : Bool)
    (hnext : ∀ m₂ u, Separate m₂ maps → m₂.base_pml4 = m.base_pml4 →
      reach (child m₂) r (is ++ [i]) = some u → Walks m₂ maps r full d (next m₂ u)) :
    Walks m maps r full d (table_walk next m t i create) := by
  unfold table_walk
  cases hpresent : (m.word t i).present with
  | true =>
      rw [if_pos rfl]
      apply hnext m _ h rfl
      rw [reach_concat, ht, Option.bind_some]
      exact child_eq_some.mpr ⟨hpresent, rfl⟩
  | false =>
      rw [if_neg (by simp)]
      have hnone : child m t i = none := child_eq_none.mpr hpresent
      cases create with
      | false => exact ⟨none, m, rfl, .inl ⟨rfl, .refl⟩⟩
      | true =>
          rw [if_pos rfl]
          rcases palloc_get_page_kernel h.pools true with hfull | ⟨new_page, m', hget, hg, hz⟩
          · rw [hfull]
            exact ⟨none, m, rfl, .inl ⟨rfl, .refl⟩⟩
          · rw [hget]
            have hzero := hz rfl
            have hw := hg.separate hzero h hlink ht hnone
            have hl := hg.linked hzero h (own_parent hlink.1) ht hnone
            have hnew : reach (child (m'.set_entry t i (entry.table new_page))) r (is ++ [i])
                = some new_page := by
              rcases h.forest.reach_linked hl hlink.1 with ⟨-, -, hv⟩ | ⟨hne, -⟩
              · exact hv
              · exact absurd ⟨rfl, rfl⟩ hne
            have hpage : ((m'.set_entry t i (entry.table new_page)).word t i).page = new_page := by
              rw [memory.set_entry_word, Function.update_self, Function.update_self]
              rfl
            obtain ⟨pte, m₃, hrun, hres⟩ := hnext _ new_page hw.separate hw.base hnew
            show Walks m maps r full d (next (m'.set_entry t i (entry.table new_page))
              ((m'.set_entry t i (entry.table new_page)).word t i).page >>= _)
            rw [hpage, hrun, Outcome.ok_bind]
            rcases hres with ⟨rfl, hu⟩ | ⟨v, rfl, hw₃, hv⟩
            · obtain ⟨m₄, hfree, hu₄⟩ := hg.unlink hzero h hlink.1 ht hnone hu
              refine ⟨none, _, ?_, .inl ⟨rfl, hu₄⟩⟩
              simp only [hfree, Outcome.ok_bind, Outcome.pure_eq]
            · exact ⟨some (v, d), m₃, rfl, .inr ⟨v, rfl, hw.trans hw₃, hv⟩⟩

end Level

theorem pgdir_walk_eq (pdp va : ℕ) (create : Bool) : pgdir_walk m pdp va create
    = table_walk (fun m t => .ok (some (t, PTX va), m)) m pdp (PDX va) create := by
  unfold pgdir_walk table_walk
  split_ifs
  · rfl
  · cases palloc_get_page m false true with
    | mk page m' =>
        cases page with
        | none => rfl
        | some page => rfl
  · rfl

/-- **A walk with `create`** towards a place where tables may be added. -/
theorem pml4e_walk_walks (h : Separate m maps) {r va : ℕ}
    (hlink : ∀ is, is ≠ [] → is <+: [PML4 va, PDPE va, PDX va] → linkable m.base_pml4 maps r is)
    (create : Bool) :
    Walks m maps r [PML4 va, PDPE va, PDX va] (PTX va) (pml4e_walk m r va create) := by
  have h₁ := hlink ([] ++ [PML4 va]) (by simp) ⟨[PDPE va, PDX va], rfl⟩
  have h₂ := hlink ([PML4 va] ++ [PDPE va]) (by simp) ⟨[PDX va], rfl⟩
  have h₃ := hlink ([PML4 va, PDPE va] ++ [PDX va]) (by simp) ⟨[], rfl⟩
  apply table_walk_walks h h₁ rfl create
  intro m₁ t₁ hs₁ hb₁ ht₁
  apply table_walk_walks hs₁ (by rw [hb₁]; exact h₂) ht₁ create
  intro m₂ t₂ hs₂ hb₂ ht₂
  show Walks _ _ _ _ _ (pgdir_walk m₂ t₂ va create)
  rw [pgdir_walk_eq]
  apply table_walk_walks hs₂ (by rw [hb₂, hb₁]; exact h₃) ht₂ create
  intro m₃ t₃ hs₃ _ ht₃
  exact ⟨_, m₃, rfl, .inr ⟨t₃, rfl, .refl hs₃, ht₃⟩⟩

/-- **A walk without `create`** looks the table up. -/
theorem pml4e_walk_lookup (r va : ℕ) : pml4e_walk m r va false
    = .ok ((reach (child m) r [PML4 va, PDPE va, PDX va]).map fun t => (t, PTX va), m) := by
  have hlevel : ∀ (next : memory → ℕ → Outcome (Option pte_ptr × memory)) (t : ℕ) (i : Fin 512)
      (is : List (Fin 512)),
      (∀ u, next m u = .ok ((reach (child m) u is).map fun t => (t, PTX va), m)) →
      table_walk next m t i false
        = .ok ((reach (child m) t (i :: is)).map fun t => (t, PTX va), m) := by
    intro next t i is hnext
    unfold table_walk
    cases hpresent : (m.word t i).present with
    | true =>
        rw [if_pos rfl, hnext, reach_cons, child_eq_some.mpr ⟨hpresent, rfl⟩, Option.bind_some]
    | false =>
        rw [if_neg (by simp), if_neg (by simp), reach_cons, child_eq_none.mpr hpresent]
        rfl
  apply hlevel
  intro u
  apply hlevel
  intro u
  show pgdir_walk m u va false = _
  rw [pgdir_walk_eq]
  apply hlevel
  intro u
  rfl

end Walk

/-! ## The calls on a page map -/

/-- The indices that lead to the page table of an address. -/
def path (va : ℕ) : List (Fin 512) := [PML4 va, PDPE va, PDX va]

section Address

variable {va : ℕ}

theorem PML4_low (h : va < 2 ^ 39) : PML4 va = 0 := by
  apply Fin.ext
  show va / 2 ^ 39 % 512 = 0
  omega

/-- User addresses that are not below the first entry are in the gap. -/
theorem user_vaddr_cases (h : is_user_vaddr va) :
    PML4 va = 0 ∨ ∃ c : Fin 512, c.val < 32 ∧ path va = [1, 0, c] := by
  unfold is_user_vaddr KERN_BASE at h
  by_cases hlow : va < 2 ^ 39
  · exact .inl (PML4_low hlow)
  · refine .inr ⟨PDX va, ?_, ?_⟩
    · show va / 2 ^ 21 % 512 < 32
      omega
    · have h₁ : PML4 va = 1 := by
        apply Fin.ext
        show va / 2 ^ 39 % 512 = 1
        omega
      have h₂ : PDPE va = 0 := by
        apply Fin.ext
        show va / 2 ^ 30 % 512 = 0
        omega
      rw [path, h₁, h₂]

/-- The kernel's addresses are neither. -/
theorem kernel_vaddr_path (hlow : KERN_BASE ≤ va) (hhigh : va < 2 ^ 48) :
    PML4 va ≠ 0 ∧ ∀ c : Fin 512, c.val < 32 → path va ≠ [1, 0, c] := by
  unfold KERN_BASE at hlow
  refine ⟨fun hzero => ?_, fun c hc heq => ?_⟩
  · have : va / 2 ^ 39 % 512 = 0 := congrArg Fin.val hzero
    omega
  · rw [path] at heq
    simp only [List.cons.injEq, and_true] at heq
    obtain ⟨h₁, h₂, rfl⟩ := heq
    have h₁ : va / 2 ^ 39 % 512 = 1 := congrArg Fin.val h₁
    have h₂ : va / 2 ^ 30 % 512 = 0 := congrArg Fin.val h₂
    change va / 2 ^ 21 % 512 < 32 at hc
    omega

end Address

section Calls

variable {m m' : memory} {maps : List ℕ} {p q va : ℕ}

theorem pml4_get_page_eq (h : is_user_vaddr va) : pml4_get_page m p va
    = .ok ((reach (child m) p (path va ++ [PTX va])).map
        fun page => KERN_BASE + page * PGSIZE + pg_ofs va) := by
  unfold pml4_get_page
  rw [Outcome.assert_pos h, Outcome.ok_bind, pml4e_walk_lookup, Outcome.ok_bind, reach_concat, path]
  cases reach (child m) p [PML4 va, PDPE va, PDX va] with
  | none => rfl
  | some t =>
      rw [Option.map_some, Option.bind_some]
      unfold child
      show (if _ then _ else _) = _
      split_ifs
      · rfl
      · rfl

/-- Storing below the tables: one entry of a page table. -/
theorem Walked.set_entry (hw : Walked m maps m') {r t : ℕ} {is : List (Fin 512)} {d : Fin 512}
    (ho : own m.base_pml4 maps r is) (hlen : is.length = 3) (ht : reach (child m') r is = some t)
    (e : entry) :
    Separate (m'.set_entry t d e) maps
    ∧ ∀ {r' js}, own m.base_pml4 maps r' js → js.length = 3 → ∀ j, ¬ (r' = r ∧ js = is ∧ j = d) →
      reach (child (m'.set_entry t d e)) r' (js ++ [j]) = reach (child m) r' (js ++ [j]) := by
  have h := hw.separate
  have ho' := ho
  rw [← hw.base] at ho'
  have hs : Stored (child m') (own m'.base_pml4 maps) r is d (child (m'.set_entry t d e)) := by
    refine ⟨ho', fun hout => ?_, t, ht, fun u j hne => ?_⟩
    · have := hout.1
      rw [List.length_append, List.length_singleton] at this
      omega
    · rw [child_set_entry, if_neg (by tauto)]
  -- the roots are not page tables
  have hroot : ∀ x, own m'.base_pml4 maps x [] →
      child (m'.set_entry t d e) x = child m' x := by
    intro x hx
    funext j
    rw [child_set_entry, if_neg]
    rintro ⟨rfl, -⟩
    obtain ⟨-, hnil⟩ := h.forest.unique hx ho' rfl ht
    rw [← hnil] at hlen
    cases hlen
  refine ⟨⟨h.pools, h.forest.stored hs, fun {r' js u} hown hu => ?_, h.nodup, h.base, ?_,
    fun {x a} hx ha => ?_, fun c hc => ?_⟩, fun {r' js} hown hjs j hne => ?_⟩
  · rw [h.forest.reach_stored hs hown] at hu
    exact h.pool hown hu
  · show child (m'.set_entry t d e) m'.base_pml4 0 = none
    rw [hroot _ (own_base (Nat.zero_le _))]
    exact h.empty
  · show child (m'.set_entry t d e) x a = child (m'.set_entry t d e) m'.base_pml4 a
    rw [hroot _ (own_base (Nat.zero_le _)), hroot _ (own_root hx)]
    exact h.shared hx ha
  · show reach (child (m'.set_entry t d e)) m'.base_pml4 [1, 0, c] = none
    rw [h.forest.reach_stored hs (own_base le_rfl)]
    exact h.gap c hc
  · have hown' := hown
    rw [← hw.base] at hown'
    rw [h.forest.leaf_stored hs hown' j hne, hw.leaf hown hjs]

/-- What a call on the page map `p` can do. -/
structure Local (m : memory) (maps : List ℕ) (p : ℕ) (m' : memory) : Prop where
  separate : Separate m' maps
  base : m'.base_pml4 = m.base_pml4
  others : ∀ {r is}, own m.base_pml4 maps r is → is.length = 3 → r ≠ p → ∀ j,
    reach (child m') r (is ++ [j]) = reach (child m) r (is ++ [j])

theorem Walked.local (hw : Walked m maps m') (p : ℕ) : Local m maps p m' :=
  ⟨hw.separate, hw.base, fun ho hlen _ j => hw.leaf ho hlen j⟩

theorem Walked.local_set_entry (hw : Walked m maps m') (hp : p ∈ maps) (hva : PML4 va = 0) {t : ℕ}
    (ht : reach (child m') p (path va) = some t) (e : entry) :
    Local m maps p (m'.set_entry t (PTX va) e) := by
  have ho : own m.base_pml4 maps p (path va) := by
    rw [path, hva]
    exact own_first hp le_rfl
  obtain ⟨hsep, hleaf⟩ := hw.set_entry ho rfl ht e
  exact ⟨hsep, hw.base, fun hown hlen hne j => hleaf hown hlen j fun hpos => hne hpos.1⟩

theorem Separate.reach_kernel (h : Separate m maps) (hp : p ∈ maps) {a : Fin 512} (ha : a ≠ 0)
    (is : List (Fin 512)) :
    reach (child m) p (a :: is) = reach (child m) m.base_pml4 (a :: is) := by
  rw [reach_cons, reach_cons, h.shared hp ha]

/-- In a page map, only addresses below the first entry have a page table. -/
theorem Separate.user_table (h : Separate m maps) (hp : p ∈ maps) (hva : is_user_vaddr va) {t : ℕ}
    (ht : reach (child m) p (path va) = some t) : PML4 va = 0 := by
  rcases user_vaddr_cases hva with hlow | ⟨c, hc, hpath⟩
  · exact hlow
  · rw [hpath, h.reach_kernel hp (by decide), h.gap c hc] at ht
    cases ht

/-- **Other page maps** translate as before. -/
theorem Local.get_page (hl : Local m maps p m') (h : Separate m maps) (hbase : m.base_pml4 ≠ p)
    (hq : q ∈ maps) (hne : q ≠ p) (hva : is_user_vaddr va) :
    pml4_get_page m' q va = pml4_get_page m q va := by
  rw [pml4_get_page_eq hva, pml4_get_page_eq hva]
  congr 2
  by_cases hzero : PML4 va = 0
  · apply hl.others
    · rw [path, hzero]
      exact own_first hq le_rfl
    · rfl
    · exact hne
  · show reach (child m') q (PML4 va :: ([PDPE va, PDX va] ++ [PTX va]))
      = reach (child m) q (PML4 va :: ([PDPE va, PDX va] ++ [PTX va]))
    rw [h.reach_kernel hq hzero, hl.separate.reach_kernel hq hzero, hl.base]
    exact hl.others (own_base le_rfl : own m.base_pml4 maps m.base_pml4 (path va)) rfl
      hbase (PTX va)

/-- **`pml4_set_page`**, below the first entry. -/
theorem pml4_set_page_local (h : Separate m maps) (hp : p ∈ maps) {upage kpage : ℕ}
    (hlow : upage < 2 ^ 39) {rw b : Bool} (hrun : pml4_set_page m p upage kpage rw = .ok (b, m')) :
    Local m maps p m' := by
  obtain ⟨_, -, hrun⟩ := Outcome.bind_eq_ok.mp hrun
  obtain ⟨_, -, hrun⟩ := Outcome.bind_eq_ok.mp hrun
  obtain ⟨_, -, hrun⟩ := Outcome.bind_eq_ok.mp hrun
  obtain ⟨_, -, hrun⟩ := Outcome.bind_eq_ok.mp hrun
  have hlink : ∀ is, is ≠ [] → is <+: [PML4 upage, PDPE upage, PDX upage] →
      linkable m.base_pml4 maps p is := by
    intro is hne hpre
    have hlen := hpre.length_le
    refine ⟨?_, fun hbase => absurd hp (hbase ▸ h.base)⟩
    obtain ⟨i, js, rfl⟩ := List.exists_cons_of_ne_nil hne
    rw [PML4_low hlow, List.cons_prefix_cons] at hpre
    rw [hpre.1]
    apply own_first hp
    simp only [List.length_cons, List.length_nil] at hlen
    omega
  obtain ⟨pte, m₁, hwalk, hres⟩ := pml4e_walk_walks h hlink true
  rw [hwalk, Outcome.ok_bind] at hrun
  rcases hres with ⟨rfl, hu⟩ | ⟨t, rfl, hw, ht⟩
  · cases Outcome.ok.inj hrun
    exact (hu.walked h).local p
  · obtain ⟨_, -, hret⟩ := Outcome.bind_eq_ok.mp hrun
    cases Outcome.ok.inj hret
    exact hw.local_set_entry hp (PML4_low hlow) ht _

/-- The calls that change an entry in place. -/
theorem update_pte_local (h : Separate m maps) (hp : p ∈ maps) (hva : is_user_vaddr va)
    {f : entry → entry} (hrun : update_pte f m p va = .ok m') : Local m maps p m' := by
  unfold update_pte at hrun
  rw [pml4e_walk_lookup, Outcome.ok_bind] at hrun
  cases ht : reach (child m) p [PML4 va, PDPE va, PDX va] with
  | none =>
      rw [ht] at hrun
      obtain rfl := Outcome.ok.inj hrun
      exact (Walked.refl h).local p
  | some t =>
      rw [ht] at hrun
      obtain rfl := Outcome.ok.inj hrun
      exact (Walked.refl h).local_set_entry hp (h.user_table hp hva ht) ht _

/-- **`pml4_clear_page`**. -/
theorem pml4_clear_page_local (h : Separate m maps) (hp : p ∈ maps)
    (hrun : pml4_clear_page m p va = .ok m') : Local m maps p m' := by
  obtain ⟨_, -, hrun⟩ := Outcome.bind_eq_ok.mp hrun
  obtain ⟨_, hva, hrun⟩ := Outcome.bind_eq_ok.mp hrun
  rw [Outcome.assert_eq_ok] at hva
  rw [pml4e_walk_lookup, Outcome.ok_bind] at hrun
  cases ht : reach (child m) p [PML4 va, PDPE va, PDX va] with
  | none =>
      rw [ht] at hrun
      obtain rfl := Outcome.ok.inj hrun
      exact (Walked.refl h).local p
  | some t =>
      rw [ht] at hrun
      change (if _ then _ else _) = _ at hrun
      split_ifs at hrun
      · obtain rfl := Outcome.ok.inj hrun
        exact (Walked.refl h).local_set_entry hp (h.user_table hp hva ht) ht _
      · obtain rfl := Outcome.ok.inj hrun
        exact (Walked.refl h).local p

end Calls

/-! ## Creating page maps -/

section Create

variable {m m' : memory} {maps : List ℕ} {p : ℕ}

/-- **`pml4_create`**: a copy of the top table, whose first entry is empty. -/
theorem pml4_create_separate (h : Separate m maps) :
    (∃ m', pml4_create m = (none, m') ∧ m' = m)
    ∨ ∃ p m', pml4_create m = (some p, m') ∧ Separate m' (p :: maps) := by
  unfold pml4_create
  rcases palloc_get_page_kernel h.pools false with hfull | ⟨p, m₁, hget, hg, -⟩
  · left
    rw [hfull]
    exact ⟨m, rfl, rfl⟩
  · right
    rw [hget]
    refine ⟨p, _, rfl, ?_⟩
    obtain ⟨m', hm'⟩ : ∃ m', m' = m₁.set_page p (m₁.word m₁.base_pml4) := ⟨_, rfl⟩
    rw [← hm']
    have hfresh : ∀ {r is t}, own m.base_pml4 maps r is
        → reach (child m) r is = some t → t ≠ p := by
      rintro r is t ho ht rfl
      have hused := (h.pool ho ht).2
      rw [hg.free] at hused
      cases hused
    have hbp : m.base_pml4 ≠ p := hfresh (own_base (Nat.zero_le 3) : own _ maps _ []) rfl
    have hbase : m'.base_pml4 = m.base_pml4 := by
      rw [hm']
      exact hg.base
    have hold : ∀ x, x ≠ p → child m' x = child m x := by
      intro x hx
      funext j
      unfold child
      rw [hm', memory.set_page_word, Function.update_of_ne hx, hg.word x hx]
    have hcopy : child m' p = child m m.base_pml4 := by
      funext j
      unfold child
      rw [hm', memory.set_page_word, Function.update_self, hg.base, hg.word _ hbp]
    have hkeep : ∀ {r is}, own m.base_pml4 maps r is →
        reach (child m') r is = reach (child m) r is :=
      fun ho => h.forest.reach_eq (fun ho ht => hold _ (hfresh ho ht)) ho
    -- the new page map has no table of its own yet
    have hnew : ∀ {is t}, (∀ i ∈ is.head?, i = 0) → reach (child m') p is = some t →
        is = [] ∧ t = p := by
      intro is t hhead ht
      cases is with
      | nil => exact ⟨rfl, (Option.some.inj ht).symm⟩
      | cons i is =>
          rw [reach_cons, hcopy, hhead i rfl, h.empty] at ht
          cases ht
    have hsplit : ∀ {r is}, own m'.base_pml4 (p :: maps) r is →
        (r = p ∧ ∀ i ∈ is.head?, i = 0) ∨ own m.base_pml4 maps r is := by
      rintro r is ⟨hlen, hr | ⟨hmem, hhead⟩⟩
      · exact .inr ⟨hlen, .inl (hr.trans hbase)⟩
      · rcases List.mem_cons.mp hmem with rfl | hmem
        · exact .inl ⟨rfl, hhead⟩
        · exact .inr ⟨hlen, .inr ⟨hmem, hhead⟩⟩
    have hkernel : ∀ x, page_from_pool m'.kernel_pool x = page_from_pool m.kernel_pool x := by
      intro x
      rw [hm']
      show page_from_pool m₁.kernel_pool x = _
      rw [hg.kernel_pool]
      rfl
    have hused : ∀ x, m'.used x = if x = p then true else m.used x := by
      intro x
      rw [hm']
      exact hg.used h.pools x
    refine ⟨?_, ⟨own_parent, ?_⟩, fun {r is t} ho ht => ?_, ?_, ?_, ?_, fun {x a} hx ha => ?_,
      fun c hc => ?_⟩
    · rw [hm']
      exact hg.pools h.pools
    · intro r is r' js t ho ho' ht ht'
      rcases hsplit ho with ⟨rfl, hhead⟩ | ho₁
      · obtain ⟨rfl, rfl⟩ := hnew hhead ht
        rcases hsplit ho' with ⟨rfl, hhead'⟩ | ho₂
        · exact ⟨rfl, (hnew hhead' ht').1.symm⟩
        · rw [hkeep ho₂] at ht'
          exact absurd rfl (hfresh ho₂ ht')
      · rw [hkeep ho₁] at ht
        rcases hsplit ho' with ⟨rfl, hhead'⟩ | ho₂
        · obtain ⟨-, rfl⟩ := hnew hhead' ht'
          exact absurd rfl (hfresh ho₁ ht)
        · rw [hkeep ho₂] at ht'
          exact h.forest.unique ho₁ ho₂ ht ht'
    · rw [hkernel, hused]
      rcases hsplit ho with ⟨rfl, hhead⟩ | ho₁
      · obtain ⟨-, rfl⟩ := hnew hhead ht
        exact ⟨hg.kernel, if_pos rfl⟩
      · rw [hkeep ho₁] at ht
        rw [if_neg (hfresh ho₁ ht)]
        exact h.pool ho₁ ht
    · refine List.nodup_cons.mpr ⟨fun hmem => ?_, h.nodup⟩
      exact hfresh (own_root hmem) rfl rfl
    · rw [hbase, List.mem_cons, not_or]
      exact ⟨hbp, h.base⟩
    · rw [hbase, hold _ hbp]
      exact h.empty
    · rw [hbase, hold _ hbp]
      rcases List.mem_cons.mp hx with rfl | hmem
      · rw [hcopy]
      · rw [hold x (hfresh (own_root hmem) rfl)]
        exact h.shared hmem ha
    · rw [hbase, hkeep (own_base le_rfl)]
      exact h.gap c hc

theorem map_page_separate {start text pa : ℕ} (h : Separate m [])
    (hpa : KERN_BASE + pa * PGSIZE < 2 ^ 48) (hrun : map_page start text m pa = .ok m') :
    Separate m' [] := by
  unfold map_page at hrun
  obtain ⟨va, hva⟩ : ∃ va, va = KERN_BASE + pa * PGSIZE := ⟨_, rfl⟩
  simp only [← hva] at hrun hpa
  obtain ⟨hhead, hgap⟩ := kernel_vaddr_path (by omega : KERN_BASE ≤ va) hpa
  have hlink : ∀ is, is ≠ [] → is <+: [PML4 va, PDPE va, PDX va] →
      linkable m.base_pml4 [] m.base_pml4 is := by
    intro is hne hpre
    refine ⟨own_base hpre.length_le, fun _ => ⟨rfl, ?_, fun c hc heq => ?_⟩⟩
    · rintro rfl
      rw [List.cons_prefix_cons] at hpre
      exact hhead hpre.1.symm
    · refine hgap c hc ?_
      rw [heq] at hpre
      exact (hpre.eq_of_length rfl).symm
  obtain ⟨pte, m₁, hwalk, hres⟩ := pml4e_walk_walks h hlink true
  rw [hwalk, Outcome.ok_bind] at hrun
  rcases hres with ⟨rfl, hu⟩ | ⟨t, rfl, hw, ht⟩
  · obtain rfl := Outcome.ok.inj hrun
    exact hu.separate h
  · obtain rfl := Outcome.ok.inj hrun
    exact (hw.set_entry (own_base le_rfl) rfl ht _).1

theorem map_pages_separate {start text : ℕ} {pas : List ℕ} (h : Separate m [])
    (hpas : ∀ pa ∈ pas, KERN_BASE + pa * PGSIZE < 2 ^ 48)
    (hrun : map_pages start text pas m = .ok m') : Separate m' [] := by
  induction pas generalizing m with
  | nil =>
      obtain rfl := Outcome.ok.inj hrun
      exact h
  | cons pa pas ih =>
      obtain ⟨m₁, hpage, hrun⟩ := Outcome.bind_eq_ok.mp hrun
      apply ih (map_page_separate h (hpas pa (List.mem_cons_self ..)) hpage) ?_ hrun
      intro pa' hpa'
      exact hpas pa' (List.mem_cons_of_mem _ hpa')

/-- **`paging_init`** maps the kernel, and nothing for the user. -/
theorem paging_init_separate {start text mem_end : ℕ} (hpools : Pools m)
    (hmem : KERN_BASE + mem_end ≤ 2 ^ 48) (hrun : paging_init m start text mem_end = .ok m') :
    Separate m' [] := by
  unfold paging_init at hrun
  rcases palloc_get_page_kernel hpools true with hfull | ⟨pml4, m₁, hget, hg, hz⟩
  · rw [hfull] at hrun
    cases hrun
  · rw [hget] at hrun
    have hzero := hz rfl
    have hchild : ∀ j, child { m₁ with base_pml4 := pml4 } pml4 j = none := by
      intro j
      unfold child
      show (if (m₁.word pml4 j).present then _ else _) = _
      rw [hzero]
      rfl
    -- there is one table, the top one
    have honly : ∀ {r is t}, own pml4 [] r is →
        reach (child { m₁ with base_pml4 := pml4 }) r is = some t → r = pml4 ∧ is = []
          ∧ t = pml4 := by
      rintro r is t ⟨-, rfl | ⟨hmem, -⟩⟩ ht
      · cases is with
        | nil => exact ⟨rfl, rfl, (Option.some.inj ht).symm⟩
        | cons i is =>
            rw [reach_cons, hchild] at ht
            cases ht
      · cases hmem
    have hsep : Separate { m₁ with base_pml4 := pml4 } [] := by
      refine ⟨hg.pools hpools, ⟨own_parent, ?_⟩, fun {r is t} ho ht => ?_, List.nodup_nil, by simp,
        hchild 0, fun {p a} hp _ => absurd hp List.not_mem_nil, fun c _ => ?_⟩
      · intro r is r' js t ho ho' ht ht'
        obtain ⟨rfl, rfl, -⟩ := honly ho ht
        obtain ⟨rfl, rfl, -⟩ := honly ho' ht'
        exact ⟨rfl, rfl⟩
      · obtain ⟨-, -, rfl⟩ := honly ho ht
        refine ⟨?_, ?_⟩
        · show page_from_pool m₁.kernel_pool t = true
          rw [hg.kernel_pool]
          exact hg.kernel
        · exact (hg.used hpools t).trans (if_pos rfl)
      · show reach _ pml4 [1, 0, c] = none
        rw [reach_cons, hchild]
        rfl
    apply map_pages_separate hsep ?_ hrun
    intro pa hpa
    rw [List.mem_range] at hpa
    unfold PGSIZE at hpa ⊢
    unfold KERN_BASE at hmem ⊢
    omega

end Create

/-! ## Destroying page maps -/

section Destroy

variable {m m' : memory} {maps : List ℕ} {p q n t : ℕ}

/-- Everything within `n` levels of a table, as `pml4_destroy` frees it. -/
def pages (m : memory) (n t : ℕ) : List ℕ := nodes (List.finRange 512) (child m) n t

/-- The destroy functions, by the levels below the table. -/
def level_destroy : ℕ → memory → ℕ → Outcome memory
  | 0 => palloc_free_page
  | n + 1 => table_destroy (level_destroy n)

theorem pdpe_destroy_eq : pdpe_destroy = level_destroy 3 := rfl

theorem Freed.child_eq {l : List ℕ} (hf : Freed m l m') {x : ℕ} (hx : x ∉ l) :
    child m' x = child m x := by
  funext j
  unfold child
  rw [hf.word x hx]

theorem Freed.pages_eq {l : List ℕ} (hf : Freed m l m') (hdisj : ∀ x ∈ pages m n t, x ∉ l) :
    pages m' n t = pages m n t :=
  nodes_congr fun x hx => hf.child_eq (hdisj x hx)

/-- The loop over the entries of a table. -/
theorem entries_destroy_freed
    (ih : ∀ {m t}, Pools m → (pages m n t).Nodup → (∀ x ∈ pages m n t, m.used x = true) →
      ∃ m', level_destroy n m t = .ok m' ∧ Freed m (pages m n t) m')
    {is : List (Fin 512)} (hp : Pools m)
    (hnd : (is.flatMap fun i => (child m t i).elim [] (pages m n)).Nodup)
    (hused : ∀ x ∈ is.flatMap fun i => (child m t i).elim [] (pages m n), m.used x = true)
    (ht : t ∉ is.flatMap fun i => (child m t i).elim [] (pages m n)) :
    ∃ m', entries_destroy (level_destroy n) t is m = .ok m'
      ∧ Freed m (is.flatMap fun i => (child m t i).elim [] (pages m n)) m' := by
  induction is generalizing m with
  | nil => exact ⟨m, rfl, .refl⟩
  | cons i is hrest =>
      rw [List.flatMap_cons] at hnd hused ht ⊢
      unfold entries_destroy
      cases hc : child m t i with
      | none =>
          rw [hc] at hnd hused ht
          rw [child_eq_none.mp hc, if_neg (by simp), Outcome.ok_bind]
          exact hrest hp hnd hused ht
      | some u =>
          rw [hc] at hnd hused ht
          obtain ⟨hpresent, hpage⟩ := child_eq_some.mp hc
          rw [hpresent, if_pos rfl, hpage]
          obtain ⟨hnd₁, hnd₂, hdisj⟩ := List.nodup_append.mp hnd
          rw [List.mem_append, not_or] at ht
          obtain ⟨m₁, hrun, hf⟩ := ih hp hnd₁ fun x hx => hused x (List.mem_append_left _ hx)
          rw [hrun, Outcome.ok_bind]
          -- what the other entries lead to was not touched
          have hsame : (is.flatMap fun j => (child m₁ t j).elim [] (pages m₁ n))
              = is.flatMap fun j => (child m t j).elim [] (pages m n) := by
            apply List.flatMap_congr
            intro j hj
            rw [hf.child_eq ht.1]
            cases hcj : child m t j with
            | none => rfl
            | some v =>
                apply hf.pages_eq
                intro x hx hx'
                refine hdisj x hx' x (List.mem_flatMap.mpr ⟨j, hj, ?_⟩) rfl
                rw [hcj]
                exact hx
          have hnext := hrest (m := m₁) (hf.pools hp)
          rw [hsame] at hnext
          obtain ⟨m₂, hrun₂, hf₂⟩ := hnext hnd₂ (fun x hx => by
            rw [hf.used, hused x (List.mem_append_right _ hx)]
            simp only [Bool.true_and, decide_eq_true_eq]
            exact fun hx' => hdisj x hx' x hx rfl) ht.2
          exact ⟨m₂, hrun₂, hf.trans hf₂⟩

/-- **Destroying a table** frees everything below it, if nothing is there twice. -/
theorem level_destroy_freed (hp : Pools m) (hnd : (pages m n t).Nodup)
    (hused : ∀ x ∈ pages m n t, m.used x = true) :
    ∃ m', level_destroy n m t = .ok m' ∧ Freed m (pages m n t) m' := by
  induction n generalizing m t with
  | zero =>
      have ht : m.used t = true := hused t (List.mem_singleton.mpr rfl)
      obtain ⟨m', hrun⟩ := (palloc_free_page_spec hp).1 ht
      exact ⟨m', hrun, ((palloc_free_page_spec hp).2 m' hrun).2⟩
  | succ n ih =>
      unfold pages at hnd hused ⊢
      rw [nodes] at hnd hused ⊢
      obtain ⟨hnd₁, -, hdisj⟩ := List.nodup_append.mp hnd
      have ht : t ∉ (List.finRange 512).flatMap fun i => (child m t i).elim [] (pages m n) :=
        fun hmem => hdisj t hmem t (List.mem_singleton.mpr rfl) rfl
      obtain ⟨m₁, hrun, hf⟩ := entries_destroy_freed ih hp hnd₁
        (fun x hx => hused x (List.mem_append_left _ hx)) ht
      have hused₁ : m₁.used t = true := by
        rw [hf.used, hused t (List.mem_append_right _ (List.mem_singleton.mpr rfl))]
        simpa using ht
      obtain ⟨m₂, hfree⟩ := (palloc_free_page_spec (hf.pools hp)).1 hused₁
      have hf₂ := ((palloc_free_page_spec (hf.pools hp)).2 m₂ hfree).2
      refine ⟨m₂, ?_, hf.trans hf₂⟩
      show (entries_destroy (level_destroy n) t (List.finRange 512) m >>= _) = _
      rw [hrun, Outcome.ok_bind, hfree]

end Destroy

/-- The page behind an address of the kernel. -/
def kva_page (kva : ℕ) : ℕ := (kva - KERN_BASE) / PGSIZE

/-- Every page that `p` maps was got from the user pool. -/
def UserPages (m : memory) (p : ℕ) : Prop :=
  ∀ {va k}, is_user_vaddr va → pg_ofs va = 0 → pml4_get_page m p va = .ok (some k) →
    page_from_pool m.user_pool (kva_page k) = true ∧ m.used (kva_page k) = true

/-- And `p` maps it once. -/
structure Owns (m : memory) (p : ℕ) : Prop where
  user : UserPages m p
  once : ∀ {va va' k}, is_user_vaddr va → is_user_vaddr va' → pg_ofs va = 0 → pg_ofs va' = 0 →
    pml4_get_page m p va = .ok (some k) → pml4_get_page m p va' = .ok (some k) → va = va'

/-- No page is mapped by `p` and by `q`. -/
def Apart (m : memory) (p q : ℕ) : Prop :=
  ∀ {va va' k}, is_user_vaddr va → is_user_vaddr va' → pg_ofs va = 0 → pg_ofs va' = 0 →
    pml4_get_page m p va = .ok (some k) → pml4_get_page m q va' ≠ .ok (some k)

section Frames

variable {m m' : memory} {maps : List ℕ} {p q : ℕ} {b c d : Fin 512} {f : ℕ}

theorem kva_page_eq : kva_page (KERN_BASE + f * PGSIZE + 0) = f := by
  unfold kva_page PGSIZE KERN_BASE
  omega

/-- The address with given indices below the first entry. -/
def va_of (b c d : Fin 512) : ℕ := b * 2 ^ 30 + c * 2 ^ 21 + d * 2 ^ 12

theorem va_of_spec (b c d : Fin 512) : is_user_vaddr (va_of b c d) ∧ pg_ofs (va_of b c d) = 0
    ∧ path (va_of b c d) ++ [PTX (va_of b c d)] = [0, b, c, d] := by
  have hb := b.isLt
  have hc := c.isLt
  have hd := d.isLt
  have hlow : va_of b c d < 2 ^ 39 := by
    unfold va_of
    omega
  have h₂ : PDPE (va_of b c d) = b := by
    apply Fin.ext
    show va_of b c d / 2 ^ 30 % 512 = b
    unfold va_of
    omega
  have h₃ : PDX (va_of b c d) = c := by
    apply Fin.ext
    show va_of b c d / 2 ^ 21 % 512 = c
    unfold va_of
    omega
  have h₄ : PTX (va_of b c d) = d := by
    apply Fin.ext
    show va_of b c d / 2 ^ 12 % 512 = d
    unfold va_of
    omega
  refine ⟨?_, ?_, ?_⟩
  · unfold is_user_vaddr KERN_BASE
    omega
  · unfold pg_ofs PGSIZE va_of
    omega
  · rw [path, PML4_low hlow, h₂, h₃, h₄]
    rfl

/-- A page below the first entry is mapped at its address. -/
theorem get_page_va_of (h : reach (child m) p [0, b, c, d] = some f) :
    pml4_get_page m p (va_of b c d) = .ok (some (KERN_BASE + f * PGSIZE + 0)) := by
  obtain ⟨huser, hofs, hpath⟩ := va_of_spec b c d
  rw [pml4_get_page_eq huser, hpath, h, hofs]
  rfl

/-- And what is mapped at a user address is below the first entry. -/
theorem Separate.get_page_low (h : Separate m maps) (hp : p ∈ maps) {va k : ℕ}
    (hva : is_user_vaddr va) (hofs : pg_ofs va = 0) (hget : pml4_get_page m p va = .ok (some k)) :
    k = KERN_BASE + kva_page k * PGSIZE + 0
    ∧ reach (child m) p [0, PDPE va, PDX va, PTX va] = some (kva_page k) := by
  rw [pml4_get_page_eq hva, hofs] at hget
  have hget := Outcome.ok.inj hget
  rw [Option.map_eq_some_iff] at hget
  obtain ⟨f, hf, rfl⟩ := hget
  rw [kva_page_eq]
  refine ⟨rfl, ?_⟩
  have ht := hf
  rw [reach_concat, Option.bind_eq_some_iff] at ht
  obtain ⟨t, ht, -⟩ := ht
  rw [path, h.user_table hp hva ht] at hf
  exact hf

theorem Owns.frame (ho : Owns m p) (h : reach (child m) p [0, b, c, d] = some f) :
    page_from_pool m.user_pool f = true ∧ m.used f = true := by
  obtain ⟨huser, hofs, -⟩ := va_of_spec b c d
  have := ho.user huser hofs (get_page_va_of h)
  rwa [kva_page_eq] at this

theorem Owns.path_eq (ho : Owns m p) {b' c' d' : Fin 512}
    (h : reach (child m) p [0, b, c, d] = some f)
    (h' : reach (child m) p [0, b', c', d'] = some f) : [b, c, d] = [b', c', d'] := by
  obtain ⟨huser, hofs, hpath⟩ := va_of_spec b c d
  obtain ⟨huser', hofs', hpath'⟩ := va_of_spec b' c' d'
  have hva := ho.once huser huser' hofs hofs' (get_page_va_of h) (get_page_va_of h')
  rw [hva, hpath'] at hpath
  exact (List.cons.inj hpath).2.symm

/-- What is below the first entry of `p`: its tables, and the pages it maps. -/
theorem below_cases (hp : p ∈ maps) {is : List (Fin 512)} (hlen : is.length ≤ 3) :
    own m.base_pml4 maps p (0 :: is) ∨ ∃ b c d, is = [b, c, d] := by
  by_cases hshort : is.length ≤ 2
  · exact .inl (own_first hp hshort)
  · right
    obtain ⟨b, c, d, rfl⟩ := List.length_eq_three.mp (by omega : is.length = 3)
    exact ⟨b, c, d, rfl⟩

/-- What `pml4_destroy` frees. -/
def map_pages_of (m : memory) (p : ℕ) : List ℕ := (child m p 0).elim [] (pages m 3) ++ [p]

theorem mem_map_pages_of {x : ℕ} : x ∈ map_pages_of m p
    ↔ x = p ∨ ∃ is, is.length ≤ 3 ∧ reach (child m) p (0 :: is) = some x := by
  unfold map_pages_of
  rw [List.mem_append, List.mem_singleton, or_comm]
  refine or_congr_right ?_
  simp only [reach_cons]
  cases child m p 0 with
  | none => simp
  | some u => exact mem_nodes List.mem_finRange

/-- Nothing is freed twice, and everything freed is in use. -/
theorem Separate.map_pages_of_ok (h : Separate m maps) (hp : p ∈ maps) (ho : Owns m p) :
    (map_pages_of m p).Nodup ∧ ∀ x ∈ map_pages_of m p, m.used x = true := by
  have huser : ∀ {is x}, own m.base_pml4 maps p is → reach (child m) p is = some x →
      ∀ {b c d}, reach (child m) p [0, b, c, d] ≠ some x := by
    intro is x hown hx b c d hx'
    have hk := (h.pool hown hx).1
    have hu := (ho.frame hx').1
    rw [h.pools x hk] at hu
    cases hu
  refine ⟨?_, fun x hx => ?_⟩
  · unfold map_pages_of
    rw [List.nodup_append]
    refine ⟨?_, List.nodup_singleton p, ?_⟩
    · cases hu : child m p 0 with
      | none => exact List.nodup_nil
      | some u =>
          apply nodup_nodes List.mem_finRange (List.nodup_finRange 512)
          intro is js x his hjs hx hx'
          have hx : reach (child m) p (0 :: is)
              = some x := by rw [reach_cons, hu, Option.bind_some, hx]
          have hx' : reach (child m) p (0 :: js) = some x := by
            rw [reach_cons, hu, Option.bind_some, hx']
          rcases below_cases hp his with hown | ⟨b, c, d, rfl⟩
          · rcases below_cases hp hjs with hown' | ⟨b, c, d, rfl⟩
            · exact (List.cons.inj (h.forest.unique hown hown' hx hx').2).2
            · exact absurd hx' (huser hown hx)
          · rcases below_cases hp hjs with hown' | ⟨b', c', d', rfl⟩
            · exact absurd hx (huser hown' hx')
            · exact ho.path_eq hx hx'
    · intro x hx y hy
      rw [List.mem_singleton.mp hy]
      rintro rfl
      cases hu : child m x 0 with
      | none =>
          rw [hu] at hx
          cases hx
      | some u =>
          rw [hu] at hx
          obtain ⟨is, hlen, his⟩ := (mem_nodes List.mem_finRange).mp hx
          have hx : reach (child m) x (0 :: is) = some x := by
            rw [reach_cons, hu, Option.bind_some, his]
          rcases below_cases hp hlen with hown | ⟨b, c, d, rfl⟩
          · have := (h.forest.unique hown (own_root hp) hx rfl).2
            cases this
          · exact huser (own_root hp) rfl hx
  · rcases mem_map_pages_of.mp hx with rfl | ⟨is, hlen, his⟩
    · exact (h.pool (own_root hp) rfl).2
    · rcases below_cases hp hlen with hown | ⟨b, c, d, rfl⟩
      · exact (h.pool hown his).2
      · exact (ho.frame his).2

/-- **`pml4_destroy`** returns, and frees the tables and the pages of `p`. -/
theorem pml4_destroy_freed (h : Separate m maps) (hp : p ∈ maps) (ho : Owns m p) :
    ∃ m', pml4_destroy m (some p) = .ok m' ∧ Freed m (map_pages_of m p) m' := by
  obtain ⟨hnd, hused⟩ := h.map_pages_of_ok hp ho
  have hbase : p ≠ m.base_pml4 := by
    rintro rfl
    exact h.base hp
  have hlast : ∀ {m₁ l}, Freed m l m₁ → l ++ [p] = map_pages_of m p →
      ∃ m', palloc_free_page m₁ p = .ok m' ∧ Freed m (map_pages_of m p) m' := by
    intro m₁ l hf hl
    rw [← hl] at hnd hused ⊢
    have hnot : p ∉ l := fun hmem =>
      (List.nodup_append.mp hnd).2.2 p hmem p (List.mem_singleton.mpr rfl) rfl
    have hused₁ : m₁.used p = true := by
      rw [hf.used, hused p (List.mem_append_right _ (List.mem_singleton.mpr rfl))]
      simpa using hnot
    obtain ⟨m', hfree⟩ := (palloc_free_page_spec (hf.pools h.pools)).1 hused₁
    exact ⟨m', hfree, hf.trans ((palloc_free_page_spec (hf.pools h.pools)).2 m' hfree).2⟩
  simp only [pml4_destroy, Outcome.assert_pos hbase, Outcome.ok_bind, pdpe_destroy_eq]
  cases hu : child m p 0 with
  | none =>
      rw [child_eq_none.mp hu, if_neg (by simp)]
      refine hlast Freed.refl ?_
      unfold map_pages_of
      rw [hu]
      rfl
  | some u =>
      obtain ⟨hpresent, hpage⟩ := child_eq_some.mp hu
      have hl : map_pages_of m p = pages m 3 u ++ [p] := by
        unfold map_pages_of
        rw [hu]
        rfl
      have hnd' := hnd
      rw [hl] at hnd'
      obtain ⟨m₁, hrun, hf⟩ := level_destroy_freed (t := u) h.pools (List.nodup_append.mp hnd').1
        fun x hx => hused x (by rw [hl]; exact List.mem_append_left _ hx)
      rw [hpresent, if_pos rfl, hpage, hrun, Outcome.ok_bind]
      exact hlast hf hl.symm

/-- Without one of the page maps. -/
theorem Separate.erase (h : Separate m maps) (p : ℕ) : Separate m (maps.erase p) := by
  have hsub : ∀ {r is}, own m.base_pml4 (maps.erase p) r is → own m.base_pml4 maps r is := by
    rintro r is ⟨hlen, hr⟩
    exact ⟨hlen, hr.imp_right fun ⟨hmem, hhead⟩ => ⟨List.mem_of_mem_erase hmem, hhead⟩⟩
  refine ⟨h.pools, h.forest.mono hsub own_parent, fun ho ht => h.pool (hsub ho) ht,
    h.nodup.erase p, fun hmem => h.base (List.mem_of_mem_erase hmem), h.empty,
    fun hmem ha => h.shared (List.mem_of_mem_erase hmem) ha, h.gap⟩

/-- **The others** do not notice. -/
theorem Freed.local (hf : Freed m (map_pages_of m p) m') (h : Separate m maps) (hp : p ∈ maps)
    (ho : Owns m p) : Local m (maps.erase p) p m' := by
  have he := h.erase p
  have hne : ∀ {r is}, own m.base_pml4 (maps.erase p) r is → r ≠ p ∧ own m.base_pml4 maps r is := by
    rintro r is ⟨hlen, rfl | ⟨hmem, hhead⟩⟩
    · exact ⟨fun heq => h.base (heq ▸ hp), own_base hlen⟩
    · refine ⟨?_, hlen, .inr ⟨List.mem_of_mem_erase hmem, hhead⟩⟩
      rintro rfl
      exact h.nodup.not_mem_erase hmem
  have hkeep : ∀ {r is t}, own m.base_pml4 (maps.erase p) r is → reach (child m) r is = some t →
      t ∉ map_pages_of m p := by
    intro r is t hown ht hmem
    obtain ⟨hrp, hown'⟩ := hne hown
    rcases mem_map_pages_of.mp hmem with rfl | ⟨js, hlen, hjs⟩
    · exact hrp (h.forest.unique hown' (own_root hp) ht rfl).1
    · rcases below_cases hp hlen with hownp | ⟨b, c, d, rfl⟩
      · exact hrp (h.forest.unique hown' hownp ht hjs).1
      · have hu := (ho.frame hjs).1
        rw [h.pools t (h.pool hown' ht).1] at hu
        cases hu
  refine ⟨?_, hf.base, fun hown _ _ j => ?_⟩
  · apply he.agree (hf.pools h.pools) hf.base
    intro r is t hown ht
    obtain ⟨hk, hused⟩ := he.pool hown ht
    refine ⟨hf.child_eq (hkeep hown ht), by rw [hf.kernel, hk], ?_⟩
    rw [hf.used, hused]
    simpa using hkeep hown ht
  · exact he.forest.reach_concat_eq (fun ho ht => hf.child_eq (hkeep ho ht)) hown j

end Frames

/-! ## Runs -/

/-- A page that some page map or the kernel uses as a table. -/
def is_table (m : memory) (maps : List ℕ) (page : ℕ) : Prop :=
  ∃ r is, own m.base_pml4 maps r is ∧ reach (child m) r is = some page

/-- A call on the page map `p` for user addresses, which maps pages below the first
entry only. -/
def mmu_call.Edits (p : ℕ) : mmu_call → Prop
  | .set_page pml4 upage _ _ => pml4 = p ∧ upage < 2 ^ 39
  | .clear_page pml4 _ => pml4 = p
  | .set_dirty pml4 vpage _ => pml4 = p ∧ is_user_vaddr vpage
  | .set_accessed pml4 vpage _ => pml4 = p ∧ is_user_vaddr vpage
  | _ => False

/-- Calls as they are meant: on page maps that exist, below the first entry; only a
page map that owns what it maps is destroyed, and tables are not freed behind its
back. -/
def mmu_call.Ok (s : mmu_state) (c : mmu_call) : Prop :=
  match c with
  | .create => True
  | .destroy pml4 => pml4 ∈ s.maps ∧ Owns s.mem pml4
  | .get_page _ _ => True
  | .free_page page => ¬ is_table s.mem s.maps page
  | c => ∃ p ∈ s.maps, c.Edits p

/-- Such a run. -/
def RunOk : List mmu_call → mmu_state → Prop
  | [], _ => True
  | c :: cs, s => c.Ok s ∧ ∀ s', mmu_step s c = .ok s' → RunOk cs s'

section Runs

variable {s s' : mmu_state} {p q : ℕ}

/-- A call on `p` is local to `p`. -/
theorem mmu_step_local {c : mmu_call} (h : Separate s.mem s.maps) (hp : p ∈ s.maps) (hc : c.Edits p)
    (hrun : mmu_step s c = .ok s') : s'.maps = s.maps ∧ Local s.mem s.maps p s'.mem := by
  cases c with
  | create => exact hc.elim
  | destroy pml4 => exact hc.elim
  | get_page user zero => exact hc.elim
  | free_page page => exact hc.elim
  | set_page pml4 upage kpage rw =>
      obtain ⟨rfl, hlow⟩ := hc
      obtain ⟨⟨b, m⟩, hset, hret⟩ := Outcome.bind_eq_ok.mp hrun
      obtain rfl := Outcome.ok.inj hret
      exact ⟨rfl, pml4_set_page_local h hp hlow hset⟩
  | clear_page pml4 upage =>
      obtain rfl := hc
      obtain ⟨m, hclear, hret⟩ := Outcome.bind_eq_ok.mp hrun
      obtain rfl := Outcome.ok.inj hret
      exact ⟨rfl, pml4_clear_page_local h hp hclear⟩
  | set_dirty pml4 vpage dirty =>
      obtain ⟨rfl, hva⟩ := hc
      obtain ⟨m, hset, hret⟩ := Outcome.bind_eq_ok.mp hrun
      obtain rfl := Outcome.ok.inj hret
      exact ⟨rfl, update_pte_local h hp hva hset⟩
  | set_accessed pml4 vpage accessed =>
      obtain ⟨rfl, hva⟩ := hc
      obtain ⟨m, hset, hret⟩ := Outcome.bind_eq_ok.mp hrun
      obtain rfl := Outcome.ok.inj hret
      exact ⟨rfl, update_pte_local h hp hva hset⟩

/-- Pages that are got or freed for other purposes are not tables. -/
theorem palloc_get_page_separate {m : memory} {maps : List ℕ} (h : Separate m maps)
    (user zero : Bool) : Separate (palloc_get_page m user zero).2 maps := by
  cases user with
  | false =>
      rcases palloc_get_page_kernel h.pools zero with hfull | ⟨page, m', hget, hg, -⟩
      · rw [hfull]
        exact h
      · rw [hget]
        apply h.agree (hg.pools h.pools) hg.base
        intro r is t ho ht
        obtain ⟨hk, hused⟩ := h.pool ho ht
        have hne : t ≠ page := by
          rintro rfl
          rw [hg.free] at hused
          cases hused
        refine ⟨?_, ?_, ?_⟩
        · funext j
          unfold child
          rw [hg.word t hne]
        · rw [hg.kernel_pool]
          exact hk
        · rw [hg.used h.pools, if_neg hne, hused]
  | true =>
      unfold palloc_get_page
      rw [if_pos rfl]
      cases hscan : m.user_pool.scan with
      | none => exact h
      | some page =>
          obtain ⟨hu, -⟩ := scan_spec hscan
          have hpools : Pools { m with user_pool := m.user_pool.mark page true } := h.pools
          have hmark : Separate { m with user_pool := m.user_pool.mark page true } maps := by
            apply h.agree hpools rfl
            intro r is t ho ht
            obtain ⟨hk, hused⟩ := h.pool ho ht
            refine ⟨rfl, hk, ?_⟩
            rw [used_kernel hpools hk]
            rw [used_kernel h.pools hk] at hused
            exact hused
          cases zero with
          | false => exact hmark
          | true =>
              have hzero : Pools (({ m with user_pool := m.user_pool.mark page true } : memory).set_page page
                fun _ => entry.zero) := h.pools
              apply hmark.agree hzero rfl
              intro r is t ho ht
              obtain ⟨hk, hused⟩ := hmark.pool ho ht
              refine ⟨?_, hk, hused⟩
              have hne : t ≠ page := by
                rintro rfl
                have hnot := h.pools t hk
                rw [hu] at hnot
                cases hnot
              funext j
              unfold child
              rw [memory.set_page_word, Function.update_of_ne hne]

theorem palloc_free_page_separate {m m' : memory} {maps : List ℕ} {page : ℕ} (h : Separate m maps)
    (hpage : ¬ is_table m maps page) (hrun : palloc_free_page m page = .ok m') :
    Separate m' maps := by
  obtain ⟨-, hf⟩ := (palloc_free_page_spec h.pools).2 m' hrun
  apply h.agree (hf.pools h.pools) hf.base
  intro r is t ho ht
  obtain ⟨hk, hused⟩ := h.pool ho ht
  have hne : t ∉ [page] := by
    intro hmem
    obtain rfl := List.mem_singleton.mp hmem
    exact hpage ⟨r, is, ho, ht⟩
  refine ⟨hf.child_eq hne, by rw [hf.kernel, hk], ?_⟩
  rw [hf.used, hused]
  simpa using hne

/-- **One call** keeps the page maps separate. -/
theorem mmu_step_separate {c : mmu_call} (h : Separate s.mem s.maps) (hc : c.Ok s)
    (hrun : mmu_step s c = .ok s') : Separate s'.mem s'.maps := by
  have hedit : (∃ p ∈ s.maps, c.Edits p) → Separate s'.mem s'.maps := by
    rintro ⟨p, hp, hedits⟩
    obtain ⟨hmaps, hlocal⟩ := mmu_step_local h hp hedits hrun
    rw [hmaps]
    exact hlocal.separate
  cases c with
  | create =>
      rcases pml4_create_separate h with ⟨m', hcreate, rfl⟩ | ⟨p, m', hcreate, hsep⟩
      · unfold mmu_step at hrun
        simp only [hcreate] at hrun
        obtain rfl := Outcome.ok.inj hrun
        exact h
      · unfold mmu_step at hrun
        simp only [hcreate] at hrun
        obtain rfl := Outcome.ok.inj hrun
        exact hsep
  | destroy pml4 =>
      obtain ⟨hp, ho⟩ := hc
      obtain ⟨m', hdestroy, hf⟩ := pml4_destroy_freed h hp ho
      unfold mmu_step at hrun
      simp only [hdestroy, Outcome.ok_bind, Outcome.pure_eq] at hrun
      obtain rfl := Outcome.ok.inj hrun
      exact (hf.local h hp ho).separate
  | get_page user zero =>
      obtain rfl := Outcome.ok.inj hrun
      exact palloc_get_page_separate h user zero
  | free_page page =>
      obtain ⟨m, hfree, hret⟩ := Outcome.bind_eq_ok.mp hrun
      obtain rfl := Outcome.ok.inj hret
      exact palloc_free_page_separate h hc hfree
  | set_page pml4 upage kpage rw => exact hedit hc
  | clear_page pml4 upage => exact hedit hc
  | set_dirty pml4 vpage dirty => exact hedit hc
  | set_accessed pml4 vpage accessed => exact hedit hc

theorem mmu_run_separate {cs : List mmu_call} (h : Separate s.mem s.maps) (hok : RunOk cs s)
    (hrun : mmu_run cs s = .ok s') : Separate s'.mem s'.maps := by
  induction cs generalizing s with
  | nil =>
      obtain rfl := Outcome.ok.inj hrun
      exact h
  | cons c cs ih =>
      obtain ⟨s₁, hstep, hrun⟩ := Outcome.bind_eq_ok.mp hrun
      exact ih (mmu_step_separate h hok.1 hstep) (hok.2 s₁ hstep) hrun

/-- **Any sequence of calls on `p`** leaves the translation of `q` as it is. -/
theorem mmu_run_get_page {ops : List mmu_call} (h : Separate s.mem s.maps) (hp : p ∈ s.maps)
    (hq : q ∈ s.maps) (hne : q ≠ p) (hops : ∀ c ∈ ops, c.Edits p) (hrun : mmu_run ops s = .ok s')
    {va : ℕ} (hva : is_user_vaddr va) : pml4_get_page s'.mem q va = pml4_get_page s.mem q va := by
  induction ops generalizing s with
  | nil =>
      obtain rfl := Outcome.ok.inj hrun
      rfl
  | cons c ops ih =>
      obtain ⟨s₁, hstep, hrun⟩ := Outcome.bind_eq_ok.mp hrun
      obtain ⟨hmaps, hlocal⟩ := mmu_step_local h hp (hops c (List.mem_cons_self ..)) hstep
      have hsep := hlocal.separate
      rw [← hmaps] at hsep hp hq
      have hrest : pml4_get_page s'.mem q va = pml4_get_page s₁.mem q va := by
        apply ih hsep hp hq ?_ hrun
        intro c' hc'
        exact hops c' (List.mem_cons_of_mem _ hc')
      rw [hmaps] at hp hq
      have hbase : s.mem.base_pml4 ≠ p := by
        rintro rfl
        exact h.base hp
      rw [hrest, hlocal.get_page h hbase hq hne hva]

/-- **Address spaces are disjoint**, where pages are mapped below the first entry of
the page maps only. In every run from `paging_init` on, calls on a page map do not
change what another one translates to; and the page map is destroyed with all the
pages it maps and none of the other's, if it owns its pages and shares none. -/
theorem address_spaces_disjoint {m₀ m : memory} {start text mem_end : ℕ} (hpools : Pools m₀)
    (hmem : KERN_BASE + mem_end ≤ 2 ^ 48) (hboot : paging_init m₀ start text mem_end = .ok m)
    {cs : List mmu_call} {s : mmu_state} (hok : RunOk cs ⟨m, []⟩)
    (hrun : mmu_run cs ⟨m, []⟩ = .ok s)
    {p q : ℕ} (hp : p ∈ s.maps) (hq : q ∈ s.maps) (hne : q ≠ p) :
    (∀ ops s', (∀ c ∈ ops, c.Edits p) → mmu_run ops s = .ok s' →
      ∀ va, is_user_vaddr va → pml4_get_page s'.mem q va = pml4_get_page s.mem q va)
    ∧ (Owns s.mem p → UserPages s.mem q → Apart s.mem p q → ∃ m',
      pml4_destroy s.mem (some p) = .ok m' ∧ ∀ va, is_user_vaddr va → pg_ofs va = 0 →
        (∀ k, pml4_get_page s.mem p va = .ok (some k) → m'.used (kva_page k) = false)
        ∧ pml4_get_page m' q va = pml4_get_page s.mem q va
        ∧ ∀ k, pml4_get_page s.mem q va = .ok (some k) →
          m'.used (kva_page k) = s.mem.used (kva_page k)) := by
  have h := mmu_run_separate (paging_init_separate hpools hmem hboot) hok hrun
  refine ⟨fun ops s' hops hrun' va hva => mmu_run_get_page h hp hq hne hops hrun' hva,
    fun ho huser hapart => ?_⟩
  obtain ⟨m', hdestroy, hf⟩ := pml4_destroy_freed h hp ho
  refine ⟨m', hdestroy, fun va hva hofs => ⟨fun k hk => ?_, ?_, fun k hk => ?_⟩⟩
  · obtain ⟨-, hreach⟩ := h.get_page_low hp hva hofs hk
    have hmem : kva_page k ∈ map_pages_of s.mem p := mem_map_pages_of.mpr (.inr ⟨_, le_rfl, hreach⟩)
    rw [hf.used]
    simp [hmem]
  · have hbase : s.mem.base_pml4 ≠ p := by
      rintro rfl
      exact h.base hp
    exact (hf.local h hp ho).get_page (h.erase p) hbase ((List.mem_erase_of_ne hne).mpr hq) hne hva
  · -- a page of `q` is neither a table nor a page of `p`
    obtain ⟨hkva, hreach⟩ := h.get_page_low hq hva hofs hk
    have hin := (huser hva hofs hk).1
    have htable : ∀ {is}, own s.mem.base_pml4 s.maps p is →
        reach (child s.mem) p is ≠ some (kva_page k) := by
      intro is hown ht
      rw [h.pools _ (h.pool hown ht).1] at hin
      cases hin
    have hnot : kva_page k ∉ map_pages_of s.mem p := by
      intro hmem
      rcases mem_map_pages_of.mp hmem with heq | ⟨is, hlen, his⟩
      · exact htable (own_root hp) (by rw [heq, reach_nil])
      · rcases below_cases hp hlen with hown | ⟨b, c, d, rfl⟩
        · exact htable hown his
        · obtain ⟨huser', hofs', -⟩ := va_of_spec b c d
          refine hapart huser' hva hofs' hofs (get_page_va_of his) ?_
          rw [← hkva, hk]
    rw [hf.used]
    simp [hnot]

/-- A machine with 16 pages for the kernel and 4 for users. -/
def small : memory where
  kernel_pool := { base := 0, page_cnt := 16, used_map := fun _ => false }
  user_pool := { base := 16, page_cnt := 4, used_map := fun _ => false }
  word _ _ := entry.zero
  base_pml4 := 0

theorem small_pools : Pools small := by
  intro page hpage
  unfold page_from_pool small at *
  simp only [Bool.and_eq_true, decide_eq_true_eq] at hpage
  simp only [Bool.and_eq_false_iff, decide_eq_false_iff_not]
  omega

/-- Two page maps and a page for one of them. -/
def two_maps : List mmu_call := [.create, .create, .get_page true true]

/-- A page mapped low in the map 5 does not show in the map 4. -/
theorem low_page_disjoint : ∃ m s s', paging_init small 0 0 (20 * PGSIZE) = .ok m
    ∧ mmu_run two_maps ⟨m, []⟩ = .ok s
    ∧ mmu_run [.set_page 5 0x400000 (KERN_BASE + 16 * PGSIZE) true] s = .ok s'
    ∧ pml4_get_page s'.mem 4 0x400000 = pml4_get_page s.mem 4 0x400000 := by
  have hrun : (do
      let m ← paging_init small 0 0 (20 * PGSIZE)
      let s ← mmu_run two_maps ⟨m, []⟩
      let s' ← mmu_run [.set_page 5 0x400000 (KERN_BASE + 16 * PGSIZE) true] s
      return (m, s, s')).satisfies (fun (_, s, _) => decide (s.maps = [5, 4])) = true := by
    decide +kernel
  obtain ⟨⟨m, s, s'⟩, hret, hmaps⟩ := Outcome.satisfies_iff.mp hrun
  obtain ⟨m₁, hboot, hret⟩ := Outcome.bind_eq_ok.mp hret
  obtain ⟨s₁, htwo, hret⟩ := Outcome.bind_eq_ok.mp hret
  obtain ⟨s₂, hset, hret⟩ := Outcome.bind_eq_ok.mp hret
  cases Outcome.ok.inj hret
  have hmaps : s.maps = [5, 4] := of_decide_eq_true hmaps
  have hok : RunOk two_maps ⟨m, []⟩ :=
    ⟨trivial, fun _ _ => ⟨trivial, fun _ _ => ⟨trivial, fun _ _ => trivial⟩⟩⟩
  have hdisjoint := (address_spaces_disjoint small_pools (by decide) hboot hok htwo
    (p := 5) (q := 4) (by rw [hmaps]; simp) (by rw [hmaps]; simp) (by decide)).1
  refine ⟨m, s, s', hboot, htwo, hset, hdisjoint _ s' ?_ hset 0x400000 (by decide)⟩
  intro c hc
  obtain rfl := List.mem_singleton.mp hc
  exact ⟨rfl, by decide⟩

/-- The first address above `2 ^ 39` is a user address too. A page that is mapped there
in one map shows in the other, and is not freed with the map. -/
theorem high_page_shared : is_user_vaddr 0x8000000000
    ∧ ∃ m s s' m', paging_init small 0 0 (20 * PGSIZE) = .ok m
      ∧ mmu_run two_maps ⟨m, []⟩ = .ok s ∧ s.maps = [5, 4]
      ∧ mmu_run [.set_page 5 0x8000000000 (KERN_BASE + 16 * PGSIZE) true] s = .ok s'
      ∧ pml4_get_page s.mem 4 0x8000000000 = .ok none
      ∧ pml4_get_page s'.mem 4 0x8000000000 = .ok (some (KERN_BASE + 16 * PGSIZE))
      ∧ pml4_destroy s'.mem (some 5) = .ok m' ∧ m'.used 16 = true := by
  have hrun : (do
      let m ← paging_init small 0 0 (20 * PGSIZE)
      let s ← mmu_run two_maps ⟨m, []⟩
      let s' ← mmu_run [.set_page 5 0x8000000000 (KERN_BASE + 16 * PGSIZE) true] s
      let m' ← pml4_destroy s'.mem (some 5)
      return (m, s, s', m')).satisfies (fun (_, s, s', m') => decide (s.maps = [5, 4]
        ∧ pml4_get_page s.mem 4 0x8000000000 = Outcome.ok none
        ∧ pml4_get_page s'.mem 4 0x8000000000 = Outcome.ok (some (KERN_BASE + 16 * PGSIZE))
        ∧ m'.used 16 = true)) = true := by
    decide +kernel
  obtain ⟨⟨m, s, s', m'⟩, hret, hsat⟩ := Outcome.satisfies_iff.mp hrun
  obtain ⟨m₁, hboot, hret⟩ := Outcome.bind_eq_ok.mp hret
  obtain ⟨s₁, htwo, hret⟩ := Outcome.bind_eq_ok.mp hret
  obtain ⟨s₂, hset, hret⟩ := Outcome.bind_eq_ok.mp hret
  obtain ⟨m₂, hdestroy, hret⟩ := Outcome.bind_eq_ok.mp hret
  cases Outcome.ok.inj hret
  obtain ⟨hmaps, hbefore, hafter, hused⟩ := of_decide_eq_true hsat
  exact ⟨by decide, m, s, s', m', hboot, htwo, hmaps, hset, hbefore, hafter, hdestroy, hused⟩

end Runs

end Pintos.mmu
