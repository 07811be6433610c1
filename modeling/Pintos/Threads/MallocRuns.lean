/-
Every history of `malloc` and `free`.

A program asks for blocks, frees what it was given, and writes to it; whatever else changes in
memory changes outside of `malloc`'s own. The books are kept throughout, so that no assertion
fails.
-/
import Pintos.Lib.Runs
import Pintos.Threads.MallocFree

set_option autoImplicit false

namespace Pintos.heap

open klib (words IsList SameElse nodes Placed)

/-! ## `malloc_init` -/

section Init

variable {descs i n fuel : ℕ} {h : store}

theorem no_books : Books [] [] fun _ => [] where
  free _ _ _ := iff_of_false List.not_mem_nil fun ⟨_, hA, _⟩ => List.not_mem_nil hA
  owned _ hb := absurd hb List.not_mem_nil
  nodup := List.nodup_nil

/-- Descriptors lie apart from each other. -/
theorem desc_ne (descs : ℕ) {j : ℕ} (hij : j < i) : desc descs j ≠ desc descs i
    ∧ desc descs j ≠ desc descs i + 8
    ∧ desc descs j + 8 ≠ desc descs i ∧ desc descs j + 8 ≠ desc descs i + 8 := by
  unfold desc DESC_SIZE
  omega

theorem size_class_lt (hi : i ≤ CLASSES) : size_class i < PGSIZE / 2 ↔ i < CLASSES := by
  constructor
  · intro hlt
    by_contra hge
    have heq : i = CLASSES := by omega
    rw [heq] at hlt
    exact absurd hlt (by decide)
  · intro hlt
    have hpow : 2 ^ i ≤ 2 ^ 6 := Nat.pow_le_pow_right (by omega) (Nat.le_of_lt_succ hlt)
    unfold size_class PGSIZE
    omega

/-- **The loop of `malloc_init`**, by induction on the descriptors to go. -/
theorem init_loop_eq (hl : Layout descs []) (hi : i + n = CLASSES) (hf : n < fuel)
    (hcnt : h.desc_cnt = i) (hpages : h.pages = [])
    (hsizes : ∀ j < i, desc_block_size h.mem (desc descs j) = size_class j
      ∧ blocks_per_arena h.mem (desc descs j) = per_arena j)
    (hlists : ∀ j < i, IsList h.mem (free_list (desc descs j)) []) :
    ∃ h', init_loop descs fuel (size_class i) h = .ok h' ∧ Sound descs h' [] [] fun _ => [] := by
  induction n generalizing h i fuel with
  | zero =>
      obtain ⟨fuel, rfl⟩ : ∃ f, fuel = f + 1 := ⟨fuel - 1, by omega⟩
      have hall : i = CLASSES := hi
      have hend : ¬ size_class i < PGSIZE / 2 := by
        rw [size_class_lt (by omega)]
        omega
      refine ⟨h, ?_, hl, no_books, ⟨fun k hk => hsizes k (by omega), ?_, ?_, ?_⟩,
        fun k hk => hlists k (by omega), hpages, hcnt.trans hall⟩
      · rw [init_loop, if_neg hend]
        rfl
      · exact fun A hA => absurd hA List.not_mem_nil
      · exact fun A hA => absurd hA List.not_mem_nil
      · exact fun A hA => absurd hA List.not_mem_nil
  | succ n ih =>
      obtain ⟨fuel, rfl⟩ : ∃ f, fuel = f + 1 := ⟨fuel - 1, by omega⟩
      have hik : i < CLASSES := by omega
      have hlt : size_class i < PGSIZE / 2 := (size_class_lt (by omega)).mpr hik
      let m₁ := Function.update h.mem (desc descs i) (size_class i)
      let m₂ := Function.update m₁ (desc descs i + 8) ((PGSIZE - ARENA_SIZE) / size_class i)
      have hplaces : ∀ k < CLASSES, ∀ x ∈ nodes (free_list (desc descs k)) [], Place descs [] x :=
        fun k hk => no_books.places descs hk
      have hkept : ∀ w, w = desc descs i ∨ w = desc descs i + 8 → Kept descs [] w :=
        fun w hw => .inl ⟨i, hik, hw⟩
      have hnonzero : free_list (desc descs i) ≠ 0 := by
        unfold free_list
        omega
      obtain ⟨m₃, hinit, hlist₃, hsame⟩ := klib.list_init_eq m₂ hnonzero
      have hword : ∀ w, Kept descs [] w → m₃ w = m₂ w := hl.same_kept hsame (hplaces i hik)
      have hsizes' : ∀ j < i + 1, desc_block_size m₃ (desc descs j) = size_class j
          ∧ blocks_per_arena m₃ (desc descs j) = per_arena j := by
        intro j hj
        show m₃ (desc descs j) = _ ∧ m₃ (desc descs j + 8) = _
        have hjk : j < CLASSES := by omega
        rw [hword _ (.inl ⟨j, hjk, .inl rfl⟩), hword _ (.inl ⟨j, hjk, .inr rfl⟩)]
        rcases Nat.lt_succ_iff_lt_or_eq.mp hj with hj | rfl
        · obtain ⟨h₁, h₂, h₃, h₄⟩ := desc_ne descs hj
          have hfirst : m₂ (desc descs j) = h.mem (desc descs j) :=
            (Function.update_of_ne h₂ _ _).trans (Function.update_of_ne h₁ _ _)
          have hsecond : m₂ (desc descs j + 8) = h.mem (desc descs j + 8) :=
            (Function.update_of_ne h₄ _ _).trans (Function.update_of_ne h₃ _ _)
          rw [hfirst, hsecond]
          exact hsizes j hj
        · have hne : desc descs j ≠ desc descs j + 8 := by omega
          exact ⟨(Function.update_of_ne hne _ _).trans (Function.update_self ..),
            Function.update_self ..⟩
      have hlists' : ∀ j < i + 1, IsList m₃ (free_list (desc descs j)) [] := by
        intro j hj
        rcases Nat.lt_succ_iff_lt_or_eq.mp hj with hj | rfl
        · have hjk : j < CLASSES := by omega
          have hlist₁ := hl.list_kept (hlists j hj) (hplaces j hjk) (hkept _ (.inl rfl))
            (size_class i)
          have hlist₂ := hl.list_kept hlist₁ (hplaces j hjk) (hkept _ (.inr rfl))
            ((PGSIZE - ARENA_SIZE) / size_class i)
          exact hl.list_other hlist₂ hsame (hplaces i hik) (hplaces j hjk) fun x hx y hy =>
            no_books.lists_apart hl hjk hik (Nat.ne_of_lt hj) hx hy
        · exact hlist₃
      have hcnt' : h.desc_cnt + 1 = i + 1 := by rw [hcnt]
      have hf' : n < fuel := by omega
      obtain ⟨h', hrun, hs⟩ := ih (h := ⟨m₃, h.desc_cnt + 1, h.pages⟩) (by omega) hf' hcnt' hpages
        hsizes' hlists'
      refine ⟨h', ?_, hs⟩
      have hten : h.desc_cnt + 1 ≤ 10 := by
        unfold CLASSES at hik
        omega
      have hdouble : size_class i * 2 = size_class (i + 1) := by
        unfold size_class
        rw [pow_succ, Nat.mul_assoc]
      rw [init_loop, if_pos hlt, Outcome.assert_pos hten, Outcome.ok_bind, hcnt, hdouble]
      rw [hcnt] at hrun
      show (klib.list_init m₂ (free_list (desc descs i)) >>= _) = _
      rw [hinit]
      exact hrun

/-- **`malloc_init`** leaves empty free lists. -/
theorem malloc_init_eq (hd : 0 < descs) (m : words) : ∃ s, malloc_init descs ⟨m, 0, []⟩ = .ok s
    ∧ Sound descs s [] [] fun _ => [] := by
  have hl : Layout descs [] := ⟨fun A hA => absurd hA List.not_mem_nil, .nil,
    fun A hA => absurd hA List.not_mem_nil, hd⟩
  have henough : CLASSES < PGSIZE := by decide
  exact init_loop_eq (i := 0) (h := ⟨m, 0, []⟩) hl rfl henough rfl rfl
    (fun j hj => absurd hj (Nat.not_lt_zero j)) fun j hj => absurd hj (Nat.not_lt_zero j)

end Init

/-! ## Histories -/

/-- What `malloc` keeps, and the blocks that are outstanding with the sizes asked for. -/
structure history where
  store : store
  live : List (ℕ × ℕ)

/-- The blocks that are outstanding. -/
def outstanding (live : List (ℕ × ℕ)) : List ℕ := live.map Prod.fst

/-- A call, with what `palloc` returns if it is asked; or memory changes. -/
inductive malloc_event
  | malloc (grant size : ℕ)
  | free (p : ℕ)
  | write (m : words)

/-- The number of pages that `malloc` asks for, if any. -/
def asked_pages (size : ℕ) : ℕ := if size ≤ size_class (CLASSES - 1) then 1 else big_pages size

/-- The sum with the header does not wrap, and `palloc` returns pages or null; live blocks are
freed; what is `malloc`'s changes only in live blocks, as far as they were asked for. -/
def Legal (descs : ℕ) (h : history) : malloc_event → Prop
  | .malloc grant size => size + ARENA_SIZE + PGSIZE - 1 < 2 ^ 64
    ∧ Granted descs h.store.pages grant (asked_pages size)
  | .free p => p ∈ outstanding h.live
  | .write m => ∀ w, (descs ≤ w ∧ w < descs + 10 * DESC_SIZE
      ∨ ∃ r ∈ h.store.pages, r.pages ≤ w ∧ w < r.pages + PGSIZE * r.page_cnt) →
    (∀ q ∈ h.live, w < q.1 ∨ q.1 + q.2 ≤ w) → m w = h.store.mem w

/-- One event. -/
def malloc_step (descs : ℕ) (h : history) : malloc_event → Outcome history
  | .malloc grant size => do
    let (s, b) ← malloc descs grant size h.store
    return ⟨s, if b = 0 then h.live else (b, size) :: h.live⟩
  | .free p => do
    let s ← free p h.store
    return ⟨s, h.live.filter fun q => decide (q.1 ≠ p)⟩
  | .write m => return ⟨{ h.store with mem := m }, h.live⟩

/-- An event that happens. -/
def Step (descs : ℕ) (h : history) (e : malloc_event) (h' : history) : Prop :=
  Legal descs h e ∧ malloc_step descs h e = .ok h'

/-- The books are kept, every arena has a block that is outstanding, and blocks are as large as
they were asked for. -/
structure Healthy (descs : ℕ) (h : history) (arenas : List arena) (F : ℕ → List ℕ) : Prop where
  sound : Sound descs h.store arenas (outstanding h.live) F
  busy : ∀ A ∈ arenas, ∃ b ∈ A.blocks, b ∈ outstanding h.live
  fits : ∀ q ∈ h.live, ∃ A ∈ arenas, q.1 ∈ A.blocks ∧ q.2 ≤ A.bytes

section Histories

variable {descs grant size b : ℕ} {h h' : history} {arenas : List arena} {F : ℕ → List ℕ}
  {A : arena} {e : malloc_event} {m : words} {s : store}

theorem big_pages_eq (hlt : size + ARENA_SIZE + PGSIZE - 1 < 2 ^ 64) :
    0 < big_pages size ∧ size + ARENA_SIZE ≤ PGSIZE * big_pages size := by
  unfold big_pages
  unfold ARENA_SIZE PGSIZE at *
  omega

/-- **`malloc` returns null**, or a block that is large enough. -/
theorem Sound.malloc_eq {out : List ℕ} (hs : Sound descs s arenas out F)
    (hlt : size + ARENA_SIZE + PGSIZE - 1 < 2 ^ 64)
    (hg : Granted descs s.pages grant (asked_pages size)) :
    malloc descs grant size s = .ok (s, 0)
      ∨ ∃ s' b arenas' F' A, malloc descs grant size s = .ok (s', b)
        ∧ Sound descs s' arenas' (b :: out) F' ∧ A ∈ arenas' ∧ b ∈ A.blocks ∧ size ≤ A.bytes
        ∧ (arenas' = arenas ∨ A.page = grant ∧ A.page_cnt = asked_pages size
          ∧ arenas' = A :: arenas) := by
  by_cases hzero : size = 0
  · refine .inl ?_
    unfold malloc
    rw [if_pos hzero]
    rfl
  · have hall : 0 + s.desc_cnt = CLASSES := (Nat.zero_add _).trans hs.cnt
    rcases find_desc_eq size hs.written hall with ⟨k, hk, hfind, hle⟩ | ⟨hfind, hall⟩
    · have hone : asked_pages size = 1 := by
        have hpow : 2 ^ k ≤ 2 ^ 6 := Nat.pow_le_pow_right (by omega) (Nat.le_of_lt_succ hk)
        refine if_pos (hle.trans ?_)
        unfold size_class CLASSES
        omega
      rw [hone] at hg ⊢
      rcases hs.malloc_small hzero hk hfind hg
        with ⟨hnull, -, -⟩ | ⟨s', b, arenas', F', A, hrun, hs', hA, hkind, hb, hwhich⟩
      · exact .inl hnull
      · refine .inr ⟨s', b, arenas', F', A, hrun, hs', hA, hb, by rwa [bytes_small hkind], ?_⟩
        rcases hwhich with ⟨-, heq⟩ | ⟨-, heq, rfl⟩
        · exact .inl heq
        · exact .inr ⟨rfl, rfl, heq⟩
    · have hbig : asked_pages size = big_pages size := by
        refine if_neg fun hle => ?_
        have hlast := hall (CLASSES - 1) (by decide) (Nat.zero_le _)
        omega
      rw [hbig] at hg ⊢
      by_cases hgrant : grant = 0
      · exact .inl ((malloc_pages grant hzero hfind).trans (if_pos hgrant))
      · obtain ⟨hpos, hroom⟩ := big_pages_eq hlt
        obtain ⟨s', hrun, hs'⟩ := hs.malloc_big hzero hfind hpos hg hgrant
        refine .inr ⟨s', _, _, F, big_arena grant (big_pages size), hrun, hs', List.mem_cons_self,
          (mem_blocks_big rfl).mpr rfl, ?_, .inr ⟨rfl, rfl, rfl⟩⟩
        rw [bytes_big rfl]
        show size ≤ PGSIZE * big_pages size - ARENA_SIZE
        omega

/-- The list of live blocks without one of them. -/
theorem outstanding_filter (hnd : (outstanding h.live).Nodup) (b : ℕ) :
    outstanding (h.live.filter fun q => decide (q.1 ≠ b)) = (outstanding h.live).erase b := by
  rw [hnd.erase_eq_filter]
  unfold outstanding
  rw [List.filter_map]
  congr 1
  refine List.filter_congr fun q _ => ?_
  by_cases hq : q.1 = b
  · simp [hq]
  · simp [hq]

/-- **Freeing a live block.** -/
theorem Healthy.free_eq (hh : Healthy descs h arenas F) (hA : A ∈ arenas) (hb : b ∈ A.blocks)
    (hout : b ∈ outstanding h.live) :
    ∃ s' arenas' F', free b h.store = .ok s'
      ∧ Healthy descs ⟨s', h.live.filter fun q => decide (q.1 ≠ b)⟩ arenas' F'
      ∧ ((∃ x ∈ A.blocks, x ≠ b ∧ x ∈ outstanding h.live) ∧ s'.pages = h.store.pages
        ∨ (∀ x ∈ A.blocks, x ≠ b → x ∉ outstanding h.live)
          ∧ s'.pages = h.store.pages.erase A.range) := by
  have hnd := hh.sound.books.nodup
  have hl := hh.sound.layout
  have heq := outstanding_filter hnd b
  have herase : ∀ x, x ∈ (outstanding h.live).erase b ↔ x ≠ b ∧ x ∈ outstanding h.live :=
    fun x => hnd.mem_erase_iff
  have hlive : ∀ q ∈ h.live.filter fun q => decide (q.1 ≠ b), q ∈ h.live ∧ q.1 ≠ b := by
    intro q hq
    obtain ⟨hq, hne⟩ := List.mem_filter.mp hq
    exact ⟨hq, of_decide_eq_true hne⟩
  -- an arena that is left has a block of its own that is outstanding
  have hothers : ∀ B ∈ arenas, B ≠ A → ∃ x ∈ B.blocks, x ∈ (outstanding h.live).erase b := by
    intro B hB hne
    obtain ⟨x, hx, hmem⟩ := hh.busy B hB
    refine ⟨x, hx, (herase x).mpr ⟨?_, hmem⟩⟩
    rintro rfl
    exact hne (hl.same_arena hB hA hx hb)
  have hgone : (∀ x ∈ A.blocks, x ∉ (outstanding h.live).erase b) → ∀ {s' F'},
      Sound descs s' (arenas.erase A) ((outstanding h.live).erase b) F' →
      Healthy descs ⟨s', h.live.filter fun q => decide (q.1 ≠ b)⟩ (arenas.erase A) F' := by
    intro hidle s' F' hs'
    refine ⟨by rwa [heq], fun B hB => ?_, fun q hq => ?_⟩
    · rw [heq]
      obtain ⟨hne, hB⟩ := hl.mem_erase.mp hB
      exact hothers B hB hne
    · obtain ⟨hq, hne⟩ := hlive q hq
      obtain ⟨B, hB, hin, hfit⟩ := hh.fits q hq
      refine ⟨B, hl.mem_erase.mpr ⟨?_, hB⟩, hin, hfit⟩
      rintro rfl
      exact hidle q.1 hin ((herase q.1).mpr ⟨hne, List.mem_map_of_mem hq⟩)
  cases hkind : A.kind with
  | none =>
      obtain ⟨s', hrun, hs', hpages⟩ := hh.sound.free_big hA hkind hb hout
      have honly : ∀ x ∈ A.blocks, x = b := fun x hx =>
        ((mem_blocks_big hkind).mp hx).trans ((mem_blocks_big hkind).mp hb).symm
      refine ⟨s', _, F, hrun, hgone (fun x hx hmem => ?_) hs', .inr ⟨fun x hx hne => ?_, hpages⟩⟩
      · exact ((herase x).mp hmem).1 (honly x hx)
      · exact absurd (honly x hx) hne
  | some k =>
      obtain ⟨s', F', hrun, ⟨⟨x, hx, hmem⟩, hs', hpages⟩ | ⟨hidle, hs', hpages⟩⟩ :=
        hh.sound.free_small hA hkind hb hout
      · refine ⟨s', arenas, F', hrun, ⟨by rwa [heq], fun B hB => ?_, fun q hq => ?_⟩,
          .inl ⟨⟨x, hx, (herase x).mp hmem⟩, hpages⟩⟩
        · rw [heq]
          by_cases hBA : B = A
          · subst hBA
            exact ⟨x, hx, hmem⟩
          · exact hothers B hB hBA
        · exact hh.fits q (hlive q hq).1
      · refine ⟨s', _, F', hrun, hgone hidle hs', .inr ⟨fun x hx hne hmem => ?_, hpages⟩⟩
        exact hidle x hx ((herase x).mpr ⟨hne, hmem⟩)

/-- **Asking for a block.** -/
theorem Healthy.malloc_eq (hh : Healthy descs h arenas F)
    (hlegal : Legal descs h (.malloc grant size)) :
    ∃ s' b arenas' F', malloc descs grant size h.store = .ok (s', b)
      ∧ Healthy descs ⟨s', if b = 0 then h.live else (b, size) :: h.live⟩ arenas' F'
      ∧ (s'.pages = h.store.pages ∨ s'.pages = ⟨grant, asked_pages size⟩ :: h.store.pages) := by
  rcases hh.sound.malloc_eq hlegal.1 hlegal.2
    with hnull | ⟨s', b, arenas', F', A, hrun, hs', hA, hb, hfit, hwhich⟩
  · exact ⟨h.store, 0, arenas, F, hnull, hh, .inl rfl⟩
  · have hnonzero : b ≠ 0 := hs'.layout.place_pos (.inr ⟨A, hA, hb⟩)
    have hlive : (if b = 0 then h.live else (b, size) :: h.live) = (b, size) :: h.live :=
      if_neg hnonzero
    have hold : ∀ B ∈ arenas, B ∈ arenas' := by
      rcases hwhich with rfl | ⟨-, -, rfl⟩
      · exact fun B hB => hB
      · exact fun B hB => List.mem_cons_of_mem _ hB
    refine ⟨s', b, arenas', F', hrun, ?_, ?_⟩
    · rw [hlive]
      refine ⟨hs', fun B hB => ?_, fun q hq => ?_⟩
      · by_cases hBA : B = A
        · subst hBA
          exact ⟨b, hb, List.mem_cons_self⟩
        · have hB : B ∈ arenas := by
            rcases hwhich with rfl | ⟨-, -, rfl⟩
            · exact hB
            · exact (List.mem_cons.mp hB).resolve_left hBA
          obtain ⟨x, hx, hmem⟩ := hh.busy B hB
          exact ⟨x, hx, List.mem_cons_of_mem _ hmem⟩
      · rcases List.mem_cons.mp hq with rfl | hq
        · exact ⟨A, hA, hb, hfit⟩
        · obtain ⟨B, hB, hin, hfit⟩ := hh.fits q hq
          exact ⟨B, hold B hB, hin, hfit⟩
    · rw [hs'.pages, hh.sound.pages]
      rcases hwhich with rfl | ⟨rfl, hcnt, rfl⟩
      · exact .inl rfl
      · rw [← hcnt]
        exact .inr rfl

/-- **An event that is allowed happens**, and the books are kept. -/
theorem Healthy.event (hh : Healthy descs h arenas F) (hlegal : Legal descs h e) :
    ∃ h' arenas' F', malloc_step descs h e = .ok h' ∧ Healthy descs h' arenas' F' := by
  cases e with
  | malloc grant size =>
      obtain ⟨s', b, arenas', F', hrun, hh', -⟩ := hh.malloc_eq hlegal
      refine ⟨_, arenas', F', ?_, hh'⟩
      show (malloc descs grant size h.store >>= _) = _
      rw [hrun]
      rfl
  | free p =>
      obtain ⟨A, hA, hb⟩ := hh.sound.books.owned p hlegal
      obtain ⟨s', arenas', F', hrun, hh', -⟩ := hh.free_eq hA hb hlegal
      refine ⟨_, arenas', F', ?_, hh'⟩
      show (free p h.store >>= _) = _
      rw [hrun]
      rfl
  | write m =>
      refine ⟨_, arenas, F, rfl, hh.sound.other_memory m fun w hw => hlegal w ?_ fun q hq => ?_,
        hh.busy, hh.fits⟩
      · rcases hw with hw | ⟨A, hA, h₁, h₂, -⟩
        · exact .inl hw
        · refine .inr ⟨A.range, ?_, h₁, h₂⟩
          rw [hh.sound.pages]
          exact List.mem_map_of_mem hA
      · obtain ⟨A, hA, hb, hfit⟩ := hh.fits q hq
        rcases hh.sound.layout.outside_block hA hb (List.mem_map_of_mem hq) hw with hlt | hlt
        · exact .inl hlt
        · exact .inr (by omega)

/-- What is promised of every history. `F k` are the blocks on the free list of descriptor `k`. -/
structure Orderly (descs : ℕ) (h : history) (arenas : List arena) (F : ℕ → List ℕ) : Prop where
  /-- The arenas are the pages that were not given back. -/
  pages : h.store.pages = arenas.map arena.range
  /-- A free list holds the free blocks of its arenas, each once. -/
  lists : ∀ k < CLASSES, IsList h.store.mem (free_list (desc descs k)) (F k) ∧ (F k).Nodup
    ∧ ∀ b, b ∈ F k
      ↔ ∃ A ∈ arenas, A.kind = some k ∧ b ∈ A.blocks ∧ b ∉ outstanding h.live
  /-- An arena counts its blocks on the free list. -/
  counts : ∀ A ∈ arenas, ∀ k, A.kind = some k →
    free_cnt h.store.mem A.page = ((F k).filter fun b => decide (b ∈ A.blocks)).length
  /-- A live block is one of the blocks, and as large as it was asked for. -/
  live : (outstanding h.live).Nodup ∧ ∀ q ∈ h.live, ∃ A ∈ arenas, q.1 ∈ A.blocks ∧ q.2 ≤ A.bytes
  /-- Blocks do not overlap. -/
  apart : ∀ A ∈ arenas, ∀ B ∈ arenas, ∀ b ∈ A.blocks, ∀ b' ∈ B.blocks, b ≠ b' →
    b + A.bytes ≤ b' ∨ b' + B.bytes ≤ b
  /-- No block overlaps the header of an arena. -/
  headers : ∀ A ∈ arenas, ∀ B ∈ arenas, ∀ b ∈ A.blocks,
    b + A.bytes ≤ B.page ∨ B.page + ARENA_SIZE ≤ b
  /-- What is allowed does not fail. -/
  progress : ∀ e, Legal descs h e → ∃ h', malloc_step descs h e = .ok h'
  /-- Asking for a block gives no page back. -/
  mallocs : ∀ grant size, Legal descs h (.malloc grant size) → ∀ s' b,
    malloc descs grant size h.store = .ok (s', b) →
      s'.pages = h.store.pages ∨ s'.pages = ⟨grant, asked_pages size⟩ :: h.store.pages
  /-- Freeing one gives its pages back when no other block of them is outstanding. -/
  frees : ∀ A ∈ arenas, ∀ b ∈ A.blocks, b ∈ outstanding h.live → ∃ s', free b h.store = .ok s'
    ∧ ((∃ x ∈ A.blocks, x ≠ b ∧ x ∈ outstanding h.live) ∧ s'.pages = h.store.pages
      ∨ (∀ x ∈ A.blocks, x ≠ b → x ∉ outstanding h.live)
        ∧ s'.pages = h.store.pages.erase A.range)

/-- The blocks of an arena on the free list are its free ones. -/
theorem Sound.count_eq {out : List ℕ} {k : ℕ} (hs : Sound descs s arenas out F) (hA : A ∈ arenas)
    (hkind : A.kind = some k) :
    free_cnt s.mem A.page = ((F k).filter fun b => decide (b ∈ A.blocks)).length := by
  have hk := ((hs.layout.ok A hA).kind k hkind).1
  have hFnd := (hs.lists k hk).nodup
  rw [hs.written.cnt A hA, (arena.cnt_small hkind out).1]
  refine ((List.perm_ext_iff_of_nodup ((blocks_nodup A).filter _) (hFnd.filter _)).mpr ?_).length_eq
  intro b
  rw [List.mem_filter, List.mem_filter, decide_eq_true_eq, decide_eq_true_eq, hs.books.free k hk]
  constructor
  · rintro ⟨hb, hout⟩
    exact ⟨⟨A, hA, hkind, hb, hout⟩, hb⟩
  · rintro ⟨⟨B, hB, -, -, hout⟩, hb⟩
    exact ⟨hb, hout⟩

theorem Healthy.orderly (hh : Healthy descs h arenas F) : Orderly descs h arenas F := by
  have hs := hh.sound
  refine ⟨hs.pages, fun k hk => ⟨hs.lists k hk, ?_, hs.books.free k hk⟩, fun A hA k hkind =>
    hs.count_eq hA hkind, ⟨hs.books.nodup, hh.fits⟩, fun A hA B hB b hb b' hb' hne =>
    hs.layout.blocks_apart hA hB hb hb' hne, fun A hA B hB b hb => ?_, fun e hlegal => ?_,
    fun grant size hlegal s' b hrun => ?_, fun A hA b hb hout => ?_⟩
  · exact (hs.lists k hk).nodup
  · have hin := (hs.layout.ok A hA).within hb
    have hpos := (hs.layout.ok B hB).pos
    have h₁ := hin.header
    have h₂ := hin.last
    by_cases heq : A = B
    · subst heq
      exact .inr h₁
    · rcases hs.layout.arenas_apart hA hB heq with hlt | hlt
      · exact .inl (h₂.trans hlt)
      · refine .inr ?_
        unfold arena.last PGSIZE at hlt
        unfold ARENA_SIZE at *
        omega
  · obtain ⟨h', _, _, hrun, -⟩ := hh.event hlegal
    exact ⟨h', hrun⟩
  · obtain ⟨s₁, b₁, _, _, hrun₁, -, hpages⟩ := hh.malloc_eq hlegal
    obtain ⟨rfl, rfl⟩ := Outcome.ok_pair (hrun.symm.trans hrun₁)
    exact hpages
  · obtain ⟨s', _, _, hrun, -, hpages⟩ := hh.free_eq hA hb hout
    exact ⟨s', hrun, hpages⟩

/-- **One event.** -/
theorem Healthy.step (hh : Healthy descs h arenas F) (hstep : Step descs h e h') :
    ∃ arenas' F', Healthy descs h' arenas' F' := by
  obtain ⟨h₁, arenas', F', hrun, hh'⟩ := hh.event hstep.1
  obtain rfl := Outcome.ok.inj (hrun.symm.trans hstep.2)
  exact ⟨arenas', F', hh'⟩

/-- **A run** keeps the books. -/
theorem Sound.healthy (hs : Sound descs s [] [] fun _ => []) {es : List malloc_event}
    (hpath : Runs.Path (Step descs) ⟨s, []⟩ es h) : ∃ arenas F, Healthy descs h arenas F := by
  have hh₀ : Healthy descs ⟨s, []⟩ [] fun _ => [] :=
    ⟨hs, fun A hA => absurd hA List.not_mem_nil, fun q hq => absurd hq List.not_mem_nil⟩
  refine hpath.invariant (I := fun h => ∃ arenas F, Healthy descs h arenas F) ?_
    ⟨[], fun _ => [], hh₀⟩
  rintro _ _ _ - ⟨arenas, F, hh⟩ hstep
  exact hh.step hstep

/-- **Every history of the block allocator** is orderly. -/
theorem malloc_history (hd : 0 < descs) (m : words) :
    ∃ s, malloc_init descs ⟨m, 0, []⟩ = .ok s ∧ ∀ es h, Runs.Path (Step descs) ⟨s, []⟩ es h →
      ∃ arenas F, Orderly descs h arenas F := by
  obtain ⟨s, hinit, hs⟩ := malloc_init_eq hd m
  refine ⟨s, hinit, fun es h hpath => ?_⟩
  obtain ⟨arenas, F, hh⟩ := hs.healthy hpath
  exact ⟨arenas, F, hh.orderly⟩

/-- 5000 bytes in two pages of their own, given back. -/
theorem malloc_history_big_block : ∃ s h, malloc_init 0x8004300000 ⟨fun _ => 0, 0, []⟩ = .ok s
    ∧ Runs.Path (Step 0x8004300000) ⟨s, []⟩ [.malloc 0x8005000000 5000, .free 0x8005000018] h
    ∧ ∃ arenas F, Orderly 0x8004300000 h arenas F := by
  obtain ⟨s, hinit, hall⟩ := @malloc_history 0x8004300000 (by decide) fun _ => 0
  have hrun : ((malloc_init 0x8004300000 ⟨fun _ => 0, 0, []⟩ >>= fun s =>
      malloc_step 0x8004300000 ⟨s, []⟩ (.malloc 0x8005000000 5000) >>= fun h₁ =>
        malloc_step 0x8004300000 h₁ (.free 0x8005000018) >>= fun h => .ok (s, h₁, h)).satisfies
      fun r => decide (r.1.pages = [] ∧ r.2.1.live = [(0x8005000018, 5000)])) = true := by
    decide +kernel
  obtain ⟨r, hr, hsat⟩ := Outcome.satisfies_iff.mp hrun
  -- what makes the two events legal is read off the states that were computed
  rw [hinit, Outcome.ok_bind] at hr
  obtain ⟨h₁, hstep₁, hr⟩ := Outcome.bind_eq_ok.mp hr
  obtain ⟨h, hstep, hr⟩ := Outcome.bind_eq_ok.mp hr
  obtain rfl := Outcome.ok.inj hr
  obtain ⟨hpages, hlive⟩ := of_decide_eq_true hsat
  have hgrant : Granted 0x8004300000 s.pages 0x8005000000 (asked_pages 5000) := by
    rw [hpages]
    exact fun _ => ⟨by decide, by decide, by decide, fun r hr => absurd hr List.not_mem_nil⟩
  have hout : 0x8005000018 ∈ outstanding h₁.live := by
    rw [hlive]
    exact List.mem_cons_self
  have hpath : Runs.Path (Step 0x8004300000) ⟨s, []⟩
      [.malloc 0x8005000000 5000, .free 0x8005000018] h :=
    .cons ⟨⟨by decide, hgrant⟩, hstep₁⟩ (.cons ⟨hout, hstep⟩ (.nil h))
  exact ⟨s, h, hinit, hpath, hall _ h hpath⟩

/-! ## The page allocator -/

/-- **`palloc_get_multiple` returns what is promised of it**, when the descriptors are in neither
pool and all pages that `malloc` holds are outstanding. -/
theorem granted_of_palloc {lo hi : palloc.pool_id → ℕ} {s₀ s' : palloc.allocator}
    {p : palloc.history} {pages : List palloc.range} {n : ℕ} (hk : palloc.Kept lo hi s₀ p)
    (hn : 0 < n) (hdescs : ∀ w, hi w * PGSIZE ≤ descs ∨ descs + 10 * DESC_SIZE ≤ lo w * PGSIZE)
    (hpages : ∀ r ∈ pages, r ∈ p.live)
    (hget : palloc.palloc_get_multiple 0 n p.alloc = .ok (s', grant)) :
    Granted descs pages grant n := by
  intro hgrant
  rcases hk.laid_out.get_eq 0 hn with ⟨s₁, page, heq, -, -, hleast, -⟩ | ⟨-, hnull⟩
  · obtain ⟨-, rfl⟩ := Outcome.ok_pair (hget.symm.trans heq)
    have hfree : ∀ q, page ≤ q → q < page + n → (p.alloc.view (palloc.asked 0)).free q := by
      intro q h₁ h₂
      have hq := hleast.1 (q - page) (by omega)
      rwa [Nat.add_sub_cancel' h₁] at hq
    have hfirst := (hk.laid_out.free_iff.mp (hfree page (Nat.le_refl _) (by omega))).1
    have hlast := (hk.laid_out.free_iff.mp (hfree (page + n - 1) (by omega) (by omega))).2.1
    have hend := hk.laid_out.bounds.lt (palloc.asked 0)
    have hdescs := hdescs (palloc.asked 0)
    have hsum : page * PGSIZE + PGSIZE * n = (page + n) * PGSIZE := by ring
    have hle : (page + n) * PGSIZE ≤ hi (palloc.asked 0) * PGSIZE :=
      Nat.mul_le_mul_right _ (by omega)
    refine ⟨Nat.mul_mod_left page PGSIZE, ?_, ?_, fun r hr => ?_⟩
    · rw [hsum]
      exact hle.trans hend.le
    · rw [hsum]
      exact hdescs.imp hle.trans fun h => h.trans (Nat.mul_le_mul_right _ hfirst)
    · obtain ⟨w, hin, -⟩ := hk.inside r (hpages r hr)
      have haligned := hin.aligned
      have hpos := hin.pos
      have hapart : ∀ q, page ≤ q → q < page + n → ¬ r.covers q := fun q h₁ h₂ hq =>
        hk.used (hpages r hr) hq (hfree q h₁ h₂)
      have hstart := hapart page
      have hrstart := hapart (palloc.pg_no r.pages)
      unfold palloc.range.covers palloc.pg_no PGSIZE at hstart hrstart
      unfold PGSIZE at haligned ⊢
      omega
  · rw [hnull] at hget
    have hno : ¬ (0 &&& palloc.PAL_ASSERT ≠ 0) := by decide
    rw [if_neg hno] at hget
    exact absurd (Outcome.ok_pair hget).2.symm hgrant

end Histories

end Pintos.heap
