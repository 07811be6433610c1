/-
What `malloc` and `free` do.

A call that needs a new arena writes its header and links its blocks, and then takes the first;
a call that empties an arena unlinks its blocks and gives the page back. In between the blocks
of that arena are neither all on the list nor all off it.
-/
import Pintos.Threads.FreeLists

set_option autoImplicit false

namespace Pintos.heap

open klib (words IsList SameElse nodes Placed)

variable {descs : ℕ} {h : store} {arenas : List arena} {out : List ℕ} {F : ℕ → List ℕ}
  {m m' : words} {A B : arena} {b k x w i n fuel grant size : ℕ} {l : List ℕ}

/-! ## Bytes -/

theorem store_byte_other {a v : ℕ} (hw : w ≠ a / 8 * 8) : store_byte m a v w = m w :=
  Function.update_of_ne hw _ _

/-- **`memset`** from a word on changes none before, and none behind its end. -/
theorem set_bytes_other {p v : ℕ} (ha : p % 8 = 0) (hw : w < p ∨ p + n ≤ w) :
    set_bytes m p v n w = m w := by
  have hbytes : ∀ {m n q}, p ≤ q → w < p ∨ q + n ≤ w → set_bytes m q v n w = m w := by
    intro m n
    induction n generalizing m with
    | zero => exact fun _ _ => rfl
    | succ n ih =>
        intro q hq hout
        rw [set_bytes, ih (by omega) (by omega), store_byte_other (by omega)]
  exact hbytes (Nat.le_refl p) hw

theorem copy_bytes_other {p q : ℕ} (ha : p % 8 = 0) (hw : w < p ∨ p + n ≤ w) :
    copy_bytes m p q n w = m w := by
  have hbytes : ∀ {m n a q}, p ≤ a → w < p ∨ a + n ≤ w → copy_bytes m a q n w = m w := by
    intro m n
    induction n generalizing m with
    | zero => exact fun _ _ => rfl
    | succ n ih =>
        intro a q hq hout
        rw [copy_bytes, ih (by omega) (by omega), store_byte_other (by omega)]
  exact hbytes (Nat.le_refl p) hw

theorem arena.Ok.block_aligned (h : A.Ok) (hb : b ∈ A.blocks) : b % 8 = 0 := by
  have haligned := h.aligned
  cases hkind : A.kind with
  | none =>
      have hb := (mem_blocks_big hkind).mp hb
      unfold PGSIZE ARENA_SIZE at *
      omega
  | some k =>
      obtain ⟨i, -, rfl⟩ := (mem_blocks_small hkind).mp hb
      have hsize : i * size_class k = 8 * (2 * (i * 2 ^ k)) := by
        unfold size_class
        ring
      unfold PGSIZE ARENA_SIZE at *
      omega

/-- What is written into an outstanding block is nobody else's. -/
theorem Layout.outside_block (hl : Layout descs arenas) (hA : A ∈ arenas) (hb : b ∈ A.blocks)
    (hout : b ∈ out) (hw : Protected descs arenas out w) : w < b ∨ b + A.bytes ≤ w := by
  have hin := (hl.ok A hA).within hb
  have h₁ := hin.header
  have h₂ := hin.last
  rcases hw with ⟨h₃, h₄⟩ | ⟨B, hB, h₃, h₄, hother⟩
  · rcases hl.descs_apart A hA with hlt | hlt <;> omega
  · by_cases heq : A = B
    · subst heq
      exact hother b hout hb
    · rcases hl.arenas_apart hA hB heq with hlt | hlt <;> omega

/-! ## A new arena -/

theorem blocks_small (hkind : A.kind = some k) : A.blocks
    = (List.range (per_arena k)).map fun i => A.page + ARENA_SIZE + i * size_class k := by
  unfold arena.blocks
  rw [hkind]

/-- Blocks of their own make a list behind the ends of a free list. -/
theorem Layout.placed_nodes (hl : Layout descs arenas) (hk : k < CLASSES) (hnd : l.Nodup)
    (hblocks : ∀ x ∈ l, ∃ A ∈ arenas, x ∈ A.blocks) :
    Placed (nodes (free_list (desc descs k)) l) := by
  have hends : ∀ x ∈ l, x ≠ free_list (desc descs k)
      ∧ x ≠ klib.tail (free_list (desc descs k)) := by
    intro x hx
    obtain ⟨A, hA, hx⟩ := hblocks x hx
    constructor
    · rcases hl.end_block_apart hk (.inl rfl) hA hx with hlt | hlt <;> omega
    · rcases hl.end_block_apart hk (.inr rfl) hA hx with hlt | hlt <;> omega
  refine hl.placed (List.nodup_cons.mpr ⟨?_,
    List.nodup_append.mpr ⟨hnd, List.nodup_singleton _, ?_⟩⟩) (places_of_blocks descs hk hblocks)
  · intro hmem
    rcases List.mem_append.mp hmem with hmem | hmem
    · exact (hends _ hmem).1 rfl
    · have := List.mem_singleton.mp hmem
      unfold klib.tail at this
      omega
  · intro x hx y hy
    rw [List.mem_singleton.mp hy]
    exact (hends x hx).2

/-- **The loop of `malloc`** links the blocks of an arena, by induction on those to go. -/
theorem fill_loop_eq (hl : Layout descs arenas) (hw : Written descs arenas out m) (hA : A ∈ arenas)
    (hkind : A.kind = some k) (hi : i + n = per_arena k) (hf : n < fuel)
    (hlist : IsList m (free_list (desc descs k))
      ((List.range i).map fun i => A.page + ARENA_SIZE + i * size_class k)) :
    ∃ m', fill_loop A.page (desc descs k) fuel i m = .ok m'
      ∧ IsList m' (free_list (desc descs k)) A.blocks
      ∧ SameElse (nodes (free_list (desc descs k)) A.blocks) m m' := by
  have hk := ((hl.ok A hA).kind k hkind).1
  have hplaced := hl.placed_nodes hk (blocks_nodup A) fun x hx => ⟨A, hA, hx⟩
  have hplaces : ∀ x ∈ nodes (free_list (desc descs k)) A.blocks, Place descs arenas x :=
    places_of_blocks descs hk fun x hx => ⟨A, hA, hx⟩
  induction n generalizing m i fuel with
  | zero =>
      obtain ⟨fuel, rfl⟩ : ∃ f, fuel = f + 1 := ⟨fuel - 1, by omega⟩
      have hend : ¬ i < blocks_per_arena m (desc descs k) := by
        rw [(hw.sizes k hk).2]
        omega
      have hall : i = per_arena k := hi
      subst hall
      refine ⟨m, ?_, by rwa [blocks_small hkind], SameElse.refl _ _⟩
      rw [fill_loop, if_neg hend]
      rfl
  | succ n ih =>
      obtain ⟨fuel, rfl⟩ : ∃ f, fuel = f + 1 := ⟨fuel - 1, by omega⟩
      have hlt : i < blocks_per_arena m (desc descs k) := by
        rw [(hw.sizes k hk).2]
        omega
      let blk : ℕ → ℕ := fun i => A.page + ARENA_SIZE + i * size_class k
      have hsucc : (List.range (i + 1)).map blk = (List.range i).map blk ++ [blk i] := by
        rw [List.range_succ, List.map_append, List.map_singleton]
      -- the next block has a place of its own
      have hsub : (nodes (free_list (desc descs k)) ((List.range i).map blk ++ [blk i])).Sublist
          (nodes (free_list (desc descs k)) A.blocks) := by
        rw [← hsucc, blocks_small hkind]
        exact (((List.range_sublist.mpr (by omega)).map blk).append_right _).cons_cons _
      have hperm : (nodes (free_list (desc descs k)) ((List.range i).map blk ++ [blk i])).Perm
          (blk i :: nodes (free_list (desc descs k)) ((List.range i).map blk)) :=
        (IsList.nodes_perm _ List.perm_append_comm).trans (IsList.nodes_cons_perm _ _ _)
      have hnew := (hplaced.sublist hsub).perm hperm
      obtain ⟨m₁, hpush, hlist₁, hsame₁⟩ := hlist.push_back hnew
      have hsame₁ : SameElse (nodes (free_list (desc descs k)) A.blocks) m m₁ :=
        hsame₁.mono fun x hx => hsub.subset (hperm.mem_iff.mpr hx)
      rw [← hsucc] at hlist₁
      have hw₁ := hw.congr (hl.same_kept hsame₁ hplaces)
      have hf' : n < fuel := by omega
      obtain ⟨m', hloop, hlist', hsame'⟩ := ih (i := i + 1) hw₁ (by omega) hf' hlist₁
      refine ⟨m', ?_, hlist', hsame₁.trans hsame'⟩
      rw [fill_loop, if_pos hlt, hw.arena_to_block_eq hl hA hkind (by omega),
        Outcome.ok_bind, hpush]
      exact hloop

/-- What `palloc` may return for `n` pages: null, or pages of which nothing else is held. -/
def Granted (descs : ℕ) (pages : List palloc.range) (grant n : ℕ) : Prop :=
  grant ≠ 0 → grant % PGSIZE = 0 ∧ grant + PGSIZE * n ≤ 2 ^ 64
    ∧ (grant + PGSIZE * n ≤ descs ∨ descs + 10 * DESC_SIZE ≤ grant)
    ∧ ∀ r ∈ pages, grant + PGSIZE * n ≤ r.pages ∨ r.pages + PGSIZE * r.page_cnt ≤ grant

theorem Layout.add (hl : Layout descs arenas) {kind : Option ℕ}
    (hg : Granted descs (arenas.map arena.range) grant n) (hgrant : grant ≠ 0) (hn : 0 < n)
    (hkind : ∀ k, kind = some k → k < CLASSES ∧ n = 1) :
    Layout descs (⟨grant, n, kind⟩ :: arenas) := by
  obtain ⟨haligned, hlast, hdescs, hothers⟩ := hg hgrant
  refine ⟨fun A hA => ?_, List.pairwise_cons.mpr ⟨fun A hA => ?_, hl.apart⟩, fun A hA => ?_,
    hl.descs_pos⟩
  · rcases List.mem_cons.mp hA with rfl | hA
    · exact ⟨haligned, Nat.pos_of_ne_zero hgrant, hlast, hn, hkind⟩
    · exact hl.ok A hA
  · exact hothers A.range (List.mem_map_of_mem hA)
  · rcases List.mem_cons.mp hA with rfl | hA
    · exact hdescs
    · exact hl.descs_apart A hA

/-- The blocks of a new arena are not outstanding. -/
theorem Books.fresh (hbooks : Books arenas out F) (hl : Layout descs (A :: arenas))
    (hb : b ∈ A.blocks) : b ∉ out := by
  intro hout
  obtain ⟨B, hB, hb'⟩ := hbooks.owned b hout
  have hself := hl.same_arena List.mem_cons_self (List.mem_cons_of_mem _ hB) hb hb'
  subst hself
  have hpos := (hl.ok A List.mem_cons_self).pos
  have hapart := (List.pairwise_cons.mp hl.apart).1 A hB
  unfold Apart arena.last PGSIZE at hapart
  omega

theorem Written.add (hw : Written descs arenas out m) (hmagic : heap.magic m A.page = ARENA_MAGIC)
    (hdesc : arena_desc m A.page = A.desc descs) (hcnt : free_cnt m A.page = A.cnt out) :
    Written descs (A :: arenas) out m where
  sizes := hw.sizes
  magic := List.forall_mem_cons.mpr ⟨hmagic, hw.magic⟩
  desc := List.forall_mem_cons.mpr ⟨hdesc, hw.desc⟩
  cnt := List.forall_mem_cons.mpr ⟨hcnt, hw.cnt⟩

/-- **`init_arena`** writes a header and no other words. -/
theorem init_arena_eq (m : words) (a d cnt : ℕ) :
    magic (init_arena m a d cnt) a = ARENA_MAGIC ∧ arena_desc (init_arena m a d cnt) a = d
      ∧ free_cnt (init_arena m a d cnt) a = cnt
      ∧ ∀ w, w < a ∨ a + ARENA_SIZE ≤ w → init_arena m a d cnt w = m w := by
  have h₁ : a ≠ a + 16 := by omega
  have h₂ : a ≠ a + 8 := by omega
  have h₃ : a + 8 ≠ a + 16 := by omega
  refine ⟨?_, ?_, ?_, fun w hw => ?_⟩
  · unfold magic init_arena ARENA_MAGIC
    rw [Function.update_of_ne h₁, Function.update_of_ne h₂, Function.update_self]
    omega
  · unfold arena_desc init_arena
    rw [Function.update_of_ne h₃, Function.update_self]
  · unfold free_cnt init_arena
    rw [Function.update_self]
  · unfold init_arena
    unfold ARENA_SIZE at hw
    rw [Function.update_of_ne (by omega), Function.update_of_ne (by omega),
      Function.update_of_ne (by omega)]

/-- The header of a new arena is nobody else's. -/
theorem Layout.outside_new (hl : Layout descs (A :: arenas)) (hw : Protected descs arenas out w) :
    w < A.page ∨ A.last ≤ w := by
  rcases hw with ⟨h₁, h₂⟩ | ⟨B, hB, h₁, h₂, -⟩
  · rcases hl.descs_apart A List.mem_cons_self with hlt | hlt <;> omega
  · rcases (List.pairwise_cons.mp hl.apart).1 B hB with hlt | hlt <;> omega

/-- A new arena gets its header, and what is known of the others stays. -/
theorem Sound.header (hs : Sound descs h arenas out F) (hl : Layout descs (A :: arenas))
    {d cnt : ℕ} (hd : d = A.desc descs)
    (hcnt : cnt = A.cnt out) :
    Written descs (A :: arenas) out (init_arena h.mem A.page d cnt)
      ∧ ∀ k < CLASSES, IsList (init_arena h.mem A.page d cnt) (free_list (desc descs k)) (F k) := by
  obtain ⟨hmagic, hdesc, hfree, hsame⟩ := init_arena_eq h.mem A.page d cnt
  have hpos := (hl.ok A List.mem_cons_self).pos
  have hs' := hs.other_memory (init_arena h.mem A.page d cnt) fun w hw => hsame w (by
    have hout := hl.outside_new hw
    unfold arena.last PGSIZE at hout
    unfold ARENA_SIZE
    omega)
  exact ⟨hs'.written.add hmagic (hdesc.trans hd) (hfree.trans hcnt), hs'.lists⟩

/-- The free blocks of a new small arena. -/
theorem Books.add_small (hbooks : Books arenas out F) (hl : Layout descs (A :: arenas))
    (hkind : A.kind = some k) (hF : F k = []) :
    Books (A :: arenas) out (Function.update F k A.blocks) := by
  refine ⟨fun k' hk' x => ?_, fun x hx => ?_, hbooks.nodup⟩
  · by_cases heq : k' = k
    · subst heq
      rw [Function.update_self]
      constructor
      · exact fun hx => ⟨A, List.mem_cons_self, hkind, hx, hbooks.fresh hl hx⟩
      · rintro ⟨B, hB, hkind', hx, hout⟩
        rcases List.mem_cons.mp hB with rfl | hB
        · exact hx
        · have hmem := (hbooks.free k' hk' x).mpr ⟨B, hB, hkind', hx, hout⟩
          rw [hF] at hmem
          cases hmem
    · rw [Function.update_of_ne heq, hbooks.free k' hk']
      constructor
      · rintro ⟨B, hB, hrest⟩
        exact ⟨B, List.mem_cons_of_mem _ hB, hrest⟩
      · rintro ⟨B, hB, hkind', hrest⟩
        rcases List.mem_cons.mp hB with rfl | hB
        · rw [hkind] at hkind'
          exact absurd (Option.some.inj hkind').symm heq
        · exact ⟨B, hB, hkind', hrest⟩
  · obtain ⟨B, hB, hx⟩ := hbooks.owned x hx
    exact ⟨B, List.mem_cons_of_mem _ hB, hx⟩

theorem Place.mono (hx : Place descs arenas x) : Place descs (A :: arenas) x := by
  rcases hx with hx | ⟨B, hB, hx⟩
  · exact .inl hx
  · exact .inr ⟨B, List.mem_cons_of_mem _ hB, hx⟩

/-- The arena that `malloc` gets for descriptor `k`. -/
def small_arena (page k : ℕ) : arena := ⟨page, 1, some k⟩

/-- **A new arena** for an empty free list. -/
theorem Sound.refill_new (hs : Sound descs h arenas out F) (hk : k < CLASSES) (hF : F k = [])
    (hg : Granted descs h.pages grant 1) (hgrant : grant ≠ 0) :
    ∃ h', refill grant (desc descs k) h = .ok (some h')
      ∧ Sound descs h' (small_arena grant k :: arenas) out
        (Function.update F k (small_arena grant k).blocks) := by
  rw [hs.pages] at hg
  let A := small_arena grant k
  have hkind : A.kind = some k := rfl
  have hl : Layout descs (A :: arenas) := hs.layout.add hg hgrant Nat.one_pos fun k' hk' => by
    obtain rfl := Option.some.inj hk'
    exact ⟨hk, rfl⟩
  have hA : A ∈ A :: arenas := List.mem_cons_self
  have hfree : A.free out = A.blocks := by
    unfold arena.free
    exact List.filter_eq_self.mpr fun b hb => decide_eq_true (hs.books.fresh hl hb)
  have hcnt : A.cnt out = per_arena k := by
    rw [(arena.cnt_small hkind out).1, hfree, blocks_small hkind, List.length_map,
      List.length_range]
  have hper : blocks_per_arena h.mem (desc descs k) = per_arena k := (hs.written.sizes k hk).2
  obtain ⟨hw, hlists⟩ := hs.header hl (arena.desc_small hkind).symm hcnt.symm
  let m := init_arena h.mem A.page (desc descs k) (per_arena k)
  have hempty : IsList m (free_list (desc descs k)) [] := hF ▸ hlists k hk
  obtain ⟨m', hloop, hlist', hsame⟩ := fill_loop_eq (i := 0) hl hw hA hkind (Nat.zero_add _)
    (Nat.lt_succ_of_le (per_arena_le k)) hempty
  have hbooks := hs.books.add_small hl hkind hF
  have hplaces : ∀ x ∈ nodes (free_list (desc descs k)) A.blocks, Place descs (A :: arenas) x := by
    have := hbooks.places descs hk
    rwa [Function.update_self] at this
  have hlists' := hl.lists_update hlists
    (fun k' hk' x hx => (hs.books.places descs hk' x hx).mono) hlist'
    hsame hplaces fun k' hk' hne x hx y hy => by
      refine hbooks.lists_apart hl hk' hk hne ?_ ?_
      · rwa [Function.update_of_ne hne]
      · rwa [Function.update_self]
  refine ⟨⟨m', h.desc_cnt, A.range :: h.pages⟩, ?_, hl, hbooks,
    hw.congr (hl.same_kept hsame hplaces), hlists', ?_, hs.cnt⟩
  · have hlist := hs.lists k hk
    rw [hF] at hlist
    unfold refill
    rw [hlist.list_empty_eq, Outcome.ok_bind, if_pos (decide_eq_true rfl)]
    simp only [palloc_get, if_neg hgrant, hper]
    show (fill_loop grant (desc descs k) (PGSIZE + 1) 0 m >>= _) = _
    have hloop : fill_loop grant (desc descs k) (PGSIZE + 1) 0 m = .ok m' := hloop
    rw [hloop]
    rfl
  · show A.range :: h.pages = A.range :: arenas.map arena.range
    rw [hs.pages]

theorem Sound.refill_none (hs : Sound descs h arenas out F) (hk : k < CLASSES) (hF : F k = []) :
    refill 0 (desc descs k) h = .ok none := by
  have hlist := hs.lists k hk
  rw [hF] at hlist
  unfold refill
  rw [hlist.list_empty_eq, Outcome.ok_bind, if_pos (decide_eq_true rfl)]
  rfl

theorem Sound.refill_some (hs : Sound descs h arenas out F) (hk : k < CLASSES) (hF : F k = b :: l) :
    refill grant (desc descs k) h = .ok (some h) := by
  have hlist := hs.lists k hk
  rw [hF] at hlist
  unfold refill
  rw [hlist.list_empty_eq, Outcome.ok_bind, if_neg (by simp)]
  rfl

/-! ## `malloc` -/

/-- **The first loop of `malloc`** stops at the first size that is enough, or at none. -/
theorem find_desc_eq (size : ℕ) (hw : Written descs arenas out m) (hi : i + n = CLASSES) :
    (∃ k < CLASSES, find_desc descs m size n i = some (desc descs k) ∧ size ≤ size_class k)
      ∨ find_desc descs m size n i = none ∧ ∀ k < CLASSES, i ≤ k → size_class k < size := by
  induction n generalizing i with
  | zero => exact .inr ⟨rfl, fun k hk hik => by omega⟩
  | succ n ih =>
      have hi' : i < CLASSES := by omega
      have hsize := (hw.sizes i hi').1
      rw [find_desc, hsize]
      by_cases hge : size_class i ≥ size
      · rw [if_pos hge]
        exact .inl ⟨i, hi', rfl, hge⟩
      · rw [if_neg hge]
        rcases ih (i := i + 1) (by omega) with hfound | ⟨hnone, hall⟩
        · exact .inl hfound
        · refine .inr ⟨hnone, fun k hk hik => ?_⟩
          rcases Nat.eq_or_lt_of_le hik with rfl | hlt
          · omega
          · exact hall k hk hlt

theorem malloc_none (hsize : size ≠ 0) {d : ℕ}
    (hfind : find_desc descs h.mem size h.desc_cnt 0 = some d)
    (hrefill : refill grant d h = .ok none) : malloc descs grant size h = .ok (h, 0) := by
  unfold malloc
  rw [if_neg hsize, hfind]
  show (refill grant d h >>= _) = _
  rw [hrefill]
  rfl

theorem malloc_some (grant : ℕ) (hsize : size ≠ 0) {d : ℕ} {h₁ : store}
    (hfind : find_desc descs h.mem size h.desc_cnt 0 = some d)
    (hrefill : refill grant d h = .ok (some h₁)) :
    malloc descs grant size h = take_block d h₁ := by
  unfold malloc
  rw [if_neg hsize, hfind]
  show (refill grant d h >>= _) = _
  rw [hrefill]
  rfl

/-- **`malloc` of a small block.** -/
theorem Sound.malloc_small (hs : Sound descs h arenas out F) (hsize : size ≠ 0) (hk : k < CLASSES)
    (hfind : find_desc descs h.mem size h.desc_cnt 0 = some (desc descs k))
    (hg : Granted descs h.pages grant 1) :
    (malloc descs grant size h = .ok (h, 0) ∧ grant = 0 ∧ F k = [])
      ∨ ∃ h' b arenas' F' A, malloc descs grant size h = .ok (h', b)
        ∧ Sound descs h' arenas' (b :: out) F' ∧ A ∈ arenas' ∧ A.kind = some k ∧ b ∈ A.blocks
        ∧ (F k ≠ [] ∧ arenas' = arenas
          ∨ F k = [] ∧ arenas' = small_arena grant k :: arenas ∧ A = small_arena grant k) := by
  cases hF : F k with
  | cons b l =>
      obtain ⟨h', A, htake, hs', hA, hkind, hb, -⟩ := hs.take hk hF
      have hmalloc := malloc_some grant hsize hfind (hs.refill_some hk hF)
      exact .inr ⟨h', b, arenas, _, A, hmalloc.trans htake, hs', hA, hkind, hb,
        .inl ⟨List.cons_ne_nil b l, rfl⟩⟩
  | nil =>
      by_cases hgrant : grant = 0
      · subst hgrant
        exact .inl ⟨malloc_none hsize hfind (hs.refill_none hk hF), rfl, rfl⟩
      · obtain ⟨h₁, hrefill, hs₁⟩ := hs.refill_new hk hF hg hgrant
        obtain ⟨b, l, hbl⟩ : ∃ b l, (small_arena grant k).blocks = b :: l := by
          refine List.exists_cons_of_ne_nil ?_
          rw [blocks_small rfl]
          have := per_arena_pos hk
          simp only [ne_eq, List.map_eq_nil_iff, List.range_eq_nil]
          omega
        have hF₁ : Function.update F k (small_arena grant k).blocks k = b :: l := by
          rw [Function.update_self, hbl]
        obtain ⟨h', A, htake, hs', hA, hkind, hb, -⟩ := hs₁.take hk hF₁
        have hnew : A = small_arena grant k := hs₁.layout.same_arena hA List.mem_cons_self hb
          (hbl ▸ List.mem_cons_self)
        exact .inr ⟨h', b, _, _, A, (malloc_some grant hsize hfind hrefill).trans htake, hs',
          hA, hkind, hb, .inr ⟨rfl, rfl, hnew⟩⟩

/-- The arena of a big block. -/
def big_arena (page page_cnt : ℕ) : arena := ⟨page, page_cnt, none⟩

/-- The number of pages that a big block asks for. -/
def big_pages (size : ℕ) : ℕ := ((size + ARENA_SIZE) % 2 ^ 64 + PGSIZE - 1) % 2 ^ 64 / PGSIZE

/-- **`malloc` of more than a small block** takes the pages as they come. -/
theorem malloc_pages (grant : ℕ) (hsize : size ≠ 0)
    (hfind : find_desc descs h.mem size h.desc_cnt 0 = none) :
    malloc descs grant size h = if grant = 0 then .ok (h, 0) else
      .ok (⟨init_arena h.mem grant 0 (big_pages size), h.desc_cnt,
        ⟨grant, big_pages size⟩ :: h.pages⟩, grant + ARENA_SIZE) := by
  unfold malloc
  rw [if_neg hsize, hfind]
  unfold palloc_get
  split_ifs with hgrant
  · rfl
  · exact if_neg hgrant

theorem Books.add_big (hbooks : Books arenas out F) (hl : Layout descs (A :: arenas))
    (hkind : A.kind = none) (hb : b ∈ A.blocks) : Books (A :: arenas) (b :: out) F := by
  refine ⟨fun k' hk' x => ?_, fun x hx => ?_,
    List.nodup_cons.mpr ⟨hbooks.fresh hl hb, hbooks.nodup⟩⟩
  · rw [hbooks.free k' hk']
    constructor
    · rintro ⟨B, hB, hkind', hx, hout⟩
      refine ⟨B, List.mem_cons_of_mem _ hB, hkind', hx, fun hin => ?_⟩
      rcases List.mem_cons.mp hin with rfl | hin
      · have hself := hl.same_arena List.mem_cons_self (List.mem_cons_of_mem _ hB) hb hx
        rw [hself, hkind'] at hkind
        cases hkind
      · exact hout hin
    · rintro ⟨B, hB, hkind', hx, hout⟩
      rcases List.mem_cons.mp hB with rfl | hB
      · rw [hkind] at hkind'
        cases hkind'
      · exact ⟨B, hB, hkind', hx, fun hin => hout (List.mem_cons_of_mem _ hin)⟩
  · rcases List.mem_cons.mp hx with rfl | hx
    · exact ⟨A, List.mem_cons_self, hb⟩
    · obtain ⟨B, hB, hx⟩ := hbooks.owned x hx
      exact ⟨B, List.mem_cons_of_mem _ hB, hx⟩

/-- **`malloc` of a big block.** -/
theorem Sound.malloc_big (hs : Sound descs h arenas out F) (hsize : size ≠ 0)
    (hfind : find_desc descs h.mem size h.desc_cnt 0 = none) (hpages : 0 < big_pages size)
    (hg : Granted descs h.pages grant (big_pages size)) (hgrant : grant ≠ 0) :
    ∃ h', malloc descs grant size h = .ok (h', grant + ARENA_SIZE)
      ∧ Sound descs h' (big_arena grant (big_pages size) :: arenas)
      ((grant + ARENA_SIZE) :: out) F := by
  rw [hs.pages] at hg
  let A := big_arena grant (big_pages size)
  have hkind : A.kind = none := rfl
  have hb : grant + ARENA_SIZE ∈ A.blocks := (mem_blocks_big hkind).mpr rfl
  have hl : Layout descs (A :: arenas) :=
    hs.layout.add hg hgrant hpages fun k hk => by cases hk
  have hcnt : ∀ out, A.cnt out = big_pages size := fun out => rfl
  have hdesc : (0 : ℕ) = A.desc descs := (arena.desc_big hkind).symm
  obtain ⟨hw, hlists⟩ := hs.header hl hdesc (hcnt out).symm
  have hbooks := hs.books.add_big hl hkind hb
  refine ⟨⟨init_arena h.mem grant 0 (big_pages size), h.desc_cnt, A.range :: h.pages⟩, ?_, hl,
    hbooks, ?_, hlists, ?_, hs.cnt⟩
  · rw [malloc_pages grant hsize hfind, if_neg hgrant]
    rfl
  · have hothers : ∀ B ∈ A :: arenas, B ≠ A → B.cnt ((grant + ARENA_SIZE) :: out) = B.cnt out :=
      cnt_other hl List.mem_cons_self hb fun x hx => by rw [List.mem_cons, or_iff_right hx]
    refine ⟨hw.sizes, hw.magic, hw.desc, fun B hB => ?_⟩
    refine (hw.cnt B hB).trans ?_
    by_cases heq : B = A
    · subst heq
      rfl
    · exact (hothers B hB heq).symm
  · show A.range :: h.pages = A.range :: arenas.map arena.range
    rw [hs.pages]

end Pintos.heap
