/-
What the memory of `malloc` holds.

The blocks of all arenas are either outstanding or on the free list of their descriptor, and an
arena counts those on the list. The calls keep this: each takes a block from a list or puts one
back, with new arenas and empty ones in between.
-/
import Pintos.Threads.Arenas

set_option autoImplicit false

namespace Pintos.heap

open klib (words IsList SameElse nodes Placed)

/-! ## The books -/

/-- The blocks of an arena that are not outstanding. -/
def arena.free (A : arena) (out : List ℕ) : List ℕ := A.blocks.filter fun b => decide (b ∉ out)

/-- What `desc` is in the header of an arena. -/
def arena.desc (descs : ℕ) (A : arena) : ℕ :=
  match A.kind with
  | some k => heap.desc descs k
  | none => 0

/-- What `free_cnt` is in the header of an arena. -/
def arena.cnt (A : arena) (out : List ℕ) : ℕ :=
  match A.kind with
  | some _ => (A.free out).length
  | none => A.page_cnt

/-- The pages of an arena. -/
def arena.range (A : arena) : palloc.range := ⟨A.page, A.page_cnt⟩

/-- The words that are kept besides links. -/
structure Written (descs : ℕ) (arenas : List arena) (out : List ℕ) (m : words) : Prop where
  sizes : ∀ k < CLASSES, desc_block_size m (desc descs k) = size_class k
    ∧ blocks_per_arena m (desc descs k) = per_arena k
  magic : ∀ A ∈ arenas, magic m A.page = ARENA_MAGIC
  desc : ∀ A ∈ arenas, arena_desc m A.page = A.desc descs
  cnt : ∀ A ∈ arenas, free_cnt m A.page = A.cnt out

/-- The blocks `out` are outstanding, and `F k` are those on the free list of descriptor `k`. -/
structure Books (arenas : List arena) (out : List ℕ) (F : ℕ → List ℕ) : Prop where
  free : ∀ k < CLASSES, ∀ b, b ∈ F k ↔ ∃ A ∈ arenas, A.kind = some k ∧ b ∈ A.blocks ∧ b ∉ out
  owned : ∀ b ∈ out, ∃ A ∈ arenas, b ∈ A.blocks
  nodup : out.Nodup

/-- The books are in memory. -/
structure Sound (descs : ℕ) (h : store) (arenas : List arena) (out : List ℕ) (F : ℕ → List ℕ) :
    Prop where
  layout : Layout descs arenas
  books : Books arenas out F
  written : Written descs arenas out h.mem
  lists : ∀ k < CLASSES, IsList h.mem (free_list (desc descs k)) (F k)
  pages : h.pages = arenas.map arena.range
  cnt : h.desc_cnt = CLASSES

section Frame

variable {descs : ℕ} {h : store} {arenas : List arena} {out out' : List ℕ} {F : ℕ → List ℕ}
  {m m' : words} {A : arena} {b k k' x y w : ℕ} {ns l : List ℕ}

theorem Written.congr (hw : Written descs arenas out m)
    (hsame : ∀ w, Kept descs arenas w → m' w = m w) : Written descs arenas out m' := by
  have hdesc : ∀ k < CLASSES, Kept descs arenas (heap.desc descs k)
      ∧ Kept descs arenas (heap.desc descs k + 8) :=
    fun k hk => ⟨.inl ⟨k, hk, .inl rfl⟩, .inl ⟨k, hk, .inr rfl⟩⟩
  constructor
  · intro k hk
    unfold desc_block_size blocks_per_arena
    rw [hsame _ (hdesc k hk).1, hsame _ (hdesc k hk).2]
    exact hw.sizes k hk
  · intro A hA
    unfold heap.magic
    rw [hsame _ (.inr ⟨A, hA, .inl rfl⟩)]
    exact hw.magic A hA
  · intro A hA
    unfold arena_desc
    rw [hsame _ (.inr ⟨A, hA, .inr (.inl rfl)⟩)]
    exact hw.desc A hA
  · intro A hA
    unfold free_cnt
    rw [hsame _ (.inr ⟨A, hA, .inr (.inr rfl)⟩)]
    exact hw.cnt A hA

/-- Changed links leave the rest alone. -/
theorem Layout.same_kept (hl : Layout descs arenas) (hsame : SameElse ns m m')
    (hns : ∀ x ∈ ns, Place descs arenas x) : ∀ w, Kept descs arenas w → m' w = m w :=
  fun w hw => hsame w fun x hx => hl.place_ne_kept (hns x hx) hw

/-- Places of their own make a list. -/
theorem Layout.placed (hl : Layout descs arenas) (hnd : ns.Nodup)
    (hns : ∀ x ∈ ns, Place descs arenas x) : Placed ns := by
  refine ⟨hnd, fun hzero => hl.place_pos (hns 0 hzero) rfl, fun a ha b hb => ?_⟩
  by_cases heq : a = b
  · omega
  · rcases hl.places_apart (hns a ha) (hns b hb) heq with hlt | hlt <;> omega

/-- A list whose links did not change. -/
theorem Layout.list_other (hl : Layout descs arenas) {list : ℕ} (hlist : IsList m list l)
    (hsame : SameElse ns m m') (hns : ∀ x ∈ ns, Place descs arenas x)
    (hplaces : ∀ x ∈ nodes list l, Place descs arenas x)
    (hapart : ∀ x ∈ nodes list l, ∀ y ∈ ns, x ≠ y) : IsList m' list l := by
  have hword : ∀ x ∈ nodes list l, ∀ y ∈ ns, x + 16 ≤ y ∨ y + 16 ≤ x := fun x hx y hy =>
    hl.places_apart (hplaces x hx) (hns y hy) (hapart x hx y hy)
  refine hlist.congr (fun x hx => hsame x fun y hy => ?_) fun x hx => hsame (x + 8) fun y hy => ?_
  · rcases hword x hx y hy with hlt | hlt <;> omega
  · rcases hword x hx y hy with hlt | hlt <;> omega

/-- A list does not care about the rest. -/
theorem Layout.list_kept (hl : Layout descs arenas) {list : ℕ} (hlist : IsList m list l)
    (hplaces : ∀ x ∈ nodes list l, Place descs arenas x) (hw : Kept descs arenas w) (v : ℕ) :
    IsList (Function.update m w v) list l := by
  refine hlist.congr (fun x hx => ?_) fun x hx => ?_
  · exact Function.update_of_ne (hl.place_ne_kept (hplaces x hx) hw).1.symm v m
  · exact Function.update_of_ne (hl.place_ne_kept (hplaces x hx) hw).2.symm v m

theorem mem_nodes_iff {list : ℕ} : x ∈ nodes list l ↔ x = list ∨ x = klib.tail list ∨ x ∈ l := by
  simp [nodes, or_comm]

/-- The links of a list of blocks behind a descriptor. -/
theorem places_of_blocks (descs : ℕ) (hk : k < CLASSES)
    (hblocks : ∀ x ∈ l, ∃ A ∈ arenas, x ∈ A.blocks) :
    ∀ x ∈ nodes (free_list (desc descs k)) l, Place descs arenas x := by
  intro x hx
  rcases mem_nodes_iff.mp hx with hx | hx | hx
  · exact .inl ⟨k, hk, .inl hx⟩
  · exact .inl ⟨k, hk, .inr hx⟩
  · exact .inr (hblocks x hx)

/-- The links of a free list. -/
theorem Books.places (hb : Books arenas out F) (descs : ℕ) (hk : k < CLASSES) :
    ∀ x ∈ nodes (free_list (desc descs k)) (F k), Place descs arenas x := by
  refine places_of_blocks descs hk fun x hx => ?_
  obtain ⟨A, hA, -, hblock, -⟩ := (hb.free k hk x).mp hx
  exact ⟨A, hA, hblock⟩

/-- The links of different free lists. -/
theorem Books.lists_apart (hb : Books arenas out F) (hl : Layout descs arenas) (hk : k < CLASSES)
    (hk' : k' < CLASSES) (hne : k ≠ k') (hx : x ∈ nodes (free_list (desc descs k)) (F k))
    (hy : y ∈ nodes (free_list (desc descs k')) (F k')) : x ≠ y := by
  have hends : ∀ {k x}, x ∈ nodes (free_list (desc descs k)) (F k) →
      (x = free_list (desc descs k) ∨ x = klib.tail (free_list (desc descs k))) ∨ x ∈ F k := by
    intro k x hx
    rcases mem_nodes_iff.mp hx with hx | hx | hx
    · exact .inl (.inl hx)
    · exact .inl (.inr hx)
    · exact .inr hx
  rintro rfl
  rcases hends hx with hx | hx
  · rcases hends hy with hy | hy
    · unfold klib.tail free_list desc DESC_SIZE at hx hy
      omega
    · obtain ⟨A, hA, -, hblock, -⟩ := (hb.free k' hk' x).mp hy
      rcases hl.end_block_apart hk hx hA hblock with hlt | hlt <;> omega
  · obtain ⟨A, hA, hkind, hblock, -⟩ := (hb.free k hk x).mp hx
    rcases hends hy with hy | hy
    · rcases hl.end_block_apart hk' hy hA hblock with hlt | hlt <;> omega
    · obtain ⟨B, hB, hkind', hblock', -⟩ := (hb.free k' hk' x).mp hy
      have hAB := hl.same_arena hA hB hblock hblock'
      rw [hAB, hkind'] at hkind
      exact hne (Option.some.inj hkind).symm

/-! ## Other memory -/

/-- The words that nobody else may change: the descriptors, and the arenas but for the
outstanding blocks. -/
def Protected (descs : ℕ) (arenas : List arena) (out : List ℕ) (w : ℕ) : Prop :=
  (descs ≤ w ∧ w < descs + 10 * DESC_SIZE)
    ∨ ∃ A ∈ arenas, A.page ≤ w ∧ w < A.last
      ∧ ∀ b ∈ out, b ∈ A.blocks → w < b ∨ b + A.bytes ≤ w

theorem Layout.kept_protected (hl : Layout descs arenas) (hw : Kept descs arenas w) :
    Protected descs arenas out w := by
  rcases hw with ⟨k, hk, hw⟩ | ⟨A, hA, hw⟩
  · refine .inl ?_
    unfold CLASSES at hk
    unfold desc at hw
    unfold DESC_SIZE at *
    omega
  · have hpos := (hl.ok A hA).pos
    refine .inr ⟨A, hA, by omega, ?_, fun b _ hblock => .inl ?_⟩
    · unfold arena.last PGSIZE
      omega
    · have hheader := ((hl.ok A hA).within hblock).header
      unfold ARENA_SIZE at hheader
      omega

/-- **Other memory** may change as it likes. -/
theorem Sound.other_memory (hs : Sound descs h arenas out F) (m' : words)
    (hsame : ∀ w, Protected descs arenas out w → m' w = h.mem w) :
    Sound descs { h with mem := m' } arenas out F := by
  have hlink : ∀ k < CLASSES, ∀ x ∈ nodes (free_list (desc descs k)) (F k),
      Protected descs arenas out x ∧ Protected descs arenas out (x + 8) := by
    intro k hk x hx
    rcases mem_nodes_iff.mp hx with hend | hend | hx
    · have := desc_place hk (.inl hend)
      exact ⟨.inl (by omega), .inl (by omega)⟩
    · have := desc_place hk (.inr hend)
      exact ⟨.inl (by omega), .inl (by omega)⟩
    · obtain ⟨A, hA, -, hblock, hfree⟩ := (hs.books.free k hk x).mp hx
      have hin := (hs.layout.ok A hA).within hblock
      have h₁ := hin.header
      have h₂ := hin.last
      have h₃ := hin.room
      have hother : ∀ b ∈ out, b ∈ A.blocks → x + A.bytes ≤ b ∨ b + A.bytes ≤ x := by
        intro b hb hb'
        refine heap.blocks_apart hblock hb' ?_
        rintro rfl
        exact hfree hb
      refine ⟨.inr ⟨A, hA, by omega, by omega, fun b hb hb' => ?_⟩,
        .inr ⟨A, hA, by omega, by omega, fun b hb hb' => ?_⟩⟩
      · rcases hother b hb hb' with hlt | hlt <;> omega
      · rcases hother b hb hb' with hlt | hlt <;> omega
  refine ⟨hs.layout, hs.books, hs.written.congr fun w hw => hsame w (hs.layout.kept_protected hw),
    fun k hk => (hs.lists k hk).congr (fun x hx => ?_) fun x hx => ?_, hs.pages, hs.cnt⟩
  · exact hsame x (hlink k hk x hx).1
  · exact hsame (x + 8) (hlink k hk x hx).2

/-! ## Headers -/

theorem arena.cnt_small (hA : A.kind = some k) (out : List ℕ) :
    A.cnt out = (A.free out).length ∧ A.cnt out ≤ per_arena k := by
  have hcnt : A.cnt out = (A.free out).length := by
    unfold arena.cnt
    rw [hA]
  refine ⟨hcnt, ?_⟩
  have hle := List.length_filter_le (fun b => decide (b ∉ out)) A.blocks
  have hblocks : A.blocks.length = per_arena k := by
    unfold arena.blocks
    rw [hA]
    simp
  rw [hcnt, ← hblocks]
  exact hle

theorem desc_ne_zero (hl : Layout descs arenas) (k : ℕ) : desc descs k ≠ 0 := by
  have := hl.descs_pos
  unfold desc
  omega

theorem arena.desc_small (hA : A.kind = some k) : A.desc descs = heap.desc descs k := by
  unfold arena.desc
  rw [hA]

theorem arena.desc_big (hA : A.kind = none) : A.desc descs = 0 := by
  unfold arena.desc
  rw [hA]

/-- **`block_to_arena`**: its assertions hold of every block. -/
theorem Written.block_to_arena_eq (hw : Written descs arenas out m) (hl : Layout descs arenas)
    (hA : A ∈ arenas) (hb : b ∈ A.blocks) : block_to_arena m b = .ok A.page := by
  have hok := hl.ok A hA
  obtain ⟨hpage, hofs⟩ := hok.page_of hb
  have hpos := hok.page_pos
  have hdesc := hw.desc A hA
  unfold block_to_arena
  simp only [hpage, hofs]
  rw [Outcome.assert_pos (by omega), Outcome.ok_bind, Outcome.assert_pos (hw.magic A hA),
    Outcome.ok_bind, hdesc]
  cases hkind : A.kind with
  | none =>
      have hblock := (mem_blocks_big hkind).mp hb
      rw [arena.desc_big hkind, Outcome.assert_pos (.inl rfl), Outcome.ok_bind,
        Outcome.assert_pos (.inr (by omega))]
      rfl
  | some k =>
      obtain ⟨i, hi, rfl⟩ := (mem_blocks_small hkind).mp hb
      have hend := block_end_le hi
      have hsize := (hw.sizes k (hok.kind k hkind).1).1
      have halign : (A.page + ARENA_SIZE + i * size_class k - A.page + 2 ^ 64 - ARENA_SIZE) % 2 ^ 64
          = i * size_class k := by
        unfold PGSIZE at hend
        omega
      rw [arena.desc_small hkind, halign, hsize,
        Outcome.assert_pos (.inr (Nat.mul_mod_left i (size_class k))), Outcome.ok_bind,
        Outcome.assert_pos (.inl (desc_ne_zero hl k))]
      rfl

/-- **`arena_to_block`.** -/
theorem Written.arena_to_block_eq (hw : Written descs arenas out m) (hl : Layout descs arenas)
    (hA : A ∈ arenas) (hkind : A.kind = some k) {i : ℕ} (hi : i < per_arena k) :
    arena_to_block m A.page i = .ok (A.page + ARENA_SIZE + i * size_class k) := by
  have hok := hl.ok A hA
  have hpos := hok.page_pos
  obtain ⟨hsize, hper⟩ := hw.sizes k (hok.kind k hkind).1
  unfold arena_to_block
  rw [Outcome.assert_pos (by omega), Outcome.ok_bind, Outcome.assert_pos (hw.magic A hA),
    Outcome.ok_bind, hw.desc A hA, arena.desc_small hkind, hper, Outcome.assert_pos hi, hsize]
  rfl

/-- The headers of different arenas. -/
theorem Layout.cnt_apart (hl : Layout descs arenas) (hA : A ∈ arenas) : ∀ B ∈ arenas, B ≠ A →
    A.page + 16 ≠ B.page ∧ A.page + 16 ≠ B.page + 8 ∧ A.page + 16 ≠ B.page + 16 := by
  intro B hB hne
  have hA' := (hl.ok A hA).pos
  have hB' := (hl.ok B hB).pos
  have hsize : ∀ C : arena, 0 < C.page_cnt → C.page + 4096 ≤ C.last := by
    intro C hC
    unfold arena.last PGSIZE
    omega
  have := hsize A hA'
  have := hsize B hB'
  rcases hl.arenas_apart hA hB (Ne.symm hne) with hlt | hlt <;> omega

/-- **`free_cnt` is set.** -/
theorem Written.set_cnt (hw : Written descs arenas out m) (hl : Layout descs arenas)
    (hA : A ∈ arenas) (hothers : ∀ B ∈ arenas, B ≠ A → B.cnt out' = B.cnt out) :
    Written descs arenas out' (set_free_cnt m A.page (A.cnt out')) := by
  have hpage : ∀ B ∈ arenas, A.page + 16 ≠ B.page ∧ A.page + 16 ≠ B.page + 8 := by
    intro B hB
    by_cases heq : B = A
    · subst heq
      omega
    · have := hl.cnt_apart hA B hB heq
      exact ⟨this.1, this.2.1⟩
  have hdesc : ∀ k < CLASSES, A.page + 16 ≠ heap.desc descs k
      ∧ A.page + 16 ≠ heap.desc descs k + 8 := by
    intro k hk
    have hpos := (hl.ok A hA).pos
    have hapart := hl.descs_apart A hA
    unfold heap.desc
    unfold CLASSES at hk
    unfold arena.last PGSIZE DESC_SIZE at *
    omega
  constructor
  · intro k hk
    unfold desc_block_size blocks_per_arena set_free_cnt
    rw [Function.update_of_ne (hdesc k hk).1.symm, Function.update_of_ne (hdesc k hk).2.symm]
    exact hw.sizes k hk
  · intro B hB
    unfold heap.magic set_free_cnt
    rw [Function.update_of_ne (hpage B hB).1.symm]
    exact hw.magic B hB
  · intro B hB
    unfold arena_desc set_free_cnt
    rw [Function.update_of_ne (hpage B hB).2.symm]
    exact hw.desc B hB
  · intro B hB
    unfold free_cnt set_free_cnt
    by_cases heq : B = A
    · subst heq
      rw [Function.update_self]
    · rw [Function.update_of_ne (hl.cnt_apart hA B hB heq).2.2.symm]
      exact (hw.cnt B hB).trans (hothers B hB heq).symm

/-- The free lists when one of them changes. -/
theorem Layout.lists_update (hl : Layout descs arenas)
    (hlists : ∀ k < CLASSES, IsList m (free_list (desc descs k)) (F k))
    (hplaces : ∀ k < CLASSES, ∀ x ∈ nodes (free_list (desc descs k)) (F k), Place descs arenas x)
    (hlist : IsList m' (free_list (desc descs k)) l) (hsame : SameElse ns m m')
    (hns : ∀ x ∈ ns, Place descs arenas x)
    (hother : ∀ k' < CLASSES, k' ≠ k →
      ∀ x ∈ nodes (free_list (desc descs k')) (F k'), ∀ y ∈ ns, x ≠ y) :
    ∀ k' < CLASSES, IsList m' (free_list (desc descs k')) (Function.update F k l k') := by
  intro k' hk'
  by_cases heq : k' = k
  · subst heq
    rwa [Function.update_self]
  · rw [Function.update_of_ne heq]
    exact hl.list_other (hlists k' hk') hsame hns (hplaces k' hk') (hother k' hk' heq)

/-! ## One block -/

theorem free_congr (h : ∀ b ∈ A.blocks, b ∈ out ↔ b ∈ out') : A.free out = A.free out' := by
  unfold arena.free
  exact List.filter_congr fun b hb => decide_eq_decide.mpr (not_congr (h b hb))

/-- One more block is outstanding. -/
theorem free_cons (hb : b ∈ A.blocks) (hout : b ∉ out) :
    (A.free out).length = (A.free (b :: out)).length + 1 := by
  have hmem : b ∈ A.free out := List.mem_filter.mpr ⟨hb, decide_eq_true hout⟩
  have hnd : (A.free out).Nodup := (blocks_nodup A).filter _
  have hrest : A.free (b :: out) = (A.free out).erase b := by
    rw [hnd.erase_eq_filter]
    unfold arena.free
    rw [List.filter_filter]
    refine List.filter_congr fun x _ => ?_
    by_cases hx : x = b
    · simp [hx]
    · simp [hx]
  rw [hrest, List.length_erase_of_mem hmem]
  have := List.length_pos_of_mem hmem
  omega

theorem cnt_other (hl : Layout descs arenas) (hA : A ∈ arenas) (hb : b ∈ A.blocks)
    (hout : ∀ x, x ≠ b → (x ∈ out' ↔ x ∈ out)) : ∀ B ∈ arenas, B ≠ A → B.cnt out' = B.cnt out := by
  intro B hB hne
  unfold arena.cnt
  rw [free_congr fun x hx => hout x ?_]
  rintro rfl
  exact hne (hl.same_arena hB hA hx hb)

/-- A block leaves its free list. -/
theorem Books.take (hbooks : Books arenas out F) (hl : Layout descs arenas) (hk : k < CLASSES)
    (hF : F k = b :: l) (hnd : (b :: l).Nodup) :
    Books arenas (b :: out) (Function.update F k l) := by
  obtain ⟨A, hA, hkind, hb, hout⟩ := (hbooks.free k hk b).mp (hF ▸ List.mem_cons_self)
  refine ⟨fun k' hk' x => ?_, fun x hx => ?_, List.nodup_cons.mpr ⟨hout, hbooks.nodup⟩⟩
  · by_cases heq : k' = k
    · subst heq
      have hmem : x ∈ l ↔ x ∈ F k' ∧ x ≠ b := by
        rw [hF, List.mem_cons]
        constructor
        · intro hx
          refine ⟨.inr hx, ?_⟩
          rintro rfl
          exact (List.nodup_cons.mp hnd).1 hx
        · rintro ⟨rfl | hx, hne⟩
          · exact absurd rfl hne
          · exact hx
      rw [Function.update_self, hmem, hbooks.free k' hk']
      constructor
      · rintro ⟨⟨B, hB, hkind', hx, hfree⟩, hne⟩
        exact ⟨B, hB, hkind', hx, fun hin => (List.mem_cons.mp hin).elim hne hfree⟩
      · rintro ⟨B, hB, hkind', hx, hfree⟩
        exact ⟨⟨B, hB, hkind', hx, fun hin => hfree (List.mem_cons_of_mem _ hin)⟩,
          fun hxb => hfree (List.mem_cons.mpr (.inl hxb))⟩
    · rw [Function.update_of_ne heq, hbooks.free k' hk']
      refine exists_congr fun B => and_congr_right fun hB => and_congr_right fun hkind' =>
        and_congr_right fun hx => ⟨fun hfree hin => ?_, fun hfree hin => ?_⟩
      · rcases List.mem_cons.mp hin with rfl | hin
        · rw [hl.same_arena hB hA hx hb, hkind] at hkind'
          exact heq (Option.some.inj hkind').symm
        · exact hfree hin
      · exact hfree (List.mem_cons_of_mem _ hin)
  · rcases List.mem_cons.mp hx with rfl | hx
    · exact ⟨A, hA, hb⟩
    · exact hbooks.owned x hx

/-- A block is put back on its free list. -/
theorem Books.give (hbooks : Books arenas out F) (hl : Layout descs arenas) (hA : A ∈ arenas)
    (hkind : A.kind = some k) (hb : b ∈ A.blocks) (hout : b ∈ out) :
    Books arenas (out.erase b) (Function.update F k (b :: F k)) := by
  have herase : ∀ x, x ∈ out.erase b ↔ x ∈ out ∧ x ≠ b := fun x => by
    rw [hbooks.nodup.mem_erase_iff, and_comm]
  refine ⟨fun k' hk' x => ?_, fun x hx => hbooks.owned x ((herase x).mp hx).1, hbooks.nodup.erase b⟩
  have hfree : ∀ x, x ≠ b → ((∃ B ∈ arenas, B.kind = some k' ∧ x ∈ B.blocks ∧ x ∉ out)
      ↔ ∃ B ∈ arenas, B.kind = some k' ∧ x ∈ B.blocks ∧ x ∉ out.erase b) := by
    intro x hx
    refine exists_congr fun B => and_congr_right fun _ => and_congr_right fun _ =>
      and_congr_right fun _ => ?_
    rw [herase, and_iff_left hx]
  by_cases hx : x = b
  · subst hx
    have hnot : x ∉ out.erase x := fun hin => ((herase x).mp hin).2 rfl
    by_cases heq : k' = k
    · subst heq
      rw [Function.update_self]
      exact iff_of_true List.mem_cons_self ⟨A, hA, hkind, hb, hnot⟩
    · rw [Function.update_of_ne heq, hbooks.free k' hk']
      refine iff_of_false (fun ⟨B, hB, hkind', hx', hfree⟩ => hfree hout) ?_
      rintro ⟨B, hB, hkind', hx', -⟩
      rw [hl.same_arena hB hA hx' hb, hkind] at hkind'
      exact heq (Option.some.inj hkind').symm
  · rw [← hfree x hx, ← hbooks.free k' hk']
    by_cases heq : k' = k
    · subst heq
      rw [Function.update_self, List.mem_cons, or_iff_right hx]
    · rw [Function.update_of_ne heq]

/-- **A block is taken** from the front of a free list. -/
theorem Sound.take (hs : Sound descs h arenas out F) (hk : k < CLASSES) (hF : F k = b :: l) :
    ∃ h' A, take_block (desc descs k) h = .ok (h', b)
      ∧ Sound descs h' arenas (b :: out) (Function.update F k l)
      ∧ A ∈ arenas ∧ A.kind = some k ∧ b ∈ A.blocks ∧ h'.pages = h.pages := by
  obtain ⟨A, hA, hkind, hb, hout⟩ := (hs.books.free k hk b).mp (hF ▸ List.mem_cons_self)
  have hlist := hs.lists k hk
  rw [hF] at hlist
  have hnd := hlist.nodup
  obtain ⟨m, hpop, hlist', hsame⟩ := hlist.pop_front
  have hsub : ∀ x ∈ nodes (free_list (desc descs k)) l,
      x ∈ nodes (free_list (desc descs k)) (F k) := by
    intro x hx
    rw [mem_nodes_iff] at hx ⊢
    rw [hF, List.mem_cons]
    tauto
  have hplaces : ∀ x ∈ nodes (free_list (desc descs k)) l, Place descs arenas x :=
    fun x hx => hs.books.places descs hk x (hsub x hx)
  have hlists := hs.layout.lists_update hs.lists (fun _ hk => hs.books.places descs hk) hlist' hsame
    hplaces fun k' hk' hne x hx y hy =>
      hs.books.lists_apart hs.layout hk' hk hne hx (hsub y hy)
  have hwritten := hs.written.congr (hs.layout.same_kept hsame hplaces)
  have hbooks := hs.books.take hs.layout hk hF hnd
  -- the arena has one free block less
  have hcnt : (free_cnt m A.page + 2 ^ 64 - 1) % 2 ^ 64 = A.cnt (b :: out) := by
    obtain ⟨hcnt, hle⟩ := arena.cnt_small hkind out
    have hone := free_cons hb hout
    have hper := per_arena_le k
    rw [hwritten.cnt A hA, (arena.cnt_small hkind (b :: out)).1]
    unfold PGSIZE at hper
    omega
  refine ⟨{ h with mem := set_free_cnt m A.page (A.cnt (b :: out)) }, A, ?_,
    ⟨hs.layout, hbooks, hwritten.set_cnt hs.layout hA ?_, fun k' hk' => ?_, hs.pages, hs.cnt⟩,
    hA, hkind, hb, rfl⟩
  · unfold take_block
    rw [hpop]
    show (block_to_arena m b >>= _) = _
    rw [hwritten.block_to_arena_eq hs.layout hA hb, Outcome.ok_bind, hcnt]
    rfl
  · exact cnt_other hs.layout hA hb fun x hx => by rw [List.mem_cons, or_iff_right hx]
  · exact hs.layout.list_kept (hlists k' hk') (hbooks.places descs hk')
      (.inr ⟨A, hA, .inr (.inr rfl)⟩) _

end Frame

end Pintos.heap
