/-
What `free` does.

A block goes back to its free list. When it was the last of its arena that was outstanding, all
blocks of the arena are on the list; they are taken off it, and the page is given back.
-/
import Pintos.Threads.MallocCalls

set_option autoImplicit false

namespace Pintos.heap

open klib (words IsList SameElse nodes Placed)

variable {descs : ℕ} {h : store} {arenas : List arena} {out : List ℕ} {F : ℕ → List ℕ}
  {m m' : words} {A B : arena} {b k x w i n fuel : ℕ} {l : List ℕ}

/-! ## An arena less -/

theorem Layout.nodup (hl : Layout descs arenas) : arenas.Nodup := by
  refine hl.apart.imp_of_mem fun {A B} hA _ hab => ?_
  rintro rfl
  have hpos := (hl.ok A hA).pos
  unfold Apart arena.last PGSIZE at hab
  omega

theorem Layout.mem_erase (hl : Layout descs arenas) : B ∈ arenas.erase A ↔ B ≠ A ∧ B ∈ arenas :=
  hl.nodup.mem_erase_iff

theorem Layout.erase (hl : Layout descs arenas) (A : arena) : Layout descs (arenas.erase A) where
  ok B hB := hl.ok B (List.mem_of_mem_erase hB)
  apart := hl.apart.sublist List.erase_sublist
  descs_apart B hB := hl.descs_apart B (List.mem_of_mem_erase hB)
  descs_pos := hl.descs_pos

/-- Arenas lie at different pages. -/
theorem Layout.map_erase (hl : Layout descs arenas) (hA : A ∈ arenas) :
    (arenas.map arena.range).erase A.range = (arenas.erase A).map arena.range := by
  have hinj : ∀ B ∈ arenas, B.range = A.range → B = A := by
    intro B hB heq
    by_contra hne
    have hpage : B.page = A.page := congrArg palloc.range.pages heq
    have hcnt : B.page_cnt = A.page_cnt := congrArg palloc.range.page_cnt heq
    have hpos := (hl.ok A hA).pos
    have hapart := hl.arenas_apart hB hA hne
    unfold Apart arena.last PGSIZE at hapart
    rw [hpage, hcnt] at hapart
    omega
  clear hl hA
  induction arenas with
  | nil => rfl
  | cons B arenas ih =>
      by_cases heq : B = A
      · subst heq
        rw [List.map_cons, List.erase_cons_head, List.erase_cons_head]
      · have hne : B.range ≠ A.range := fun hr => heq (hinj B List.mem_cons_self hr)
        rw [List.map_cons, List.erase_cons_tail (by simpa using hne),
          List.erase_cons_tail (by simpa using heq), List.map_cons,
          ih fun C hC => hinj C (List.mem_cons_of_mem _ hC)]

/-- **The pages of an arena are given back.** -/
theorem Layout.give_back (hl : Layout descs arenas) (hA : A ∈ arenas)
    (hw : Written descs (arenas.erase A) out m) (hbooks : Books (arenas.erase A) out F)
    (hlists : ∀ k < CLASSES, IsList m (free_list (desc descs k)) (F k))
    (hpages : h.pages = arenas.map arena.range) (hcnt : h.desc_cnt = CLASSES) :
    ∃ h', palloc_free A.page A.page_cnt { h with mem := m } = .ok h'
      ∧ Sound descs h' (arenas.erase A) out F ∧ h'.pages = h.pages.erase A.range := by
  have hok := hl.ok A hA
  have haligned := hok.aligned
  have hnonzero : ¬ (A.page = 0 ∨ A.page_cnt = 0) := by
    have := hok.page_pos
    have := hok.pos
    omega
  have hmem : (⟨A.page, A.page_cnt⟩ : palloc.range) ∈ h.pages := by
    rw [hpages]
    exact List.mem_map_of_mem hA
  have hs : Sound descs { h with mem := m, pages := h.pages.erase A.range }
      (arenas.erase A) out F :=
    ⟨hl.erase A, hbooks, hw, hlists, by rw [← hl.map_erase hA, hpages], hcnt⟩
  refine ⟨_, ?_, hs.other_memory (set_bytes m A.page 0xcc (PGSIZE * A.page_cnt)) fun w hprot => ?_,
    rfl⟩
  · have hfill : memset m A.page 0xcc (PGSIZE * A.page_cnt)
        = .ok (set_bytes m A.page 0xcc (PGSIZE * A.page_cnt)) := if_pos hok.last_le
    unfold palloc_free
    rw [Outcome.assert_pos haligned, Outcome.ok_bind, if_neg hnonzero, if_pos hmem]
    show (memset m A.page 0xcc (PGSIZE * A.page_cnt) >>= _) = _
    rw [hfill]
    rfl
  · refine set_bytes_other (by unfold PGSIZE at haligned; omega) ?_
    rcases hprot with ⟨h₁, h₂⟩ | ⟨B, hB, h₁, h₂, -⟩
    · have hapart := hl.descs_apart A hA
      unfold arena.last at hapart
      omega
    · obtain ⟨hne, hB⟩ := hl.mem_erase.mp hB
      have hapart := hl.arenas_apart hB hA hne
      unfold Apart arena.last at hapart
      unfold arena.last at h₂
      omega

theorem Written.erase (hw : Written descs arenas out m) (A : arena) :
    Written descs (arenas.erase A) out m where
  sizes := hw.sizes
  magic B hB := hw.magic B (List.mem_of_mem_erase hB)
  desc B hB := hw.desc B (List.mem_of_mem_erase hB)
  cnt B hB := hw.cnt B (List.mem_of_mem_erase hB)

/-- An arena without outstanding blocks leaves the books. -/
theorem Books.drop (hbooks : Books arenas out F) (hl : Layout descs arenas) (hA : A ∈ arenas)
    (hidle : ∀ b ∈ A.blocks, b ∉ out) (F' : ℕ → List ℕ)
    (hF : ∀ k < CLASSES, ∀ x, x ∈ F' k ↔ x ∈ F k ∧ ¬ (A.kind = some k ∧ x ∈ A.blocks)) :
    Books (arenas.erase A) out F' := by
  refine ⟨fun k hk x => ?_, fun x hx => ?_, hbooks.nodup⟩
  · rw [hF k hk, hbooks.free k hk]
    constructor
    · rintro ⟨⟨B, hB, hkind, hx, hout⟩, hnot⟩
      refine ⟨B, hl.mem_erase.mpr ⟨?_, hB⟩, hkind, hx, hout⟩
      rintro rfl
      exact hnot ⟨hkind, hx⟩
    · rintro ⟨B, hB, hkind, hx, hout⟩
      obtain ⟨hne, hB⟩ := hl.mem_erase.mp hB
      exact ⟨⟨B, hB, hkind, hx, hout⟩, fun hin => hne (hl.same_arena hB hA hx hin.2)⟩
  · obtain ⟨B, hB, hin⟩ := hbooks.owned x hx
    refine ⟨B, hl.mem_erase.mpr ⟨?_, hB⟩, hin⟩
    rintro rfl
    exact hidle x hin hx

/-! ## Small blocks -/

theorem block_inj {j : ℕ} (h : A.page + ARENA_SIZE + i * size_class k
    = A.page + ARENA_SIZE + j * size_class k) : i = j := by
  have hmul : i * size_class k = j * size_class k := by omega
  exact Nat.eq_of_mul_eq_mul_right (Nat.lt_of_lt_of_le (by omega) (size_class_ge k)) hmul

/-- **The loop of `free`** takes the blocks of an arena off their list, by induction on those to
go. -/
theorem unlink_loop_eq (hl : Layout descs arenas) (hw : Written descs arenas out m)
    (hA : A ∈ arenas) (hkind : A.kind = some k) (hi : i + n = per_arena k) (hf : n < fuel)
    (hlist : IsList m (free_list (desc descs k)) l) (hblocks : ∀ x ∈ l, ∃ B ∈ arenas, x ∈ B.blocks)
    (hin : ∀ j, i ≤ j → j < per_arena k → A.page + ARENA_SIZE + j * size_class k ∈ l) :
    ∃ m' l', unlink_loop A.page (desc descs k) fuel i m = .ok m'
      ∧ IsList m' (free_list (desc descs k)) l'
      ∧ (∀ x, x ∈ l' ↔ x ∈ l
        ∧ ∀ j, i ≤ j → j < per_arena k → x ≠ A.page + ARENA_SIZE + j * size_class k)
      ∧ SameElse (nodes (free_list (desc descs k)) l) m m' := by
  have hk := ((hl.ok A hA).kind k hkind).1
  induction n generalizing m i fuel l with
  | zero =>
      obtain ⟨fuel, rfl⟩ : ∃ f, fuel = f + 1 := ⟨fuel - 1, by omega⟩
      have hend : ¬ i < blocks_per_arena m (desc descs k) := by
        rw [(hw.sizes k hk).2]
        omega
      refine ⟨m, l, ?_, hlist, fun x => (and_iff_left fun j h₁ h₂ => ?_).symm, SameElse.refl _ _⟩
      · rw [unlink_loop, if_neg hend]
        rfl
      · omega
  | succ n ih =>
      obtain ⟨fuel, rfl⟩ : ∃ f, fuel = f + 1 := ⟨fuel - 1, by omega⟩
      have hlt : i < blocks_per_arena m (desc descs k) := by
        rw [(hw.sizes k hk).2]
        omega
      obtain ⟨l₁, l₂, hsplit⟩ := List.append_of_mem (hin i (Nat.le_refl i) (by omega))
      have hnd : l.Nodup := hlist.nodup
      rw [hsplit] at hlist hnd
      obtain ⟨m₁, hremove, hlist₁, hsame₁⟩ := hlist.remove
      have hrest : ∀ x, x ∈ l₁ ++ l₂ ↔ x ∈ l ∧ x ≠ A.page + ARENA_SIZE + i * size_class k := by
        intro x
        have hperm : (l₁ ++ (A.page + ARENA_SIZE + i * size_class k) :: l₂).Perm
            ((A.page + ARENA_SIZE + i * size_class k) :: (l₁ ++ l₂)) := List.perm_middle
        have hnot := (List.nodup_cons.mp (hperm.nodup_iff.mp hnd)).1
        rw [hsplit, hperm.mem_iff, List.mem_cons]
        constructor
        · intro hx
          refine ⟨.inr hx, ?_⟩
          rintro rfl
          exact hnot hx
        · rintro ⟨heq | hx, hne⟩
          · exact absurd heq hne
          · exact hx
      have hplaces : ∀ x ∈ nodes (free_list (desc descs k)) (l₁ ++ l₂), Place descs arenas x :=
        places_of_blocks descs hk fun x hx => hblocks x ((hrest x).mp hx).1
      have hw₁ := hw.congr (hl.same_kept hsame₁ hplaces)
      have hf' : n < fuel := by omega
      obtain ⟨m', l', hloop, hlist', hmem, hsame'⟩ := ih (i := i + 1) hw₁ (by omega) hf' hlist₁
        (fun x hx => hblocks x ((hrest x).mp hx).1) fun j h₁ h₂ => by
          refine (hrest _).mpr ⟨hin j (by omega) h₂, fun heq => ?_⟩
          have := block_inj heq
          omega
      have hsub : nodes (free_list (desc descs k))
          (l₁ ++ l₂) ⊆ nodes (free_list (desc descs k)) l := by
        intro x hx
        rw [mem_nodes_iff] at hx ⊢
        exact hx.imp_right fun hx => hx.imp_right fun hx => ((hrest x).mp hx).1
      refine ⟨m', l', ?_, hlist', fun x => ?_, (hsame₁.mono hsub).trans (hsame'.mono hsub)⟩
      · rw [unlink_loop, if_pos hlt, hw.arena_to_block_eq hl hA hkind (by omega), Outcome.ok_bind,
          hremove]
        exact hloop
      · rw [hmem, hrest, and_assoc]
        refine and_congr_right fun _ => ⟨?_, ?_⟩
        · rintro ⟨hne, hall⟩ j h₁ h₂
          rcases Nat.eq_or_lt_of_le h₁ with rfl | h₁
          · exact hne
          · exact hall j h₁ h₂
        · exact fun hall => ⟨hall i (Nat.le_refl i) (by omega), fun j h₁ h₂ => hall j (by omega) h₂⟩

/-- **A block goes back** to its free list. -/
theorem Sound.put (hs : Sound descs h arenas out F) (hA : A ∈ arenas) (hkind : A.kind = some k)
    (hb : b ∈ A.blocks) (hout : b ∈ out) :
    ∃ m, put_block A.page (desc descs k) b h.mem = .ok m
      ∧ Sound descs { h with mem := m } arenas (out.erase b) (Function.update F k (b :: F k)) := by
  have hl := hs.layout
  have hok := hl.ok A hA
  have hk := (hok.kind k hkind).1
  let m₀ := set_bytes h.mem b 0xcc (size_class k)
  have hs₀ : Sound descs { h with mem := m₀ } arenas out F := hs.other_memory m₀ fun w hw => by
    refine set_bytes_other (hok.block_aligned hb) ?_
    have hapart := hl.outside_block hA hb hout hw
    rwa [bytes_small hkind] at hapart
  -- the block goes to the front of the list
  have hbooks := hs.books.give hl hA hkind hb hout
  have hself : Function.update F k (b :: F k) k = b :: F k := Function.update_self ..
  have hplaces : ∀ x ∈ nodes (free_list (desc descs k)) (b :: F k), Place descs arenas x := by
    have := hbooks.places descs hk
    rwa [hself] at this
  have hnew : b ∉ F k := fun hmem => by
    obtain ⟨_, _, _, _, hfree⟩ := (hs.books.free k hk b).mp hmem
    exact hfree hout
  have hFnd := (hs.lists k hk).nodup
  have hblocks : ∀ x ∈ b :: F k, ∃ B ∈ arenas, x ∈ B.blocks := by
    intro x hx
    rcases List.mem_cons.mp hx with rfl | hx
    · exact ⟨A, hA, hb⟩
    · obtain ⟨B, hB, -, hx, -⟩ := (hs.books.free k hk x).mp hx
      exact ⟨B, hB, hx⟩
  have hperm := IsList.nodes_cons_perm (free_list (desc descs k)) b (F k)
  have hplaced := (hl.placed_nodes hk (List.nodup_cons.mpr ⟨hnew, hFnd⟩) hblocks).perm hperm
  obtain ⟨m₁, hpush, hlist₁, hsame₁⟩ := (hs₀.lists k hk).push_front hplaced
  have hsame₁ : SameElse (nodes (free_list (desc descs k)) (b :: F k)) m₀ m₁ :=
    hsame₁.mono fun x hx => hperm.mem_iff.mpr hx
  have hw₁ := hs₀.written.congr (hl.same_kept hsame₁ hplaces)
  have hlists₁ := hl.lists_update hs₀.lists (fun _ hk => hs.books.places descs hk) hlist₁
    hsame₁ hplaces fun k' hk' hne x hx y hy => by
      refine hbooks.lists_apart hl hk' hk hne ?_ ?_
      · rwa [Function.update_of_ne hne]
      · rwa [hself]
  -- the arena has one free block more
  have hback : A.free out = A.free (b :: out.erase b) :=
    free_congr fun x _ => (List.perm_cons_erase hout).mem_iff
  have hnotin : b ∉ out.erase b := fun hmem => (hs.books.nodup.mem_erase_iff.mp hmem).1 rfl
  have hone := free_cons hb hnotin
  obtain ⟨hcnt, hle⟩ := arena.cnt_small hkind (out.erase b)
  have hcnt₁ : (free_cnt m₁ A.page + 1) % 2 ^ 64 = A.cnt (out.erase b) := by
    have hper := per_arena_le k
    rw [hw₁.cnt A hA, (arena.cnt_small hkind out).1, hback]
    unfold PGSIZE at hper
    omega
  refine ⟨set_free_cnt m₁ A.page (A.cnt (out.erase b)), ?_, hl, hbooks,
    hw₁.set_cnt hl hA (cnt_other hl hA hb fun x hx => List.mem_erase_of_ne hx), fun k' hk' =>
      hl.list_kept (hlists₁ k' hk') (hbooks.places descs hk') (.inr ⟨A, hA, .inr (.inr rfl)⟩) _,
    hs.pages, hs.cnt⟩
  have hfill : memset h.mem b 0xcc (size_class k) = .ok m₀ := by
    have hlast := (hok.within hb).last
    rw [bytes_small hkind] at hlast
    exact if_pos (hlast.trans hok.last_le)
  unfold put_block
  rw [(hs.written.sizes k hk).1, hfill, Outcome.ok_bind, hpush, Outcome.ok_bind, hcnt₁]
  rfl

/-- **An arena that is entirely unused** is unlinked and given back. -/
theorem Sound.free_arena_eq (hs : Sound descs h arenas out F) (hA : A ∈ arenas)
    (hkind : A.kind = some k) (hidle : ∀ x ∈ A.blocks, x ∉ out)
    (hcnt : A.cnt out = per_arena k) :
    ∃ h' F', free_arena A.page (desc descs k) h = .ok h' ∧ Sound descs h' (arenas.erase A) out F'
      ∧ h'.pages = h.pages.erase A.range := by
  have hl := hs.layout
  obtain ⟨hk, hone⟩ := (hl.ok A hA).kind k hkind
  have hin : ∀ j, 0 ≤ j → j < per_arena k → A.page + ARENA_SIZE + j * size_class k ∈ F k := by
    intro j _ hj
    have hb := (mem_blocks_small hkind).mpr ⟨j, hj, rfl⟩
    exact (hs.books.free k hk _).mpr ⟨A, hA, hkind, hb, hidle _ hb⟩
  obtain ⟨m, l, hloop, hlist, hmem, hsame⟩ := unlink_loop_eq hl hs.written hA hkind
    (Nat.zero_add _) (Nat.lt_succ_of_le (per_arena_le k)) (hs.lists k hk)
    (fun x hx => by
      obtain ⟨B, hB, -, hx, -⟩ := (hs.books.free k hk x).mp hx
      exact ⟨B, hB, hx⟩) hin
  have hmem : ∀ x, x ∈ l ↔ x ∈ F k ∧ x ∉ A.blocks := by
    intro x
    rw [hmem, mem_blocks_small hkind]
    refine and_congr_right fun _ => ⟨?_, ?_⟩
    · rintro hall ⟨j, hj, rfl⟩
      exact hall j (Nat.zero_le j) hj rfl
    · rintro hnot j - hj rfl
      exact hnot ⟨j, hj, rfl⟩
  have hbooks := hs.books.drop hl hA hidle (Function.update F k l) fun k' hk' x => by
    by_cases heq : k' = k
    · subst heq
      rw [Function.update_self, hmem, and_congr_right_iff]
      exact fun _ => not_congr (and_iff_right hkind).symm
    · rw [Function.update_of_ne heq, and_iff_left]
      rintro ⟨hkind', -⟩
      exact heq (Option.some.inj (hkind'.symm.trans hkind))
  have hplaces := hs.books.places descs hk
  have hlists := hl.lists_update hs.lists (fun _ hk => hs.books.places descs hk) hlist hsame hplaces
    fun k' hk' hne x hx y hy => hs.books.lists_apart hl hk' hk hne hx hy
  have hw := (hs.written.congr (hl.same_kept hsame hplaces)).erase A
  obtain ⟨h', hback, hs', hpages⟩ := hl.give_back hA hw hbooks hlists hs.pages hs.cnt
  refine ⟨h', _, ?_, hs', hpages⟩
  rw [hone] at hback
  have hfull : free_cnt h.mem A.page = blocks_per_arena h.mem (desc descs k) := by
    rw [hs.written.cnt A hA, hcnt, (hs.written.sizes k hk).2]
  unfold free_arena
  rw [Outcome.assert_pos hfull, Outcome.ok_bind, hloop]
  exact hback

/-- An arena counts all its blocks when none is outstanding. -/
theorem cnt_eq_iff (hkind : A.kind = some k) :
    A.cnt out = per_arena k ↔ ∀ x ∈ A.blocks, x ∉ out := by
  have hlen : A.blocks.length = per_arena k := by
    rw [blocks_small hkind, List.length_map, List.length_range]
  rw [(arena.cnt_small hkind out).1, ← hlen]
  unfold arena.free
  rw [List.length_filter_eq_length_iff]
  simp only [decide_eq_true_eq]

/-- **`free` of a small block** gives the page back when no other block of it is outstanding. -/
theorem Sound.free_small (hs : Sound descs h arenas out F) (hA : A ∈ arenas)
    (hkind : A.kind = some k) (hb : b ∈ A.blocks) (hout : b ∈ out) :
    ∃ h' F', free b h = .ok h'
      ∧ ((∃ x ∈ A.blocks, x ∈ out.erase b) ∧ Sound descs h' arenas (out.erase b) F'
          ∧ h'.pages = h.pages
        ∨ (∀ x ∈ A.blocks, x ∉ out.erase b) ∧ Sound descs h' (arenas.erase A) (out.erase b) F'
          ∧ h'.pages = h.pages.erase A.range) := by
  have hl := hs.layout
  have hk := ((hl.ok A hA).kind k hkind).1
  obtain ⟨m, hput, hs'⟩ := hs.put hA hkind hb hout
  have hcnt := hs'.written.cnt A hA
  have hper := (hs'.written.sizes k hk).2
  have hle := (arena.cnt_small hkind (out.erase b)).2
  have hfree : free b h = if free_cnt m A.page ≥ blocks_per_arena m (desc descs k)
      then free_arena A.page (desc descs k) { h with mem := m } else .ok { h with mem := m } := by
    have hdesc : arena_desc h.mem A.page = desc descs k :=
      (hs.written.desc A hA).trans (arena.desc_small hkind)
    unfold free
    rw [if_neg (hl.place_pos (.inr ⟨A, hA, hb⟩)), hs.written.block_to_arena_eq hl hA hb,
      Outcome.ok_bind, hdesc]
    simp only [ne_eq, desc_ne_zero hl k, not_false_eq_true, if_true, hput]
    rfl
  rw [hfree]
  by_cases hfull : A.cnt (out.erase b) = per_arena k
  · have hidle := (cnt_eq_iff hkind).mp hfull
    obtain ⟨h', F', hrun, hs'', hpages⟩ := hs'.free_arena_eq hA hkind hidle hfull
    refine ⟨h', F', ?_, .inr ⟨hidle, hs'', hpages⟩⟩
    rw [if_pos (by rw [hcnt, hper, hfull]), hrun]
  · refine ⟨_, _, if_neg ?_, .inl ⟨?_, hs', rfl⟩⟩
    · rw [hcnt, hper]
      omega
    · by_contra hnone
      exact hfull ((cnt_eq_iff hkind).mpr fun x hx hout => hnone ⟨x, hx, hout⟩)

/-- **`free` of a big block** gives its pages back. -/
theorem Sound.free_big (hs : Sound descs h arenas out F) (hA : A ∈ arenas) (hkind : A.kind = none)
    (hb : b ∈ A.blocks) (hout : b ∈ out) :
    ∃ h', free b h = .ok h' ∧ Sound descs h' (arenas.erase A) (out.erase b) F
      ∧ h'.pages = h.pages.erase A.range := by
  have hl := hs.layout
  have hidle : ∀ x ∈ A.blocks, x ∉ out.erase b := by
    intro x hx hmem
    obtain ⟨hne, -⟩ := hs.books.nodup.mem_erase_iff.mp hmem
    exact hne (((mem_blocks_big hkind).mp hx).trans ((mem_blocks_big hkind).mp hb).symm)
  have hothers : ∀ x, x ≠ b → (x ∈ out.erase b ↔ x ∈ out) := fun x hx => List.mem_erase_of_ne hx
  -- the block belongs to no free list
  have hbooks : Books (arenas.erase A) (out.erase b) F := by
    refine ⟨fun k hk x => ?_, fun x hx => ?_, hs.books.nodup.erase b⟩
    · rw [hs.books.free k hk]
      have hne : ∀ B ∈ arenas, B.kind = some k → B ≠ A := by
        rintro B - hkind' rfl
        rw [hkind] at hkind'
        cases hkind'
      constructor
      · rintro ⟨B, hB, hkind', hx, hfree⟩
        exact ⟨B, hl.mem_erase.mpr ⟨hne B hB hkind', hB⟩, hkind', hx,
          fun hmem => hfree (List.mem_of_mem_erase hmem)⟩
      · rintro ⟨B, hB, hkind', hx, hfree⟩
        obtain ⟨hneB, hB⟩ := hl.mem_erase.mp hB
        refine ⟨B, hB, hkind', hx, fun hmem => hfree ((hothers x ?_).mpr hmem)⟩
        rintro rfl
        exact hneB (hl.same_arena hB hA hx hb)
    · obtain ⟨B, hB, hin⟩ := hs.books.owned x (List.mem_of_mem_erase hx)
      refine ⟨B, hl.mem_erase.mpr ⟨?_, hB⟩, hin⟩
      rintro rfl
      exact hidle x hin hx
  have hw : Written descs (arenas.erase A) (out.erase b) h.mem := by
    have hw := hs.written.erase A
    refine ⟨hw.sizes, hw.magic, hw.desc, fun B hB => (hw.cnt B hB).trans ?_⟩
    obtain ⟨hne, hB⟩ := hl.mem_erase.mp hB
    exact (cnt_other hl hA hb hothers B hB hne).symm
  obtain ⟨h', hback, hs', hpages⟩ := hl.give_back hA hw hbooks hs.lists hs.pages hs.cnt
  refine ⟨h', ?_, hs', hpages⟩
  have hdesc : arena_desc h.mem A.page = 0 :=
    (hs.written.desc A hA).trans (arena.desc_big hkind)
  have hcnt : free_cnt h.mem A.page = A.page_cnt := by
    rw [hs.written.cnt A hA]
    unfold arena.cnt
    rw [hkind]
  unfold free
  rw [if_neg (hl.place_pos (.inr ⟨A, hA, hb⟩)), hs.written.block_to_arena_eq hl hA hb,
    Outcome.ok_bind, hdesc, hcnt]
  exact hback

end Pintos.heap
