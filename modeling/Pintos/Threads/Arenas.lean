/-
Where blocks lie.

An arena is cut into blocks of one size, or holds one big block. Arenas lie apart from each
other and from the descriptors, and so do their blocks; the links of the free lists are in
blocks and descriptors, where they meet neither each other nor what else is kept.
-/
import Pintos.Threads.Malloc

set_option autoImplicit false

namespace Pintos.heap

/-- The block size of a descriptor. -/
def size_class (k : ℕ) : ℕ := 16 * 2 ^ k

/-- The number of blocks in an arena of a descriptor. -/
def per_arena (k : ℕ) : ℕ := (PGSIZE - ARENA_SIZE) / size_class k

/-- How many descriptors there are. -/
def CLASSES : ℕ := 7

/-- The pages of an arena, and the descriptor it belongs to; there is none for a big block. -/
structure arena where
  page : ℕ
  page_cnt : ℕ
  kind : Option ℕ
  deriving DecidableEq

/-- The blocks of an arena. -/
def arena.blocks (A : arena) : List ℕ :=
  match A.kind with
  | some k => (List.range (per_arena k)).map fun i => A.page + ARENA_SIZE + i * size_class k
  | none => [A.page + ARENA_SIZE]

/-- The size of its blocks. -/
def arena.bytes (A : arena) : ℕ :=
  match A.kind with
  | some k => size_class k
  | none => PGSIZE * A.page_cnt - ARENA_SIZE

/-- Behind its pages. -/
def arena.last (A : arena) : ℕ := A.page + PGSIZE * A.page_cnt

/-- Whole pages, of which a small arena has one. -/
structure arena.Ok (A : arena) : Prop where
  aligned : A.page % PGSIZE = 0
  page_pos : 0 < A.page
  last_le : A.last ≤ 2 ^ 64
  pos : 0 < A.page_cnt
  kind : ∀ k, A.kind = some k → k < CLASSES ∧ A.page_cnt = 1

/-- One lies behind the other. -/
def Apart (A B : arena) : Prop := A.last ≤ B.page ∨ B.last ≤ A.page

/-- Arenas lie apart from each other and from the descriptors. -/
structure Layout (descs : ℕ) (arenas : List arena) : Prop where
  ok : ∀ A ∈ arenas, A.Ok
  apart : arenas.Pairwise Apart
  descs_apart : ∀ A ∈ arenas, A.last ≤ descs ∨ descs + 10 * DESC_SIZE ≤ A.page
  descs_pos : 0 < descs

/-! ## Blocks -/

section Blocks

variable {A B : arena} {b b' k : ℕ}

theorem size_class_ge (k : ℕ) : 16 ≤ size_class k := by
  have := Nat.two_pow_pos k
  unfold size_class
  omega

theorem per_arena_mul_le (k : ℕ) : per_arena k * size_class k + ARENA_SIZE ≤ PGSIZE := by
  have := Nat.div_mul_le_self (PGSIZE - ARENA_SIZE) (size_class k)
  unfold per_arena
  unfold PGSIZE ARENA_SIZE at *
  omega

theorem per_arena_pos (hk : k < CLASSES) : 0 < per_arena k := by
  unfold per_arena
  refine Nat.div_pos ?_ (Nat.lt_of_lt_of_le (by omega) (size_class_ge k))
  have hpow : 2 ^ k ≤ 2 ^ 6 := Nat.pow_le_pow_right (by omega) (Nat.le_of_lt_succ hk)
  unfold size_class PGSIZE ARENA_SIZE
  omega

theorem per_arena_le (k : ℕ) : per_arena k ≤ PGSIZE := by
  have hmul := per_arena_mul_le k
  have hle : per_arena k * 1 ≤ per_arena k * size_class k :=
    Nat.mul_le_mul_left _ (Nat.le_trans (by omega) (size_class_ge k))
  omega

/-- The end of a block of a small arena. -/
theorem block_end_le {i : ℕ} (hi : i < per_arena k) :
    ARENA_SIZE + i * size_class k + size_class k ≤ PGSIZE := by
  have hmul := per_arena_mul_le k
  have hle : (i + 1) * size_class k ≤ per_arena k * size_class k := Nat.mul_le_mul_right _ hi
  rw [Nat.succ_mul] at hle
  omega

theorem mem_blocks_small (hA : A.kind = some k) :
    b ∈ A.blocks ↔ ∃ i < per_arena k, b = A.page + ARENA_SIZE + i * size_class k := by
  unfold arena.blocks
  rw [hA]
  simp [eq_comm]

theorem mem_blocks_big (hA : A.kind = none) : b ∈ A.blocks ↔ b = A.page + ARENA_SIZE := by
  unfold arena.blocks
  rw [hA]
  simp

theorem bytes_small (hA : A.kind = some k) : A.bytes = size_class k := by
  unfold arena.bytes
  rw [hA]

theorem bytes_big (hA : A.kind = none) : A.bytes = PGSIZE * A.page_cnt - ARENA_SIZE := by
  unfold arena.bytes
  rw [hA]

/-- What is known of a block. -/
structure Within (A : arena) (b : ℕ) : Prop where
  header : A.page + ARENA_SIZE ≤ b
  first_page : b < A.page + PGSIZE
  last : b + A.bytes ≤ A.last
  room : 16 ≤ A.bytes

/-- **A block** lies behind the header of its arena and ends with it. -/
theorem arena.Ok.within (h : A.Ok) (hb : b ∈ A.blocks) : Within A b := by
  have hpos := h.pos
  cases hA : A.kind with
  | none =>
      rw [mem_blocks_big hA] at hb
      have hbytes := bytes_big hA
      unfold PGSIZE ARENA_SIZE at *
      constructor
      · unfold ARENA_SIZE
        omega
      · unfold PGSIZE
        omega
      · unfold arena.last PGSIZE
        omega
      · omega
  | some k =>
      obtain ⟨i, hi, rfl⟩ := (mem_blocks_small hA).mp hb
      have hone := (h.kind k hA).2
      have hend := block_end_le hi
      have hge := size_class_ge k
      have hlast : A.last = A.page + PGSIZE := by
        unfold arena.last
        rw [hone, Nat.mul_one]
      constructor
      · omega
      · omega
      · rw [bytes_small hA, hlast]
        omega
      · rw [bytes_small hA]
        exact hge

/-- Blocks of one arena. -/
theorem blocks_apart (hb : b ∈ A.blocks) (hb' : b' ∈ A.blocks) (hne : b ≠ b') :
    b + A.bytes ≤ b' ∨ b' + A.bytes ≤ b := by
  cases hA : A.kind with
  | none => exact absurd (((mem_blocks_big hA).mp hb).trans ((mem_blocks_big hA).mp hb').symm) hne
  | some k =>
      obtain ⟨i, -, rfl⟩ := (mem_blocks_small hA).mp hb
      obtain ⟨j, -, rfl⟩ := (mem_blocks_small hA).mp hb'
      rw [bytes_small hA]
      rcases Nat.lt_trichotomy i j with hlt | rfl | hlt
      · have hle : (i + 1) * size_class k ≤ j * size_class k := Nat.mul_le_mul_right _ hlt
        rw [Nat.succ_mul] at hle
        omega
      · exact absurd rfl hne
      · have hle : (j + 1) * size_class k ≤ i * size_class k := Nat.mul_le_mul_right _ hlt
        rw [Nat.succ_mul] at hle
        omega

theorem blocks_nodup (A : arena) : A.blocks.Nodup := by
  cases hA : A.kind with
  | none =>
      unfold arena.blocks
      rw [hA]
      exact List.nodup_singleton _
  | some k =>
      unfold arena.blocks
      rw [hA]
      refine List.Nodup.map (fun i j hij => ?_) List.nodup_range
      have hmul : i * size_class k = j * size_class k := by
        have hij : A.page + ARENA_SIZE + i * size_class k
            = A.page + ARENA_SIZE + j * size_class k := hij
        omega
      exact Nat.eq_of_mul_eq_mul_right (Nat.lt_of_lt_of_le (by omega) (size_class_ge k)) hmul

/-- `pg_round_down` of a block is its arena. -/
theorem arena.Ok.page_of (h : A.Ok) (hb : b ∈ A.blocks) :
    b / PGSIZE * PGSIZE = A.page ∧ b % PGSIZE = b - A.page := by
  have hin := h.within hb
  have haligned := h.aligned
  have h₁ := hin.header
  have h₂ := hin.first_page
  unfold PGSIZE ARENA_SIZE at *
  omega

end Blocks

/-! ## The layout as a whole -/

section Whole

variable {descs : ℕ} {arenas : List arena} {A B : arena} {b b' k k' x y w : ℕ}

theorem Layout.arenas_apart (h : Layout descs arenas) (hA : A ∈ arenas) (hB : B ∈ arenas)
    (hne : A ≠ B) : Apart A B := by
  have : Std.Symm Apart := ⟨fun _ _ hab => hab.symm⟩
  exact h.apart.forall hA hB hne

/-- A block belongs to one arena. -/
theorem Layout.same_arena (h : Layout descs arenas) (hA : A ∈ arenas) (hB : B ∈ arenas)
    (hb : b ∈ A.blocks) (hb' : b ∈ B.blocks) : A = B := by
  by_contra hne
  have hinA := (h.ok A hA).within hb
  have hinB := (h.ok B hB).within hb'
  have h₁ := hinA.header
  have h₂ := hinA.last
  have h₃ := hinB.header
  have h₄ := hinB.last
  have h₅ := hinA.room
  have h₆ := hinB.room
  rcases h.arenas_apart hA hB hne with hlt | hlt <;> omega

/-- **Blocks lie apart.** -/
theorem Layout.blocks_apart (h : Layout descs arenas) (hA : A ∈ arenas) (hB : B ∈ arenas)
    (hb : b ∈ A.blocks) (hb' : b' ∈ B.blocks) (hne : b ≠ b') :
    b + A.bytes ≤ b' ∨ b' + B.bytes ≤ b := by
  by_cases heq : A = B
  · subst heq
    exact heap.blocks_apart hb hb' hne
  · have hinA := (h.ok A hA).within hb
    have hinB := (h.ok B hB).within hb'
    have h₁ := hinA.header
    have h₂ := hinA.last
    have h₃ := hinB.header
    have h₄ := hinB.last
    rcases h.arenas_apart hA hB heq with hlt | hlt
    · exact .inl (by omega)
    · exact .inr (by omega)

/-- The places of links: the ends of the free lists, and the blocks. -/
def Place (descs : ℕ) (arenas : List arena) (x : ℕ) : Prop :=
  (∃ k < CLASSES, x = free_list (desc descs k) ∨ x = klib.tail (free_list (desc descs k)))
    ∨ ∃ A ∈ arenas, x ∈ A.blocks

/-- The ends of the free lists are in the descriptors. -/
theorem desc_place (hk : k < CLASSES)
    (hx : x = free_list (desc descs k) ∨ x = klib.tail (free_list (desc descs k))) :
    descs + k * DESC_SIZE + 16 ≤ x ∧ x + 16 ≤ descs + k * DESC_SIZE + 48
      ∧ x + 16 ≤ descs + 10 * DESC_SIZE := by
  unfold klib.tail free_list desc at hx
  unfold CLASSES at hk
  unfold DESC_SIZE at *
  omega

theorem Layout.place_pos (h : Layout descs arenas) (hx : Place descs arenas x) : x ≠ 0 := by
  rcases hx with ⟨k, hk, hx⟩ | ⟨A, hA, hx⟩
  · have := desc_place hk hx
    omega
  · have := ((h.ok A hA).within hx).header
    have := (h.ok A hA).page_pos
    omega

theorem Layout.end_block_apart (h : Layout descs arenas) (hk : k < CLASSES)
    (hx : x = free_list (desc descs k) ∨ x = klib.tail (free_list (desc descs k)))
    (hA : A ∈ arenas) (hy : y ∈ A.blocks) : x + 16 ≤ y ∨ y + 16 ≤ x := by
  have hplace := desc_place hk hx
  have hin := (h.ok A hA).within hy
  have h₁ := hin.header
  have h₂ := hin.last
  have h₃ := hin.room
  rcases h.descs_apart A hA with hlt | hlt <;> omega

/-- **Places lie apart**, with room for two words. -/
theorem Layout.places_apart (h : Layout descs arenas) (hx : Place descs arenas x)
    (hy : Place descs arenas y) (hne : x ≠ y) : x + 16 ≤ y ∨ y + 16 ≤ x := by
  rcases hx with ⟨k, hk, hx⟩ | ⟨A, hA, hx⟩
  · rcases hy with ⟨k', hk', hy⟩ | ⟨B, hB, hy⟩
    · unfold klib.tail free_list desc DESC_SIZE at hx hy
      omega
    · exact h.end_block_apart hk hx hB hy
  · rcases hy with ⟨k', hk', hy⟩ | ⟨B, hB, hy⟩
    · exact (h.end_block_apart hk' hy hA hx).symm
    · have hroom := ((h.ok A hA).within hx).room
      have hroom' := ((h.ok B hB).within hy).room
      rcases h.blocks_apart hA hB hx hy hne with hlt | hlt <;> omega

/-- The words that are kept besides links: the sizes of the descriptors, the headers of arenas. -/
def Kept (descs : ℕ) (arenas : List arena) (w : ℕ) : Prop :=
  (∃ k < CLASSES, w = desc descs k ∨ w = desc descs k + 8)
    ∨ ∃ A ∈ arenas, w = A.page ∨ w = A.page + 8 ∨ w = A.page + 16

/-- **Links do not meet** what else is kept. -/
theorem Layout.place_ne_kept (h : Layout descs arenas) (hx : Place descs arenas x)
    (hw : Kept descs arenas w) : w ≠ x ∧ w ≠ x + 8 := by
  have hone : ∀ A ∈ arenas, A.page + PGSIZE ≤ A.last := by
    intro A hA
    have hpos := (h.ok A hA).pos
    unfold arena.last PGSIZE
    omega
  rcases hx with ⟨k, hk, hx⟩ | ⟨A, hA, hx⟩
  · have hplace := desc_place hk hx
    rcases hw with ⟨k', hk', hw⟩ | ⟨B, hB, hw⟩
    · unfold klib.tail free_list desc DESC_SIZE at hx
      unfold desc DESC_SIZE at hw
      omega
    · have hlast := hone B hB
      unfold PGSIZE at hlast
      rcases h.descs_apart B hB with hlt | hlt <;> omega
  · have hin := (h.ok A hA).within hx
    have h₁ := hin.header
    have h₂ := hin.last
    have h₃ := hin.room
    unfold ARENA_SIZE at h₁
    rcases hw with ⟨k', hk', hw⟩ | ⟨B, hB, hw⟩
    · unfold CLASSES at hk'
      unfold desc at hw
      unfold DESC_SIZE at hw
      rcases h.descs_apart A hA with hlt | hlt
      · omega
      · unfold DESC_SIZE at hlt
        omega
    · by_cases heq : A = B
      · subst heq
        omega
      · have hlast := hone B hB
        unfold PGSIZE at hlast
        rcases h.arenas_apart hA hB heq with hlt | hlt <;> omega

end Whole

end Pintos.heap
