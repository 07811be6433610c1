/-
How much room a block has.

The pages for a big block are counted in 64-bit arithmetic, and the product in `calloc` is
compared with the factors only. A request close to 2^64 wraps to a page at most, and a product
that wraps to something that is no smaller than its factors passes.
-/
import Pintos.Threads.MallocRuns

set_option autoImplicit false

namespace Pintos.heap

open klib (words)

/-- The bytes from a block to the end of what was got for it. -/
def usable (s : store) (p : ℕ) : ℕ :=
  let a := p / PGSIZE * PGSIZE
  let d := arena_desc s.mem a
  if d ≠ 0 then desc_block_size s.mem d else PGSIZE * free_cnt s.mem a - p % PGSIZE

/-- A state that a history leads to. -/
def Reached (descs : ℕ) (h : history) : Prop :=
  0 < descs ∧ ∃ m s es, malloc_init descs ⟨m, 0, []⟩ = .ok s ∧ Runs.Path (Step descs) ⟨s, []⟩ es h

/-- What `malloc` returns for `size` is null or has room for it. -/
def MallocSuffices (size : ℕ) : Prop :=
  ∀ descs h grant s p, Reached descs h → Granted descs h.store.pages grant (asked_pages size) →
    malloc descs grant size h.store = .ok (s, p) → p ≠ 0 → size ≤ usable s p

/-- What `calloc` returns for `a` and `b` is null or has room for their product. -/
def CallocSuffices (a b : ℕ) : Prop :=
  ∀ descs h grant s p, Reached descs h →
    Granted descs h.store.pages grant (asked_pages (a * b % 2 ^ 64)) →
    calloc descs grant a b h.store = .ok (s, p) → p ≠ 0 → a * b ≤ usable s p

/-- What `realloc` returns for `new_size` and a live block, or none, is null or has room for it. -/
def ReallocSuffices (new_size : ℕ) : Prop :=
  ∀ descs h grant old s p, Reached descs h → (old = 0 ∨ old ∈ outstanding h.live) →
    Granted descs h.store.pages grant (asked_pages new_size) →
    realloc descs grant old new_size h.store = .ok (s, p) → p ≠ 0 → new_size ≤ usable s p

section Sizes

variable {descs grant size a b p old : ℕ} {h : history} {s s' : store} {arenas : List arena}
  {F : ℕ → List ℕ} {A : arena} {out : List ℕ} {m : words}

theorem Reached.healthy (hr : Reached descs h) : ∃ arenas F, Healthy descs h arenas F := by
  obtain ⟨hd, m, s, es, hinit, hpath⟩ := hr
  obtain ⟨s₀, hinit₀, hs₀⟩ := malloc_init_eq hd m
  obtain rfl := Outcome.ok.inj (hinit.symm.trans hinit₀)
  exact hs₀.healthy hpath

/-- The room of a block is the size of the blocks of its arena. -/
theorem Sound.usable_eq (hs : Sound descs s arenas out F) (hA : A ∈ arenas) (hb : b ∈ A.blocks) :
    usable s b = A.bytes := by
  obtain ⟨hpage, hofs⟩ := (hs.layout.ok A hA).page_of hb
  unfold usable
  simp only [hpage, hs.written.desc A hA]
  cases hkind : A.kind with
  | none =>
      have hblock := (mem_blocks_big hkind).mp hb
      have hcnt : free_cnt s.mem A.page = A.page_cnt := by
        rw [hs.written.cnt A hA]
        unfold arena.cnt
        rw [hkind]
      rw [arena.desc_big hkind, if_neg (not_not.mpr rfl), hcnt, hofs, bytes_big hkind, hblock,
        Nat.add_sub_cancel_left]
  | some k =>
      have hk := ((hs.layout.ok A hA).kind k hkind).1
      rw [arena.desc_small hkind, if_pos (desc_ne_zero hs.layout k), (hs.written.sizes k hk).1,
        bytes_small hkind]

theorem Healthy.usable_ge (hh : Healthy descs h arenas F) {q : ℕ × ℕ} (hq : q ∈ h.live) :
    q.2 ≤ usable h.store q.1 := by
  obtain ⟨A, hA, hb, hfit⟩ := hh.fits q hq
  rwa [hh.sound.usable_eq hA hb]

theorem memset_eq_ok {v n : ℕ} {m' : words} (h : memset m p v n = .ok m') :
    p + n ≤ 2 ^ 64 ∧ m' = set_bytes m p v n := by
  unfold memset at h
  split_ifs at h with hend
  exact ⟨hend, (Outcome.ok.inj h).symm⟩

theorem memcpy_eq_ok {q n : ℕ} {m' : words} (h : memcpy m p q n = .ok m') :
    m' = copy_bytes m p q n := by
  unfold memcpy at h
  split_ifs at h
  exact (Outcome.ok.inj h).symm

/-- A live block is written to, as far as it was asked for. -/
theorem Healthy.write (hh : Healthy descs h arenas F) {q : ℕ × ℕ} (hq : q ∈ h.live) (m : words)
    (hm : ∀ w, w < q.1 ∨ q.1 + q.2 ≤ w → m w = h.store.mem w) :
    Healthy descs ⟨{ h.store with mem := m }, h.live⟩ arenas F := by
  refine ⟨hh.sound.other_memory m fun w hw => hm w ?_, hh.busy, hh.fits⟩
  obtain ⟨A, hA, hb, hfit⟩ := hh.fits q hq
  rcases hh.sound.layout.outside_block hA hb (List.mem_map_of_mem hq) hw with hlt | hlt
  · exact .inl hlt
  · exact .inr (by omega)

theorem Healthy.block_aligned (hh : Healthy descs h arenas F) {q : ℕ × ℕ} (hq : q ∈ h.live) :
    q.1 % 8 = 0 := by
  obtain ⟨A, hA, hb, -⟩ := hh.fits q hq
  exact (hh.sound.layout.ok A hA).block_aligned hb

/-- A block that `malloc` returned is live. -/
theorem Healthy.malloc_live (hh : Healthy descs h arenas F)
    (hlegal : Legal descs h (.malloc grant size))
    (hrun : malloc descs grant size h.store = .ok (s, p)) (hp : p ≠ 0) :
    ∃ arenas' F', Healthy descs ⟨s, (p, size) :: h.live⟩ arenas' F' := by
  obtain ⟨s₁, p₁, arenas', F', hrun₁, hh', -⟩ := hh.malloc_eq hlegal
  obtain ⟨rfl, rfl⟩ := Outcome.ok_pair (hrun.symm.trans hrun₁)
  rw [if_neg hp] at hh'
  exact ⟨arenas', F', hh'⟩

/-! ## Requests that do not wrap -/

theorem malloc_suffices (hlt : size + ARENA_SIZE + PGSIZE - 1 < 2 ^ 64) : MallocSuffices size := by
  intro descs h grant s p hr hg hrun hp
  obtain ⟨arenas, F, hh⟩ := hr.healthy
  obtain ⟨_, _, hh'⟩ := hh.malloc_live ⟨hlt, hg⟩ hrun hp
  exact hh'.usable_ge List.mem_cons_self

/-- **What `calloc` returns** is a block of `malloc` that was zeroed, or null. -/
theorem calloc_eq_ok (hrun : calloc descs grant a b s = .ok (s', p)) (hp : p ≠ 0) :
    (a ≤ a * b % 2 ^ 64 ∧ b ≤ a * b % 2 ^ 64) ∧ p + a * b % 2 ^ 64 ≤ 2 ^ 64
      ∧ ∃ s₁, malloc descs grant (a * b % 2 ^ 64) s = .ok (s₁, p)
        ∧ s' = { s₁ with mem := set_bytes s₁.mem p 0 (a * b % 2 ^ 64) } := by
  unfold calloc at hrun
  by_cases hsmall : a * b % 2 ^ 64 < a ∨ a * b % 2 ^ 64 < b
  · rw [if_pos hsmall] at hrun
    obtain ⟨-, rfl⟩ := Outcome.ok_pair hrun
    exact absurd rfl hp
  · rw [if_neg hsmall] at hrun
    obtain ⟨out, hmalloc, hrest⟩ := Outcome.bind_eq_ok.mp hrun
    obtain ⟨s₁, p₁⟩ := out
    by_cases hnull : p₁ ≠ 0
    · simp only [if_pos hnull] at hrest
      obtain ⟨m, hfill, hret⟩ := Outcome.bind_eq_ok.mp hrest
      obtain ⟨rfl, rfl⟩ := Outcome.ok_pair hret
      obtain ⟨hend, rfl⟩ := memset_eq_ok hfill
      have hfactors := not_or.mp hsmall
      exact ⟨⟨Nat.le_of_not_lt hfactors.1, Nat.le_of_not_lt hfactors.2⟩, hend, s₁, hmalloc, rfl⟩
    · simp only [if_neg hnull] at hrest
      obtain ⟨-, rfl⟩ := Outcome.ok_pair hrest
      exact absurd hp hnull

theorem calloc_suffices (hlt : a * b + ARENA_SIZE + PGSIZE - 1 < 2 ^ 64) : CallocSuffices a b := by
  intro descs h grant s p hr hg hrun hp
  have hword : a * b % 2 ^ 64 = a * b :=
    Nat.mod_eq_of_lt (by unfold ARENA_SIZE PGSIZE at hlt; omega)
  obtain ⟨-, -, s₁, hmalloc, rfl⟩ := calloc_eq_ok hrun hp
  rw [hword] at hg hmalloc ⊢
  obtain ⟨arenas, F, hh⟩ := hr.healthy
  obtain ⟨_, _, hh'⟩ := hh.malloc_live ⟨hlt, hg⟩ hmalloc hp
  have hlive : (p, a * b) ∈ (p, a * b) :: h.live := List.mem_cons_self
  have hwrite := hh'.write hlive (set_bytes s₁.mem p 0 (a * b)) fun w hw =>
    set_bytes_other (hh'.block_aligned hlive) hw
  exact hwrite.usable_ge hlive

theorem realloc_suffices (hlt : size + ARENA_SIZE + PGSIZE - 1 < 2 ^ 64) :
    ReallocSuffices size := by
  intro descs h grant old s p hr hold hg hrun hp
  obtain ⟨arenas, F, hh⟩ := hr.healthy
  unfold realloc at hrun
  by_cases hzero : size = 0
  · rw [if_pos hzero] at hrun
    obtain ⟨_, -, hret⟩ := Outcome.bind_eq_ok.mp hrun
    obtain ⟨-, rfl⟩ := Outcome.ok_pair hret
    exact absurd rfl hp
  rw [if_neg hzero] at hrun
  obtain ⟨out, hmalloc, hrest⟩ := Outcome.bind_eq_ok.mp hrun
  obtain ⟨s₁, p₁⟩ := out
  by_cases hboth : old ≠ 0 ∧ p₁ ≠ 0
  · simp only [if_pos hboth] at hrest
    obtain ⟨old_size, -, hrest⟩ := Outcome.bind_eq_ok.mp hrest
    obtain ⟨m, hcopy, hrest⟩ := Outcome.bind_eq_ok.mp hrest
    obtain ⟨s₂, hfree, hret⟩ := Outcome.bind_eq_ok.mp hrest
    obtain ⟨rfl, rfl⟩ := Outcome.ok_pair hret
    obtain ⟨arenas₁, _, hh₁⟩ := hh.malloc_live ⟨hlt, hg⟩ hmalloc hp
    have hlive : (p₁, size) ∈ (p₁, size) :: h.live := List.mem_cons_self
    have hout : old ∈ outstanding h.live := hold.resolve_left hboth.1
    -- the new block is another one
    have hne : p₁ ≠ old := by
      rintro rfl
      exact (List.nodup_cons.mp hh₁.sound.books.nodup).1 hout
    -- no more is copied than was asked for
    have hmin : (if size < old_size then size else old_size) ≤ size := by
      split <;> omega
    generalize (if size < old_size then size else old_size) = n at hmin hcopy
    obtain rfl := memcpy_eq_ok hcopy
    have hwrite := hh₁.write hlive (copy_bytes s₁.mem p₁ old n) fun w hw =>
      copy_bytes_other (hh₁.block_aligned hlive)
        (hw.imp_right fun h => (Nat.add_le_add_left hmin p₁).trans h)
    have hout' : old ∈ outstanding ((p₁, size) :: h.live) := List.mem_cons_of_mem _ hout
    obtain ⟨B, hB, hb⟩ := hwrite.sound.books.owned old hout'
    obtain ⟨s₃, _, _, hfree₃, hh₃, -⟩ := hwrite.free_eq hB hb hout'
    obtain rfl := Outcome.ok.inj (hfree.symm.trans hfree₃)
    exact hh₃.usable_ge (q := (p₁, size)) (List.mem_filter.mpr ⟨hlive, decide_eq_true hne⟩)
  · simp only [if_neg hboth] at hrest
    obtain ⟨rfl, rfl⟩ := Outcome.ok_pair hrest
    obtain ⟨_, _, hh'⟩ := hh.malloc_live ⟨hlt, hg⟩ hmalloc hp
    exact hh'.usable_ge List.mem_cons_self

/-! ## Requests that wrap -/

/-- No descriptor has blocks that large. -/
theorem Sound.malloc_pages (hs : Sound descs s arenas out F)
    (hbig : size_class (CLASSES - 1) < size) :
    malloc descs grant size s = if grant = 0 then .ok (s, 0) else
      .ok (⟨init_arena s.mem grant 0 (big_pages size), s.desc_cnt,
        ⟨grant, big_pages size⟩ :: s.pages⟩, grant + ARENA_SIZE) := by
  have hall : 0 + s.desc_cnt = CLASSES := (Nat.zero_add _).trans hs.cnt
  have hfind : find_desc descs s.mem size s.desc_cnt 0 = none := by
    rcases find_desc_eq size hs.written hall with ⟨k, hk, -, hle⟩ | ⟨hnone, -⟩
    · have hpow : 2 ^ k ≤ 2 ^ 6 := Nat.pow_le_pow_right (by omega) (Nat.le_of_lt_succ hk)
      unfold size_class CLASSES at hbig
      unfold size_class at hle
      omega
    · exact hnone
  exact heap.malloc_pages grant (by omega) hfind

/-- The room of a block for which some pages were got, whatever is in it. -/
theorem usable_pages {cnt : ℕ} {pages : List palloc.range} {d : ℕ} {m' : words}
    (ha : grant % PGSIZE = 0) (hm : ∀ w < grant + ARENA_SIZE, m' w = init_arena m grant 0 cnt w) :
    usable ⟨m', d, pages⟩ (grant + ARENA_SIZE) = PGSIZE * cnt - ARENA_SIZE := by
  obtain ⟨-, hdesc, hcnt, -⟩ := init_arena_eq m grant 0 cnt
  have hpage : (grant + ARENA_SIZE) / PGSIZE * PGSIZE = grant
      ∧ (grant + ARENA_SIZE) % PGSIZE = ARENA_SIZE := by
    unfold ARENA_SIZE PGSIZE at *
    omega
  have hdesc' : arena_desc m' grant = 0 := (hm _ (by unfold ARENA_SIZE; omega)).trans hdesc
  have hcnt' : free_cnt m' grant = cnt := (hm _ (by unfold ARENA_SIZE; omega)).trans hcnt
  unfold usable
  simp only [hpage.1, hpage.2, hdesc', hcnt']
  exact if_neg (not_not.mpr rfl)

/-- The sum with the header wraps to a page at most. -/
theorem big_pages_le (hlt : size < 2 ^ 64) (hwrap : 2 ^ 64 ≤ size + ARENA_SIZE + PGSIZE - 1) :
    big_pages size ≤ 1 ∧ size_class (CLASSES - 1) < size := by
  have hclass : size_class (CLASSES - 1) = 1024 := by decide
  rw [hclass]
  unfold big_pages
  unfold ARENA_SIZE PGSIZE at *
  omega

/-- Descriptors at the bottom of memory, before anything was asked for. -/
theorem reached_init : ∃ s, Reached 8 ⟨s, []⟩ ∧ Sound 8 s [] [] fun _ => [] := by
  have hpos : 0 < 8 := by omega
  obtain ⟨s, hinit, hs⟩ := malloc_init_eq hpos fun _ => 0
  exact ⟨s, ⟨hpos, _, s, [], hinit, .nil _⟩, hs⟩

/-- The second page of memory, and what follows it. -/
theorem granted_init {n : ℕ} (hn : PGSIZE + PGSIZE * n ≤ 2 ^ 64) : Granted 8 [] PGSIZE n :=
  fun _ => ⟨Nat.mod_self _, hn, .inr (by decide), fun _ hr => absurd hr List.not_mem_nil⟩

/-- A request that wraps gets a block that is too small. -/
theorem malloc_wraps (hlt : size < 2 ^ 64) (hwrap : 2 ^ 64 ≤ size + ARENA_SIZE + PGSIZE - 1) :
    ∃ h s, Reached 8 h ∧ Granted 8 h.store.pages PGSIZE (asked_pages size)
      ∧ malloc 8 PGSIZE size h.store = .ok (s, PGSIZE + ARENA_SIZE)
      ∧ usable s (PGSIZE + ARENA_SIZE) < size := by
  obtain ⟨s₀, hreached, hs₀⟩ := reached_init
  obtain ⟨hpages, hbig⟩ := big_pages_le hlt hwrap
  have hasked : asked_pages size = big_pages size := if_neg (Nat.not_le_of_lt hbig)
  refine ⟨⟨s₀, []⟩, ⟨init_arena s₀.mem PGSIZE 0 (big_pages size), s₀.desc_cnt,
    ⟨PGSIZE, big_pages size⟩ :: s₀.pages⟩, hreached, ?_, ?_, ?_⟩
  · rw [hasked]
    show Granted 8 s₀.pages PGSIZE _
    rw [hs₀.pages]
    refine granted_init ?_
    unfold PGSIZE
    omega
  · exact (hs₀.malloc_pages hbig).trans (if_neg (by decide))
  · rw [usable_pages (Nat.mod_self _) fun _ _ => rfl]
    have hclass : size_class (CLASSES - 1) = 1024 := by decide
    unfold ARENA_SIZE PGSIZE at *
    omega

theorem malloc_fails (hlt : size < 2 ^ 64) (hwrap : 2 ^ 64 ≤ size + ARENA_SIZE + PGSIZE - 1) :
    ¬ MallocSuffices size := by
  intro hsuff
  obtain ⟨h, s, hr, hg, hrun, hless⟩ := malloc_wraps hlt hwrap
  exact absurd (hsuff 8 h _ s _ hr hg hrun (by decide)) (Nat.not_le_of_lt hless)

theorem realloc_fails (hlt : size < 2 ^ 64) (hwrap : 2 ^ 64 ≤ size + ARENA_SIZE + PGSIZE - 1) :
    ¬ ReallocSuffices size := by
  intro hsuff
  obtain ⟨h, s, hr, hg, hrun, hless⟩ := malloc_wraps hlt hwrap
  have hzero : size ≠ 0 := by
    rintro rfl
    exact absurd hwrap (by decide)
  have hnull : realloc 8 PGSIZE 0 size h.store = .ok (s, PGSIZE + ARENA_SIZE) := by
    unfold realloc
    rw [if_neg hzero, hrun]
    rfl
  exact absurd (hsuff 8 h _ 0 s _ hr (.inl rfl) hg hnull (by decide)) (Nat.not_le_of_lt hless)

/-- A product that wraps and passes gets a block for what it wrapped to. -/
theorem calloc_fails (hprod : 2 ^ 64 ≤ a * b) (ha : a ≤ a * b % 2 ^ 64) (hb : b ≤ a * b % 2 ^ 64)
    (hlt : a * b % 2 ^ 64 + ARENA_SIZE + PGSIZE - 1 < 2 ^ 64) : ¬ CallocSuffices a b := by
  intro hsuff
  obtain ⟨s₀, hreached, hs₀⟩ := reached_init
  -- one of the factors is large
  have hbig : size_class (CLASSES - 1) < a * b % 2 ^ 64 := by
    by_contra hsmall
    have hclass : size_class (CLASSES - 1) = 1024 := by decide
    have hmul : a * b ≤ 1024 * 1024 := Nat.mul_le_mul (by omega) (by omega)
    omega
  generalize hsize : a * b % 2 ^ 64 = size at ha hb hlt hbig
  have hasked : asked_pages size = big_pages size := if_neg (Nat.not_le_of_lt hbig)
  have hfit : PGSIZE + PGSIZE * big_pages size ≤ 2 ^ 64 := by
    unfold big_pages
    unfold ARENA_SIZE PGSIZE at *
    omega
  have hg : Granted 8 s₀.pages PGSIZE (asked_pages size) := by
    rw [hasked, hs₀.pages]
    exact granted_init hfit
  have hmalloc : malloc 8 PGSIZE size s₀ = .ok (⟨init_arena s₀.mem PGSIZE 0 (big_pages size),
      s₀.desc_cnt, ⟨PGSIZE, big_pages size⟩ :: s₀.pages⟩, PGSIZE + ARENA_SIZE) :=
    (hs₀.malloc_pages hbig).trans (if_neg (by decide))
  have hend : PGSIZE + ARENA_SIZE + size ≤ 2 ^ 64 := by
    unfold ARENA_SIZE PGSIZE at *
    omega
  have hrun : calloc 8 PGSIZE a b s₀ = .ok (⟨set_bytes (init_arena s₀.mem PGSIZE 0 (big_pages size))
      (PGSIZE + ARENA_SIZE) 0 size, s₀.desc_cnt, ⟨PGSIZE, big_pages size⟩ :: s₀.pages⟩,
      PGSIZE + ARENA_SIZE) := by
    unfold calloc
    rw [hsize, if_neg (by omega), hmalloc]
    show (memset _ _ 0 size >>= _) = _
    rw [memset, if_pos hend]
    rfl
  have hroom := hsuff 8 ⟨s₀, []⟩ _ _ _ hreached (by rwa [hsize]) hrun (by decide)
  rw [usable_pages (Nat.mod_self _) fun w hw => set_bytes_other (by decide) (.inl hw)] at hroom
  unfold PGSIZE at *
  omega

/-- A product that wraps to less than a factor is refused. -/
theorem calloc_refuses (hless : a * b % 2 ^ 64 < a ∨ a * b % 2 ^ 64 < b) : CallocSuffices a b := by
  intro descs h grant s p _ _ hrun hp
  obtain ⟨⟨ha, hb⟩, -⟩ := calloc_eq_ok hrun hp
  rcases hless with hless | hless
  · exact absurd hless (Nat.not_lt_of_le ha)
  · exact absurd hless (Nat.not_lt_of_le hb)

/-- Zeroing a block for which the sum with the header wraps runs off the end of memory, so that
nothing is returned. -/
theorem calloc_runs_off (hwrap : 2 ^ 64 ≤ a * b % 2 ^ 64 + ARENA_SIZE + PGSIZE - 1) :
    CallocSuffices a b := by
  intro descs h grant s p hr hg hrun hp
  obtain ⟨arenas, F, hh⟩ := hr.healthy
  obtain ⟨-, hend, s₁, hmalloc, -⟩ := calloc_eq_ok hrun hp
  obtain ⟨-, hbig⟩ := big_pages_le (Nat.mod_lt _ (Nat.two_pow_pos 64)) hwrap
  rw [hh.sound.malloc_pages hbig] at hmalloc
  by_cases hgrant : grant = 0
  · rw [if_pos hgrant] at hmalloc
    exact absurd (Outcome.ok_pair hmalloc).2.symm hp
  · rw [if_neg hgrant] at hmalloc
    have hblock : grant + ARENA_SIZE = p := (Outcome.ok_pair hmalloc).2
    -- no page lies below the first
    have hpage : grant % PGSIZE = 0 := (hg hgrant).1
    unfold ARENA_SIZE PGSIZE at *
    omega

end Sizes

/-- **When there is room**: what the three calls return is null or has the bytes that were asked
for, unless the sum with the header wraps, or a product wraps and is no less than its factors. -/
theorem room_iff (size a b : UInt64) :
    (MallocSuffices size.toNat ↔ size.toNat + ARENA_SIZE + PGSIZE - 1 < 2 ^ 64)
      ∧ (CallocSuffices a.toNat b.toNat ↔ a.toNat * b.toNat < 2 ^ 64
        ∨ a.toNat * b.toNat % 2 ^ 64 < a.toNat ∨ a.toNat * b.toNat % 2 ^ 64 < b.toNat
        ∨ 2 ^ 64 ≤ a.toNat * b.toNat % 2 ^ 64 + ARENA_SIZE + PGSIZE - 1)
      ∧ (ReallocSuffices size.toNat ↔ size.toNat + ARENA_SIZE + PGSIZE - 1 < 2 ^ 64) := by
  have hlt : size.toNat < 2 ^ 64 := size.toNat_lt
  refine ⟨⟨fun hsuff => ?_, malloc_suffices⟩, ⟨fun hsuff => ?_, fun hcases => ?_⟩,
    fun hsuff => ?_, realloc_suffices⟩
  · by_contra hwrap
    exact malloc_fails hlt (Nat.le_of_not_lt hwrap) hsuff
  · by_contra hnot
    obtain ⟨hprod, ha, hb, hfits⟩ : 2 ^ 64 ≤ a.toNat * b.toNat
        ∧ a.toNat ≤ a.toNat * b.toNat % 2 ^ 64 ∧ b.toNat ≤ a.toNat * b.toNat % 2 ^ 64
        ∧ a.toNat * b.toNat % 2 ^ 64 + ARENA_SIZE + PGSIZE - 1 < 2 ^ 64 := by
      simpa only [not_or, Nat.not_lt, Nat.not_le] using hnot
    exact calloc_fails hprod ha hb hfits hsuff
  · rcases hcases with hword | hless | hless | hwrap
    · by_cases hfits : a.toNat * b.toNat + ARENA_SIZE + PGSIZE - 1 < 2 ^ 64
      · exact calloc_suffices hfits
      · refine calloc_runs_off ?_
        rw [Nat.mod_eq_of_lt hword]
        exact Nat.le_of_not_lt hfits
    · exact calloc_refuses (.inl hless)
    · exact calloc_refuses (.inr hless)
    · exact calloc_runs_off hwrap
  · by_contra hwrap
    exact realloc_fails hlt (Nat.le_of_not_lt hwrap) hsuff

/-- The largest request gets a page, and so does a product that wraps to little more than its
factors. -/
theorem no_room : ¬ MallocSuffices (2 ^ 64 - 1) ∧ ¬ CallocSuffices (2 ^ 32 + 1) (2 ^ 32 + 1)
    ∧ ¬ ReallocSuffices (2 ^ 64 - 1) :=
  ⟨malloc_fails (by decide) (by decide),
    calloc_fails (by decide) (by decide) (by decide) (by decide),
    realloc_fails (by decide) (by decide)⟩

end Pintos.heap
