/-
What `populate_pools` leaves of the memory map.

The second loop frees, region by region, what lies past the bitmaps. A page it starts at is
in one of the pools unless the bitmaps end where a region ends: at the end of memory, or at
the end of the kernel pool with a hole behind.

So there are three ways to go wrong: that one, a cut inside a region that is not the last,
and a user pool of no pages, for which the first loop leaves the bounds of all of memory.
-/
import Pintos.Threads.Carving

set_option autoImplicit false

namespace Pintos.palloc

open Pintos.Span

/-! ## Pages of a pool -/

/-- The page is one of the pool's. -/
def pool.holds (p : pool) (page : ℕ) : Prop :=
  ∃ b, p.used_map = some b ∧ pg_no p.base ≤ page ∧ page < pg_no p.base + b.bit_cnt

/-- The page is marked free. -/
def pool.free (p : pool) (page : ℕ) : Prop :=
  ∃ b, p.used_map = some b ∧ pg_no p.base ≤ page ∧ page < pg_no p.base + b.bit_cnt
    ∧ b.bits (page - pg_no p.base) = false

/-- The pools are those of the pages from `lo` up to `hi`. -/
def Shape (lo hi : pool_id → ℕ) (s : pools) : Prop :=
  ∀ w, ∃ bits, s w = ⟨some ⟨hi w - lo w, bits⟩, lo w * PGSIZE⟩

/-- The bounds are addresses in order. -/
structure Bounds (lo hi : pool_id → ℕ) : Prop where
  le : ∀ w, lo w ≤ hi w
  lt : ∀ w, hi w * PGSIZE < 2 ^ 64

/-- The bits of the pages `a ≤ page < b` of pool `w` are cleared. -/
def cleared (lo : pool_id → ℕ) (s : pools) (w : pool_id) (a b : ℕ) : pools :=
  Function.update s w { s w with
    used_map := (s w).used_map.map fun m => { m with
      bits := fun k => if a - lo w ≤ k ∧ k < a - lo w + (b - a) then false else m.bits k } }

section Split

variable {lo hi : pool_id → ℕ} {s s' : pools} {w : pool_id} {st l page fuel : ℕ}

theorem pg_no_mul (n : ℕ) : pg_no (n * PGSIZE) = n := pages_of_size n

theorem Shape.holds_iff (h : Shape lo hi s) (hb : Bounds lo hi) :
    (s w).holds page ↔ lo w ≤ page ∧ page < hi w := by
  obtain ⟨bits, hs⟩ := h w
  have hle := hb.le w
  unfold pool.holds
  rw [hs]
  simp only [Option.some.injEq, exists_eq_left', pg_no_mul]
  omega

theorem Shape.after_cleared (h : Shape lo hi s) {a b : ℕ} : Shape lo hi (cleared lo s w a b) := by
  intro w'
  unfold cleared
  by_cases hw : w' = w
  · subst hw
    obtain ⟨bits, hs⟩ := h w'
    rw [Function.update_self, hs]
    exact ⟨_, rfl⟩
  · rw [Function.update_of_ne hw]
    exact h w'

/-- Clearing bits frees their pages. -/
theorem Shape.cleared_free (h : Shape lo hi s) {a b : ℕ} (ha : lo w ≤ a) (hab : a ≤ b)
    (hbw : b ≤ hi w) : (∃ w', (cleared lo s w a b w').free page)
      ↔ (∃ w', (s w').free page) ∨ a ≤ page ∧ page < b := by
  have hother : ∀ w', w' ≠ w → cleared lo s w a b w' = s w' :=
    fun w' hw' => Function.update_of_ne hw' _ _
  have hself : (cleared lo s w a b w).free page
      ↔ (s w).free page ∨ a ≤ page ∧ page < b := by
    obtain ⟨bits, hs⟩ := h w
    unfold cleared pool.free
    rw [Function.update_self, hs]
    simp only [Option.map_some, Option.some.injEq, exists_eq_left', pg_no_mul]
    by_cases hin : a ≤ page ∧ page < b
    · rw [if_pos (by omega)]
      constructor
      · exact fun _ => .inr hin
      · exact fun _ => ⟨by omega, by omega, rfl⟩
    · constructor
      · rintro ⟨h₁, h₂, h₃⟩
        rw [if_neg (by omega)] at h₃
        exact .inl ⟨h₁, h₂, h₃⟩
      · rintro (⟨h₁, h₂, h₃⟩ | h₁)
        · refine ⟨h₁, h₂, ?_⟩
          rw [if_neg (by omega)]
          exact h₃
        · exact absurd h₁ hin
  constructor
  · rintro ⟨w', hw'⟩
    by_cases heq : w' = w
    · subst heq
      rcases hself.mp hw' with hfree | hin
      · exact .inl ⟨w', hfree⟩
      · exact .inr hin
    · rw [hother w' heq] at hw'
      exact .inl ⟨w', hw'⟩
  · rintro (⟨w', hw'⟩ | hin)
    · by_cases heq : w' = w
      · subst heq
        exact ⟨w', hself.mpr (.inl hw')⟩
      · rw [← hother w' heq] at hw'
        exact ⟨w', hw'⟩
    · exact ⟨w, hself.mpr (.inr hin)⟩

/-! ## The label `split` -/

theorem Shape.page_from_pool_eq (h : Shape lo hi s) (hb : Bounds lo hi) :
    page_from_pool (s w) (page * PGSIZE) = .ok (decide (lo w ≤ page ∧ page < hi w)) := by
  obtain ⟨bits, hs⟩ := h w
  have hle := hb.le w
  unfold page_from_pool deref
  rw [hs]
  simp only [Outcome.pure_eq, Outcome.ok_bind, pg_no_mul]
  congr 2
  rw [Nat.add_sub_cancel' hle]

/-- The pool that is picked holds the page. -/
theorem Shape.pool_of_eq (h : Shape lo hi s) (hb : Bounds lo hi) :
    pool_of s (page * PGSIZE)
      = if lo .kernel_pool ≤ page ∧ page < hi .kernel_pool then .ok .kernel_pool
        else if lo .user_pool ≤ page ∧ page < hi .user_pool then .ok .user_pool
        else .panic := by
  unfold pool_of
  rw [h.page_from_pool_eq hb, h.page_from_pool_eq hb]
  simp only [Outcome.ok_bind, decide_eq_true_eq, Outcome.pure_eq]

theorem Shape.of_pool_of (h : Shape lo hi s) (hb : Bounds lo hi)
    (hw : pool_of s (page * PGSIZE) = .ok w) : lo w ≤ page ∧ page < hi w := by
  rw [h.pool_of_eq hb] at hw
  split_ifs at hw with h₁ h₂
  · rw [← Outcome.ok.inj hw]
    exact h₁
  · rw [← Outcome.ok.inj hw]
    exact h₂

/-- One round, at the page `st` of pool `w`. -/
theorem Shape.split_eq (h : Shape lo hi s) (hb : Bounds lo hi) (hl : l * PGSIZE < 2 ^ 64)
    (hst : st ≤ l) (hw : pool_of s (st * PGSIZE) = .ok w) :
    split (l * PGSIZE) (fuel + 1) (st * PGSIZE) s
      = if hi w < l then split (l * PGSIZE) fuel (hi w * PGSIZE) (cleared lo s w st (hi w))
        else .ok (cleared lo s w st l) := by
  have hin := h.of_pool_of hb hw
  have hle := hb.le w
  have hlt := hb.lt w
  obtain ⟨bits, hs⟩ := h w
  have hend : (lo w * PGSIZE + (hi w - lo w) * PGSIZE) % 2 ^ 64 = hi w * PGSIZE := by
    rw [← Nat.add_mul, Nat.add_sub_cancel' hle, Nat.mod_eq_of_lt hlt]
  have hcnt : ∀ n, st ≤ n → n * PGSIZE < 2 ^ 64 →
      (n * PGSIZE + 2 ^ 64 - st * PGSIZE) % 2 ^ 64 / PGSIZE = n - st := by
    intro n hn hn'
    unfold PGSIZE at hn' ⊢
    omega
  have hbits : hi w - lo w < 2 ^ 64 := by
    unfold PGSIZE at hlt
    omega
  have hiff : hi w * PGSIZE < l * PGSIZE ↔ hi w < l := by
    unfold PGSIZE
    omega
  rw [split, hw, Outcome.ok_bind, hs, deref, Outcome.pure_eq, Outcome.ok_bind]
  simp only [hend, hiff, pg_no_mul]
  by_cases hmore : hi w < l
  · rw [if_pos hmore, if_pos hmore, hcnt _ hin.2.le hlt,
      bitmap_set_multiple_eq (by dsimp only; omega) hbits, Outcome.ok_bind]
    unfold cleared
    rw [hs]
    rfl
  · rw [if_neg hmore, if_neg hmore, hcnt _ hst hl,
      bitmap_set_multiple_eq (by dsimp only; omega) hbits, Outcome.ok_bind]
    unfold cleared
    rw [hs]
    rfl

/-- Whatever is freed, the pools stay where they are. -/
theorem Shape.split_ok (h : Shape lo hi s) (hb : Bounds lo hi) (hl : l * PGSIZE < 2 ^ 64)
    (hst : st ≤ l) (hok : split (l * PGSIZE) fuel (st * PGSIZE) s = .ok s') : Shape lo hi s' := by
  induction fuel generalizing s st with
  | zero => cases hok
  | succ fuel ih =>
    obtain ⟨w, hw, -⟩ := Outcome.bind_eq_ok.mp hok
    rw [h.split_eq hb hl hst hw] at hok
    split_ifs at hok with hmore
    · exact ih h.after_cleared hmore.le hok
    · rw [← Outcome.ok.inj hok]
      exact h.after_cleared

end Split

/-! ## The second loop -/

/-- One round of the second loop, at a span. -/
def free_span (usable_bound : ℕ) (s : pools) (r : Span) : Outcome pools :=
  if r.last * PGSIZE < usable_bound then return s
  else
    let start := if r.first * PGSIZE ≥ usable_bound then r.first * PGSIZE else usable_bound
    split (r.last * PGSIZE) 4 (pg_round_up start) s

theorem MemoryMap.free_entries {entries : List e820_entry} (hm : MemoryMap entries)
    (usable_bound : ℕ) (s : pools) :
    entries.foldlM (free_entry usable_bound) s
      = (spans entries).foldlM (free_span usable_bound) s := by
  apply foldlM_entries
  · intro e he hu s
    have hlt := hm.last_lt (mem_spans.mpr ⟨e, he, hu, rfl⟩)
    have hend : (ptov e.mem + e.len) % 2 ^ 64 = e.span.last * PGSIZE := by
      rw [hm.end_eq he hu]
      exact Nat.mod_eq_of_lt hlt
    unfold free_entry free_span
    rw [if_pos hu]
    dsimp only
    rw [hend, (hm.ptov_eq he hu).1]
  · intro e he hu s
    exact if_neg hu

theorem pg_round_up_mul {n : ℕ} (hlt : n * PGSIZE < 2 ^ 64) :
    pg_round_up (n * PGSIZE) = n * PGSIZE := by
  unfold pg_round_up
  unfold PGSIZE at hlt ⊢
  omega

section Free

variable {lo hi : pool_id → ℕ} {s s' : pools} {r : Span} {rs : List Span} {b : ℕ}

/-- The round in pages: from the later of the region's start and the bitmaps' end. -/
theorem free_span_eq (hlt : r.last * PGSIZE < 2 ^ 64) : free_span (b * PGSIZE) s r
    = if r.last < b then .ok s
      else split (r.last * PGSIZE) 4 (max r.first b * PGSIZE) s := by
  unfold free_span
  by_cases hskip : r.last < b
  · rw [if_pos hskip, if_pos (Nat.mul_lt_mul_of_pos_right hskip (by decide))]
    rfl
  · have hle : r.first ≤ r.last := Nat.le_add_right _ _
    have hmax : max r.first b ≤ r.last := Nat.max_le.mpr ⟨hle, Nat.le_of_not_lt hskip⟩
    have hstart : (if r.first * PGSIZE ≥ b * PGSIZE then r.first * PGSIZE else b * PGSIZE)
        = max r.first b * PGSIZE := by
      split_ifs with h
      · rw [Nat.max_eq_left (Nat.le_of_mul_le_mul_right h (by decide))]
      · have hle' : r.first ≤ b := by
          unfold PGSIZE at h
          omega
        rw [Nat.max_eq_right hle']
    have hno : ¬ r.last * PGSIZE < b * PGSIZE := by
      unfold PGSIZE
      omega
    rw [if_neg hskip, if_neg hno]
    dsimp only
    rw [hstart, pg_round_up_mul (Nat.lt_of_le_of_lt (Nat.mul_le_mul_right _ hmax) hlt)]

/-- The pages from `st` up to `l` are in one pool, or in the kernel pool and then in the user
pool right behind it. -/
def Served (lo hi : pool_id → ℕ) (st l : ℕ) : Prop :=
  (lo .kernel_pool ≤ st ∧ st < hi .kernel_pool
      ∧ (l ≤ hi .kernel_pool ∨ lo .user_pool = hi .kernel_pool ∧ l ≤ hi .user_pool))
    ∨ hi .kernel_pool ≤ st ∧ lo .user_pool ≤ st ∧ st < hi .user_pool ∧ l ≤ hi .user_pool

/-- Such pages are freed, in one round or in two. -/
theorem Served.split {st l fuel : ℕ} (hserved : Served lo hi st l) (h : Shape lo hi s)
    (hb : Bounds lo hi) (hl : l * PGSIZE < 2 ^ 64) (hst : st ≤ l) :
    ∃ s', split (l * PGSIZE) (fuel + 2) (st * PGSIZE) s = .ok s' ∧ Shape lo hi s'
      ∧ ∀ page, (∃ w, (s' w).free page) ↔ (∃ w, (s w).free page) ∨ st ≤ page ∧ page < l := by
  rcases hserved with ⟨h₁, h₂, h₃⟩ | ⟨h₁, h₂, h₃, h₄⟩
  · have hpool : pool_of s (st * PGSIZE) = .ok .kernel_pool := by
      rw [h.pool_of_eq hb, if_pos ⟨h₁, h₂⟩]
    rw [h.split_eq hb hl hst hpool]
    by_cases hmore : hi .kernel_pool < l
    · -- the second round starts where the user pool does
      have huser : lo .user_pool = hi .kernel_pool ∧ l ≤ hi .user_pool := by
        rcases h₃ with hle | hle
        · omega
        · exact hle
      have hshape := h.after_cleared (w := .kernel_pool) (a := st) (b := hi .kernel_pool)
      have hpool' : pool_of (cleared lo s .kernel_pool st (hi .kernel_pool))
          (hi .kernel_pool * PGSIZE) = .ok .user_pool := by
        rw [hshape.pool_of_eq hb, if_neg (by omega), if_pos (by omega)]
      rw [if_pos hmore, hshape.split_eq hb hl hmore.le hpool', if_neg (by omega)]
      refine ⟨_, rfl, hshape.after_cleared, fun page => ?_⟩
      rw [hshape.cleared_free huser.1.le hmore.le huser.2, h.cleared_free h₁ h₂.le (Nat.le_refl _),
        or_assoc]
      apply or_congr_right
      omega
    · rw [if_neg hmore]
      exact ⟨_, rfl, h.after_cleared, fun page => h.cleared_free h₁ hst (Nat.le_of_not_lt hmore)⟩
  · have hpool : pool_of s (st * PGSIZE) = .ok .user_pool := by
      rw [h.pool_of_eq hb, if_neg (by omega), if_pos ⟨h₂, h₃⟩]
    rw [h.split_eq hb hl hst hpool, if_neg (by omega)]
    exact ⟨_, rfl, h.after_cleared, fun page => h.cleared_free h₂ hst h₄⟩

theorem max_first_le {b : ℕ} (h : b ≤ r.last) : max r.first b ≤ r.last :=
  Nat.max_le.mpr ⟨Nat.le_add_right _ _, h⟩

/-- The whole loop frees what lies past the bitmaps in every region. -/
theorem free_spans_ok (h : Shape lo hi s) (hb : Bounds lo hi)
    (hlast : ∀ r ∈ rs, r.last * PGSIZE < 2 ^ 64)
    (hserved : ∀ r ∈ rs, b ≤ r.last → Served lo hi (max r.first b) r.last) :
    ∃ s', rs.foldlM (free_span (b * PGSIZE)) s = .ok s' ∧ Shape lo hi s'
      ∧ ∀ page, (∃ w, (s' w).free page)
        ↔ (∃ w, (s w).free page) ∨ ∃ r ∈ rs, max r.first b ≤ page ∧ page < r.last := by
  induction rs generalizing s with
  | nil => exact ⟨s, rfl, h, by simp⟩
  | cons r rs ih =>
    have hl := hlast r List.mem_cons_self
    have hrest := fun {s} (h : Shape lo hi s) =>
      ih h (fun q hq => hlast q (List.mem_cons_of_mem _ hq))
      fun q hq => hserved q (List.mem_cons_of_mem _ hq)
    have hstep : ∃ s₁, free_span (b * PGSIZE) s r = .ok s₁ ∧ Shape lo hi s₁
        ∧ ∀ page, (∃ w, (s₁ w).free page)
          ↔ (∃ w, (s w).free page) ∨ max r.first b ≤ page ∧ page < r.last := by
      rw [free_span_eq hl]
      by_cases hskip : r.last < b
      · rw [if_pos hskip]
        refine ⟨s, rfl, h, fun page => ?_⟩
        -- nothing of the region lies past the bitmaps
        have hnone : ¬ (max r.first b ≤ page ∧ page < r.last) := by omega
        rw [or_iff_left hnone]
      · have hle := Nat.le_of_not_lt hskip
        rw [if_neg hskip]
        exact (hserved r List.mem_cons_self hle).split h hb hl (max_first_le hle)
    obtain ⟨s₁, hrun, hshape, hfree⟩ := hstep
    obtain ⟨s', hrun', hshape', hfree'⟩ := hrest hshape
    refine ⟨s', ?_, hshape', fun page => ?_⟩
    · rw [List.foldlM_cons, hrun]
      exact hrun'
    · rw [hfree', hfree, or_assoc]
      simp

/-- A loop that returns has kept the pools in place, and found a pool at every region's start. -/
theorem free_spans_inv (h : Shape lo hi s) (hb : Bounds lo hi)
    (hlast : ∀ r ∈ rs, r.last * PGSIZE < 2 ^ 64)
    (hok : rs.foldlM (free_span (b * PGSIZE)) s = .ok s') : Shape lo hi s'
      ∧ ∀ r ∈ rs, b ≤ r.last → ∃ w, lo w ≤ max r.first b ∧ max r.first b < hi w := by
  induction rs generalizing s with
  | nil =>
    rw [← Outcome.ok.inj hok]
    exact ⟨h, by simp⟩
  | cons r rs ih =>
    have hl := hlast r List.mem_cons_self
    rw [List.foldlM_cons] at hok
    obtain ⟨s₁, hstep, hok⟩ := Outcome.bind_eq_ok.mp hok
    rw [free_span_eq hl] at hstep
    have hfirst : Shape lo hi s₁
        ∧ (b ≤ r.last → ∃ w, lo w ≤ max r.first b ∧ max r.first b < hi w) := by
      split_ifs at hstep with hskip
      · rw [← Outcome.ok.inj hstep]
        exact ⟨h, fun hle => absurd hskip (Nat.not_lt.mpr hle)⟩
      · have hle := Nat.le_of_not_lt hskip
        refine ⟨h.split_ok hb hl (max_first_le hle) hstep, fun _ => ?_⟩
        obtain ⟨w, hw, -⟩ := Outcome.bind_eq_ok.mp hstep
        exact ⟨w, h.of_pool_of hb hw⟩
    obtain ⟨hshape, hrest⟩ := ih hfirst.1 (fun q hq => hlast q (List.mem_cons_of_mem _ hq)) hok
    refine ⟨hshape, fun q hq => ?_⟩
    rcases List.mem_cons.mp hq with rfl | hq
    · exact hfirst.2
    · exact hrest q hq

end Free

/-! ## The layout of the pools -/

section Layout

variable (entries : List e820_entry) (_end user_page_limit : ℕ)

/-- `user_pages`, of all usable pages. -/
def user_pages : ℕ :=
  if total (spans entries) / 2 > user_page_limit then user_page_limit
  else total (spans entries) / 2

/-- `kern_pages`. -/
def kern_pages : ℕ := total (spans entries) - user_pages entries user_page_limit

/-- The first usable page. -/
def first_page : ℕ := (spans entries).head?.elim 0 Span.first

/-- The page after the last usable one. -/
def memory_end : ℕ := finish 0 (spans entries)

/-- The page after the kernel's share of usable memory. -/
def kernel_end : ℕ := cut_end (spans entries) (kern_pages entries user_page_limit)

/-- The first page of the user's share. -/
def user_start : ℕ :=
  cut_start (first_page entries) (spans entries) (kern_pages entries user_page_limit)

/-- Where the two bitmaps end that are laid out behind the kernel image. -/
def bitmaps_end : ℕ :=
  pg_round_up _end + (map_pages (kernel_end entries user_page_limit - first_page entries)
    + map_pages (memory_end entries - user_start entries user_page_limit)) * PGSIZE

/-- There is usable memory for the bitmaps behind the kernel image. -/
def Room : Prop := ∃ r ∈ spans entries,
  r.first * PGSIZE ≤ pg_round_up _end ∧ bitmaps_end entries _end user_page_limit ≤ r.last * PGSIZE

/-- The user pool gets a page, the cut falls between two regions or into the last one, and the
bitmaps do not end at the end of memory, nor at the end of the kernel pool with a hole behind. -/
structure Fits : Prop where
  user : 0 < user_pages entries user_page_limit
  whole : ∀ front r back, spans entries = front ++ r :: back →
    total front < kern_pages entries user_page_limit →
    kern_pages entries user_page_limit < total front + r.size → back = []
  memory : bitmaps_end entries _end user_page_limit ≠ memory_end entries * PGSIZE
  hole : bitmaps_end entries _end user_page_limit = kernel_end entries user_page_limit * PGSIZE →
    user_start entries user_page_limit = kernel_end entries user_page_limit

/-- The pools are disjoint, and what is free in them are the whole pages of usable entries from
`bound` on. -/
structure SetUp (bound : ℕ) (s : pools) : Prop where
  disjoint : ∀ page, ¬ ((s .kernel_pool).holds page ∧ (s .user_pool).holds page)
  free : ∀ page, (∃ w, (s w).free page) ↔ (∃ e ∈ entries, e.usable ∧ ptov e.mem ≤ page * PGSIZE
    ∧ (page + 1) * PGSIZE ≤ ptov e.mem + e.len) ∧ bound ≤ page * PGSIZE

/-- The first page of each pool. -/
def pool_lo : pool_id → ℕ
  | .kernel_pool => first_page entries
  | .user_pool => user_start entries user_page_limit

/-- The page after each pool. -/
def pool_hi : pool_id → ℕ
  | .kernel_pool => kernel_end entries user_page_limit
  | .user_pool => memory_end entries

end Layout

section Pools

variable {entries : List e820_entry} {_end user_page_limit : ℕ}

theorem MemoryMap.lt_of_mem (hm : MemoryMap entries) :
    ∀ q ∈ spans entries, q.last * PGSIZE < 2 ^ 64 := fun _ hq => hm.last_lt hq

theorem kern_add_user (entries : List e820_entry) (user_page_limit : ℕ) :
    kern_pages entries user_page_limit + user_pages entries user_page_limit
    = total (spans entries) := by
  unfold kern_pages user_pages
  split_ifs with h
  · omega
  · omega

/-- The kernel gets at least half. -/
theorem kern_pages_pos (user_page_limit : ℕ) (hpos : 0 < total (spans entries)) :
    0 < kern_pages entries user_page_limit := by
  unfold kern_pages user_pages
  split_ifs with h
  · omega
  · omega

theorem first_page_eq {r₀ : Span} {rs₀ : List Span} (hs : spans entries = r₀ :: rs₀) :
    first_page entries = r₀.first := by
  simp [first_page, hs]

theorem MemoryMap.kernel_part (hm : MemoryMap entries) (user_page_limit : ℕ)
    (hne : spans entries ≠ []) : first_page entries < kernel_end entries user_page_limit
      ∧ kernel_end entries user_page_limit ≤ memory_end entries := by
  have hpos := kern_pages_pos user_page_limit (hm.ascending.total_pos hne)
  have hle : kern_pages entries user_page_limit ≤ total (spans entries) := Nat.sub_le _ _
  obtain ⟨r₀, rs₀, hs⟩ := List.exists_cons_of_ne_nil hne
  have hasc : Ascending (r₀ :: rs₀) := hs ▸ hm.ascending
  rw [first_page_eq hs]
  unfold kernel_end memory_end
  rw [hs] at hle ⊢
  exact ⟨hasc.first_lt_cut_end hpos hle, hasc.cut_end_le_finish hpos hle⟩

theorem MemoryMap.user_part (hm : MemoryMap entries) (hne : spans entries ≠ [])
    (hu : 0 < user_pages entries user_page_limit) :
    kernel_end entries user_page_limit ≤ user_start entries user_page_limit
      ∧ user_start entries user_page_limit < memory_end entries := by
  have hpos := kern_pages_pos user_page_limit (hm.ascending.total_pos hne)
  have hsum := kern_add_user entries user_page_limit
  have hlt : kern_pages entries user_page_limit < total (spans entries) := by omega
  exact ⟨hm.ascending.cut_end_le_cut_start hpos hlt, hm.ascending.cut_start_lt_finish hlt⟩

/-- With no page for the user pool, it begins where the kernel pool does. -/
theorem MemoryMap.no_user_part (hm : MemoryMap entries)
    (hu : user_pages entries user_page_limit = 0) :
    user_start entries user_page_limit = first_page entries := by
  have hsum := kern_add_user entries user_page_limit
  exact cut_start_of_total_le (by omega) hm.ascending.pos

theorem MemoryMap.memory_end_lt (hm : MemoryMap entries) (hne : spans entries ≠ []) :
    memory_end entries * PGSIZE < 2 ^ 64 := by
  obtain ⟨r, hr, hlast⟩ := finish_mem (d := 0) hne
  unfold memory_end
  rw [← hlast]
  exact hm.last_lt hr

theorem MemoryMap.bounds (hm : MemoryMap entries) (user_page_limit : ℕ)
    (hne : spans entries ≠ []) :
    Bounds (pool_lo entries user_page_limit) (pool_hi entries user_page_limit) := by
  have hkernel := hm.kernel_part user_page_limit hne
  have hlt := hm.memory_end_lt hne
  constructor
  · intro w
    cases w with
    | kernel_pool => exact hkernel.1.le
    | user_pool =>
      unfold pool_lo pool_hi
      dsimp only
      by_cases hu : user_pages entries user_page_limit = 0
      · rw [hm.no_user_part hu]
        omega
      · exact (hm.user_part hne (Nat.pos_of_ne_zero hu)).2.le
  · intro w
    cases w with
    | kernel_pool => exact Nat.lt_of_le_of_lt (Nat.mul_le_mul_right _ hkernel.2) hlt
    | user_pool => exact hlt

/-- The pools as `init_pool` leaves them. -/
def initial (entries : List e820_entry) (user_page_limit : ℕ) : pools :=
  both (fresh (first_page entries) (kernel_end entries user_page_limit))
    (fresh (user_start entries user_page_limit) (memory_end entries))

theorem initial_shape :
    Shape (pool_lo entries user_page_limit) (pool_hi entries user_page_limit)
      (initial entries user_page_limit) := by
  intro w
  cases w with
  | kernel_pool => exact ⟨_, rfl⟩
  | user_pool => exact ⟨_, rfl⟩

theorem fresh_not_free {lo hi page : ℕ} : ¬ (fresh lo hi).free page := by
  rintro ⟨b, hb, h₁, h₂, h₃⟩
  obtain rfl := Option.some.inj hb
  have hbit : (taken (hi - lo)).bits (page - pg_no (fresh lo hi).base) = true := by
    apply decide_eq_true
    have : (taken (hi - lo)).bit_cnt = hi - lo := rfl
    omega
  rw [hbit] at h₃
  cases h₃

theorem initial_not_free (page : ℕ) : ¬ ∃ w, (initial entries user_page_limit w).free page := by
  rintro ⟨w, hw⟩
  cases w with
  | kernel_pool => exact fresh_not_free hw
  | user_pool => exact fresh_not_free hw

/-! ## The whole function -/

theorem Room.spans_ne_nil (hroom : Room entries _end user_page_limit) : spans entries ≠ [] := by
  obtain ⟨r, hr, -⟩ := hroom
  exact List.ne_nil_of_mem hr

/-- The call as far as the first loop. -/
theorem MemoryMap.palloc_init_eq (hm : MemoryMap entries) : palloc_init entries _end user_page_limit
    = (do
      let c ← (spans entries).foldlM (carve_span (user_pages entries user_page_limit))
        ⟨.KERN_START, kern_pages entries user_page_limit, 0, 0, pg_round_up _end, pool.zero⟩
      let (user_pool, usable_bound) ← init_pool c.free_start c.region_start c.end_
      let s ← (spans entries).foldlM (free_span usable_bound) (both c.kernel_pool user_pool)
      return (s, usable_bound)) := by
  unfold palloc_init populate_pools
  simp only [hm.total_pages, hm.carve_entries, hm.free_entries]
  rfl

/-- With a cut in its place, both pools are made and the second loop runs. -/
theorem MemoryMap.palloc_init_split (hm : MemoryMap entries)
    (hroom : Room entries _end user_page_limit)
    (hwhole : ∀ front r back, spans entries = front ++ r :: back →
      total front < kern_pages entries user_page_limit →
      kern_pages entries user_page_limit < total front + r.size → back = []) :
    palloc_init entries _end user_page_limit
      = (do
        let s ← (spans entries).foldlM (free_span (bitmaps_end entries _end user_page_limit))
          (initial entries user_page_limit)
        return (s, bitmaps_end entries _end user_page_limit)) := by
  have hne := hroom.spans_ne_nil
  have hpos := kern_pages_pos user_page_limit (hm.ascending.total_pos hne)
  have hbounds := hm.bounds user_page_limit hne
  have hbitmaps : bitmaps_end entries _end user_page_limit < 2 ^ 64 := by
    obtain ⟨r, hr, -, hle⟩ := hroom
    exact Nat.lt_of_le_of_lt hle (hm.last_lt hr)
  obtain ⟨c, hrun, hcarved⟩ : ∃ c, (spans entries).foldlM
      (carve_span (user_pages entries user_page_limit))
      ⟨.KERN_START, kern_pages entries user_page_limit, 0, 0, pg_round_up _end, pool.zero⟩ = .ok c
      ∧ Carved (spans entries) (first_page entries) (kern_pages entries user_page_limit)
        (pg_round_up _end) c := by
    have hasc := hm.ascending
    have hlast := hm.lt_of_mem
    have hsum := kern_add_user entries user_page_limit
    obtain ⟨r₀, rs₀, hs⟩ := List.exists_cons_of_ne_nil hne
    rw [first_page_eq hs]
    rw [hs] at hasc hlast hwhole hsum ⊢
    exact carve_ok hasc hlast hsum hpos hwhole
  rw [hm.palloc_init_eq, hrun, Outcome.ok_bind, hcarved.free_start, hcarved.region_start,
    hcarved.end_, hcarved.kernel_pool]
  have hend : ((pg_round_up _end
        + map_pages (kernel_end entries user_page_limit - first_page entries) * PGSIZE) % 2 ^ 64
      + map_pages (pool_hi entries user_page_limit .user_pool
        - pool_lo entries user_page_limit .user_pool) * PGSIZE) % 2 ^ 64
      = bitmaps_end entries _end user_page_limit := by
    rw [Nat.mod_add_mod, Nat.add_assoc, ← Nat.add_mul]
    exact Nat.mod_eq_of_lt hbitmaps
  have hmade : init_pool ((pg_round_up _end
        + map_pages (cut_end (spans entries) (kern_pages entries user_page_limit)
          - first_page entries) * PGSIZE) % 2 ^ 64)
      (cut_start (first_page entries) (spans entries) (kern_pages entries user_page_limit) * PGSIZE)
      (finish 0 (spans entries) * PGSIZE)
      = .ok (fresh (user_start entries user_page_limit) (memory_end entries),
        bitmaps_end entries _end user_page_limit) := by
    rw [← hend]
    exact init_pool_eq (hbounds.le .user_pool) (hbounds.lt .user_pool)
  rw [hmade, Outcome.ok_bind]
  rfl

/-- The bitmaps end at a page boundary. -/
theorem exists_bitmaps_page (entries : List e820_entry) (_end user_page_limit : ℕ) :
    ∃ b, bitmaps_end entries _end user_page_limit = b * PGSIZE := by
  unfold bitmaps_end pg_round_up
  exact ⟨_, (Nat.add_mul _ _ _).symm⟩

/-- Every region is served from the bitmaps' end on. -/
theorem Fits.served {b : ℕ} (h : Fits entries _end user_page_limit) (hm : MemoryMap entries)
    (hne : spans entries ≠ []) (hb : bitmaps_end entries _end user_page_limit = b * PGSIZE) :
    ∀ r ∈ spans entries, b ≤ r.last →
      Served (pool_lo entries user_page_limit) (pool_hi entries user_page_limit)
        (max r.first b) r.last := by
  intro r hr hle
  have hkernel := hm.kernel_part user_page_limit hne
  have huser := hm.user_part hne h.user
  have hpos := kern_pages_pos user_page_limit (hm.ascending.total_pos hne)
  have hsum := kern_add_user entries user_page_limit
  have hu := h.user
  have hsize : r.first < r.last := Nat.lt_add_of_pos_right (hm.ascending.pos r hr)
  have hlast : r.last ≤ memory_end entries := hm.ascending.last_le_finish r hr
  have hfirst : first_page entries ≤ r.first := by
    obtain ⟨r₀, rs₀, hs⟩ := List.exists_cons_of_ne_nil hne
    have hasc := hm.ascending
    rw [first_page_eq hs]
    rw [hs] at hasc hr
    exact hasc.first_le r hr
  -- the bitmaps end neither at the end of memory nor before a hole
  have hmemory : b ≠ memory_end entries := fun heq => h.memory (by rw [hb, heq])
  have hhole : b = kernel_end entries user_page_limit →
      user_start entries user_page_limit = kernel_end entries user_page_limit :=
    fun heq => h.hole (by rw [hb, heq])
  have hcut : r.last ≤ kernel_end entries user_page_limit
      ∨ user_start entries user_page_limit ≤ r.first
      ∨ r.first < kernel_end entries user_page_limit
        ∧ user_start entries user_page_limit = kernel_end entries user_page_limit :=
    hm.ascending.cut_mem hpos (by omega) r hr
  unfold Served
  dsimp only [pool_lo, pool_hi]
  rcases hcut with hbefore | hafter | ⟨hin, heq⟩
  · by_cases hlt : max r.first b < kernel_end entries user_page_limit
    · exact .inl ⟨by omega, hlt, .inl hbefore⟩
    · have := hhole (by omega)
      exact .inr ⟨by omega, by omega, by omega, hlast⟩
  · exact .inr ⟨by omega, by omega, by omega, hlast⟩
  · by_cases hlt : max r.first b < kernel_end entries user_page_limit
    · exact .inl ⟨by omega, hlt, .inr ⟨heq, hlast⟩⟩
    · exact .inr ⟨by omega, by omega, by omega, hlast⟩

/-- The pages past the bitmaps, by region and by entry. -/
theorem MemoryMap.usable_iff {b page : ℕ} (hm : MemoryMap entries) :
    (∃ r ∈ spans entries, max r.first b ≤ page ∧ page < r.last)
      ↔ (∃ e ∈ entries, e.usable ∧ ptov e.mem ≤ page * PGSIZE
        ∧ (page + 1) * PGSIZE ≤ ptov e.mem + e.len) ∧ b * PGSIZE ≤ page * PGSIZE := by
  have hscale : ∀ m n : ℕ, m * PGSIZE ≤ n * PGSIZE ↔ m ≤ n :=
    fun m n => Nat.mul_le_mul_right_iff (by decide)
  constructor
  · rintro ⟨r, hr, hle, hlt⟩
    obtain ⟨e, he, hu, rfl⟩ := mem_spans.mp hr
    have hmax := Nat.max_le.mp hle
    refine ⟨⟨e, he, hu, ?_, ?_⟩, (hscale _ _).mpr hmax.2⟩
    · rw [(hm.ptov_eq he hu).1]
      exact (hscale _ _).mpr hmax.1
    · rw [hm.end_eq he hu]
      exact (hscale _ _).mpr hlt
  · rintro ⟨⟨e, he, hu, hfirst, hlast⟩, hle⟩
    rw [(hm.ptov_eq he hu).1] at hfirst
    rw [hm.end_eq he hu] at hlast
    exact ⟨e.span, mem_spans.mpr ⟨e, he, hu, rfl⟩,
      Nat.max_le.mpr ⟨(hscale _ _).mp hfirst, (hscale _ _).mp hle⟩, (hscale _ _).mp hlast⟩

/-- **`palloc_init`** leaves the pools of `pool_lo` and `pool_hi`. -/
theorem Fits.palloc_init_shape (h : Fits entries _end user_page_limit) (hm : MemoryMap entries)
    (hroom : Room entries _end user_page_limit) :
    ∃ s, palloc_init entries _end user_page_limit
        = .ok (s, bitmaps_end entries _end user_page_limit)
      ∧ Shape (pool_lo entries user_page_limit) (pool_hi entries user_page_limit) s
      ∧ SetUp entries (bitmaps_end entries _end user_page_limit) s := by
  have hne := hroom.spans_ne_nil
  have hbounds := hm.bounds user_page_limit hne
  have huser := hm.user_part hne h.user
  obtain ⟨b, hb⟩ := exists_bitmaps_page entries _end user_page_limit
  obtain ⟨s, hrun, hshape, hfree⟩ := free_spans_ok initial_shape hbounds hm.lt_of_mem
    (h.served hm hne hb)
  refine ⟨s, ?_, hshape, ?_, ?_⟩
  · rw [hm.palloc_init_split hroom h.whole, hb, hrun]
    rfl
  · intro page
    rw [hshape.holds_iff hbounds, hshape.holds_iff hbounds]
    dsimp only [pool_lo, pool_hi]
    omega
  · intro page
    rw [hfree, or_iff_right (initial_not_free page), hm.usable_iff, hb]

/-- A map that fits is set up. -/
theorem Fits.set_up (h : Fits entries _end user_page_limit) (hm : MemoryMap entries)
    (hroom : Room entries _end user_page_limit) :
    ∃ s, palloc_init entries _end user_page_limit
        = .ok (s, bitmaps_end entries _end user_page_limit)
      ∧ SetUp entries (bitmaps_end entries _end user_page_limit) s := by
  obtain ⟨s, hrun, -, hset⟩ := h.palloc_init_shape hm hroom
  exact ⟨s, hrun, hset⟩

/-- A cut inside a region that is not the last stops the kernel. -/
theorem MemoryMap.palloc_init_panics {front back : List Span} {r : Span} (hm : MemoryMap entries)
    (hsplit : spans entries = front ++ r :: back)
    (hlt : total front < kern_pages entries user_page_limit)
    (hinside : kern_pages entries user_page_limit < total front + r.size) (hback : back ≠ []) :
    palloc_init entries _end user_page_limit = .panic := by
  have hasc := hm.ascending
  have hlast := hm.lt_of_mem
  have htotal : total (spans entries) < 2 ^ 64 := by
    have := hm.total_lt
    unfold PGSIZE at this
    omega
  have hsum := kern_add_user entries user_page_limit
  have hne : spans entries ≠ [] := by
    rw [hsplit]
    simp
  obtain ⟨r₀, rs₀, hs⟩ := List.exists_cons_of_ne_nil hne
  rw [hm.palloc_init_eq]
  rw [hs] at hasc hlast htotal hsum hsplit ⊢
  rw [carve_panics hasc hsplit hlast hsum htotal hlt hinside hback]
  rfl

/-- A map that is set up fits. -/
theorem Fits.of_set_up {s : pools} {bound : ℕ} (hm : MemoryMap entries)
    (hroom : Room entries _end user_page_limit)
    (hok : palloc_init entries _end user_page_limit = .ok (s, bound))
    (hset : SetUp entries bound s) : Fits entries _end user_page_limit := by
  have hne := hroom.spans_ne_nil
  have hbounds := hm.bounds user_page_limit hne
  have hkernel := hm.kernel_part user_page_limit hne
  have hpos := kern_pages_pos user_page_limit (hm.ascending.total_pos hne)
  have hsum := kern_add_user entries user_page_limit
  have hwhole : ∀ front r back, spans entries = front ++ r :: back →
      total front < kern_pages entries user_page_limit →
      kern_pages entries user_page_limit < total front + r.size → back = [] := by
    intro front r back hsplit hlt hinside
    by_contra hback
    rw [hm.palloc_init_panics hsplit hlt hinside hback] at hok
    cases hok
  obtain ⟨b, hb⟩ := exists_bitmaps_page entries _end user_page_limit
  rw [hm.palloc_init_split hroom hwhole] at hok
  obtain ⟨s', hrun, hret⟩ := Outcome.bind_eq_ok.mp hok
  obtain ⟨rfl, -⟩ := Outcome.ok_pair hret
  rw [hb] at hrun
  obtain ⟨hshape, hfound⟩ := free_spans_inv initial_shape hbounds hm.lt_of_mem hrun
  have huser : 0 < user_pages entries user_page_limit := by
    by_contra hno
    -- both pools hold the first page
    have hnone : user_pages entries user_page_limit = 0 := by omega
    have hstart := hm.no_user_part hnone
    apply hset.disjoint (first_page entries)
    rw [hshape.holds_iff hbounds, hshape.holds_iff hbounds]
    dsimp only [pool_lo, pool_hi]
    omega
  have hpart := hm.user_part hne huser
  constructor
  · exact huser
  · exact hwhole
  · intro heq
    rw [hb] at heq
    have hbend : b = memory_end entries := Nat.eq_of_mul_eq_mul_right (by decide) heq
    obtain ⟨r, hr, hlast⟩ := finish_mem (d := 0) hne
    have hle : r.first ≤ r.last := Nat.le_add_right _ _
    have hlast' : r.last = memory_end entries := hlast
    obtain ⟨w, h₁, h₂⟩ := hfound r hr (by omega)
    cases w with
    | kernel_pool =>
      dsimp only [pool_hi] at h₂
      omega
    | user_pool =>
      dsimp only [pool_hi] at h₂
      omega
  · intro heq
    rw [hb] at heq
    have hbend : b = kernel_end entries user_page_limit :=
      Nat.eq_of_mul_eq_mul_right (by decide) heq
    rcases hm.ascending.cut_cases (d := first_page entries) hpos (by omega) with
      ⟨r, -, -, -, hcut⟩ | ⟨front, r, q, back, hsplit, hlast, -⟩
    · exact hcut
    · have hle : r.first ≤ r.last := Nat.le_add_right _ _
      have hlast' : r.last = kernel_end entries user_page_limit := hlast
      obtain ⟨w, h₁, h₂⟩ := hfound r (by simp [hsplit]) (by omega)
      cases w with
      | kernel_pool =>
        dsimp only [pool_hi] at h₂
        omega
      | user_pool =>
        dsimp only [pool_lo] at h₁
        omega

/-- The pools are set up exactly when the map fits. -/
theorem populate_pools_sets_up_iff (hm : MemoryMap entries)
    (hroom : Room entries _end user_page_limit) :
    (∃ s bound, palloc_init entries _end user_page_limit = .ok (s, bound)
      ∧ SetUp entries bound s) ↔ Fits entries _end user_page_limit := by
  constructor
  · rintro ⟨s, bound, hok, hset⟩
    exact Fits.of_set_up hm hroom hok hset
  · intro h
    obtain ⟨s, hs⟩ := h.set_up hm hroom
    exact ⟨s, _, hs⟩

end Pools

/-- 128 MiB, as an emulator gives it: base memory, a reserved entry and extended memory. -/
def small_map : List e820_entry :=
  [⟨0, 0, 0x9f000, 0, 1⟩, ⟨0x9f000, 0, 0x61000, 0, 2⟩, ⟨0x100000, 0, 0x7ee0000, 0, 1⟩]

/-- The end of a kernel image. -/
def image_end : ℕ := 0x8004240000

theorem small_map_set_up : ∃ s bound,
    palloc_init small_map image_end (2 ^ 32 - 1) = .ok (s, bound) ∧ SetUp small_map bound s := by
  have hspans : spans small_map = [⟨0x8004000, 159⟩, ⟨0x8004100, 32480⟩] := by decide
  have hm : MemoryMap small_map := ⟨by decide, by decide, by decide, by decide, by decide⟩
  have hkern : kern_pages small_map (2 ^ 32 - 1) = 16320 := by
    unfold kern_pages user_pages
    rw [hspans]
    decide
  have hstart : user_start small_map (2 ^ 32 - 1) = 0x8008021 := by
    unfold user_start
    rw [hkern, hspans]
    decide
  have hend : kernel_end small_map (2 ^ 32 - 1) = 0x8008021 := by
    unfold kernel_end
    rw [hkern, hspans]
    decide
  have hbitmaps : bitmaps_end small_map image_end (2 ^ 32 - 1) = 0x8004242000 := by
    unfold bitmaps_end first_page memory_end
    rw [hstart, hend, hspans]
    decide
  refine (populate_pools_sets_up_iff hm ?_).mpr ?_
  · unfold Room
    rw [hbitmaps, hspans]
    exact ⟨⟨0x8004100, 32480⟩, by decide, by decide, by decide⟩
  · constructor
    · unfold user_pages
      rw [hspans]
      decide
    · intro front r back hsplit hlt hinside
      rw [hspans] at hsplit
      rw [hkern] at hlt hinside
      rcases front with - | ⟨q, front⟩
      · rw [List.nil_append, List.cons.injEq] at hsplit
        rw [← hsplit.1, total_nil] at hinside
        dsimp only at hinside
        omega
      · have hlen := congrArg List.length hsplit
        simp only [List.length_append, List.length_cons, List.length_nil] at hlen
        exact List.eq_nil_of_length_eq_zero (by omega)
    · unfold memory_end
      rw [hbitmaps, hspans]
      decide
    · rw [hend, hstart]
      exact fun _ => rfl

/-- 5 GiB: a hole for devices splits extended memory. -/
def large_map : List e820_entry :=
  [⟨0, 0, 0x9f000, 0, 1⟩, ⟨0x9f000, 0, 0x61000, 0, 2⟩, ⟨0x100000, 0, 0xbfee0000, 0, 1⟩,
    ⟨0, 1, 0x80000000, 0, 1⟩]

/-- Half of it ends inside the second region of three. -/
theorem large_map_panics : MemoryMap large_map ∧ Room large_map image_end (2 ^ 32 - 1)
    ∧ palloc_init large_map image_end (2 ^ 32 - 1) = .panic := by
  have hspans : spans large_map
      = [⟨0x8004000, 159⟩, ⟨0x8004100, 786144⟩, ⟨0x8104000, 524288⟩] := by decide
  have hm : MemoryMap large_map := ⟨by decide, by decide, by decide, by decide, by decide⟩
  have hkern : kern_pages large_map (2 ^ 32 - 1) = 655296 := by
    unfold kern_pages user_pages
    rw [hspans]
    decide
  refine ⟨hm, ?_, ?_⟩
  · have hbitmaps : bitmaps_end large_map image_end (2 ^ 32 - 1) = 0x8004272000 := by
      unfold bitmaps_end kernel_end user_start first_page memory_end
      rw [hkern, hspans]
      decide
    unfold Room
    rw [hbitmaps, hspans]
    exact ⟨⟨0x8004100, 786144⟩, by decide, by decide, by decide⟩
  · have hsplit : spans large_map
        = [⟨0x8004000, 159⟩] ++ ⟨0x8004100, 786144⟩ :: [⟨0x8104000, 524288⟩] := hspans
    apply hm.palloc_init_panics hsplit
    · rw [hkern]
      decide
    · rw [hkern]
      decide
    · decide

end Pintos.palloc
