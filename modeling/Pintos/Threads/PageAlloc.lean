/-
`threads/palloc.c`: pages are taken from a pool and given back.

The pools are those that `populate_pools` leaves, with their bitmaps in words. A page is free
when its bit is clear; a call takes the first free pages that there are enough of in a row, and
giving them back frees them again.

A pool's lock is held only while its bitmap is scanned, and one call comes after the other.
-/
import Pintos.Kernel.Bitmap
import Pintos.Lib.Runs
import Pintos.Threads.PopulatePools

set_option autoImplicit false

namespace Pintos.palloc

open klib (BITMAP_ERROR)

/-! ## The calls -/

/-- A pool whose bitmap lies in memory. -/
structure word_pool where
  used_map : klib.bitmap
  base : ℕ

/-- The bitmap by its bits. -/
def view_map (b : klib.bitmap) : bitmap := ⟨b.bit_cnt, b.bit⟩

/-- The pool by its bits. -/
def word_pool.view (p : word_pool) : pool := ⟨some (view_map p.used_map), p.base⟩

/-- Both pools, and the bytes of memory. -/
structure allocator where
  pool : pool_id → word_pool
  memory : ℕ → UInt8

/-- The pools by their bits. -/
def allocator.view (s : allocator) : pools := fun w => (s.pool w).view

/-- A pool gets another bitmap. -/
def allocator.set_map (s : allocator) (w : pool_id) (used_map : klib.bitmap) : allocator :=
  { s with pool := Function.update s.pool w { s.pool w with used_map := used_map } }

/-- `memset`. -/
def memset (m : ℕ → UInt8) (dst : ℕ) (value : UInt8) (size : ℕ) : ℕ → UInt8 :=
  fun a => if dst ≤ a ∧ a < dst + size then value else m a

/-- `PAL_ASSERT`. -/
def PAL_ASSERT : ℕ := 1

/-- `PAL_ZERO`. -/
def PAL_ZERO : ℕ := 2

/-- `PAL_USER`. -/
def PAL_USER : ℕ := 4

/-- The pool that the flags ask for. -/
def asked (flags : ℕ) : pool_id := if flags &&& PAL_USER ≠ 0 then .user_pool else .kernel_pool

/-- `palloc_get_multiple`: the allocator afterwards, and the address of the pages or null. -/
def palloc_get_multiple (flags page_cnt : ℕ) (s : allocator) : Outcome (allocator × ℕ) := do
  let w := asked flags
  let (used_map, page_idx) ← klib.bitmap_scan_and_flip (s.pool w).used_map 0 page_cnt false
  let s := s.set_map w used_map
  let pages := if page_idx ≠ BITMAP_ERROR then ((s.pool w).base + PGSIZE * page_idx) % 2 ^ 64 else 0
  if pages ≠ 0 then
    if flags &&& PAL_ZERO ≠ 0 then
      return ({ s with memory := memset s.memory pages 0 (PGSIZE * page_cnt % 2 ^ 64) }, pages)
    else return (s, pages)
  else if flags &&& PAL_ASSERT ≠ 0 then .panic
  else return (s, pages)

/-- `palloc_free_multiple`. -/
def palloc_free_multiple (pages page_cnt : ℕ) (s : allocator) : Outcome allocator := do
  Outcome.assert (pages % PGSIZE = 0)
  if pages = 0 ∨ page_cnt = 0 then return s
  else do
    let w ← pool_of s.view pages
    let page_idx := pg_no pages - pg_no (s.pool w).base
    let s := { s with memory := memset s.memory pages 0xcc (PGSIZE * page_cnt % 2 ^ 64) }
    Outcome.assert ((← klib.bitmap_all (s.pool w).used_map page_idx page_cnt) = true)
    let used_map ← klib.bitmap_set_multiple (s.pool w).used_map page_idx page_cnt false
    return s.set_map w used_map

/-! ## Words and bits -/

section View

variable {b b' : klib.bitmap} {start cnt i n : ℕ} {value : Bool}

/-- `bitmap_set` on words is `bitmap_set` on bits. -/
theorem bitmap_set_view (h : klib.bitmap_set b i value = .ok b') :
    bitmap_set (view_map b) i value = .ok (view_map b') := by
  obtain ⟨_, hi, -⟩ := Outcome.bind_eq_ok.mp h
  have hi := Outcome.assert_eq_ok.mp hi
  obtain ⟨b₁, hset, hcnt, hbit⟩ := klib.bitmap_set_eq hi value
  obtain rfl := Outcome.ok.inj (hset.symm.trans h)
  unfold bitmap_set
  rw [Outcome.assert_pos (show i < (view_map b).bit_cnt from hi)]
  unfold view_map
  rw [hcnt, hbit]
  rfl

theorem set_loop_view (h : klib.set_loop start value n i b = .ok b') :
    bitmap_set_loop start value n i (view_map b) = .ok (view_map b') := by
  induction n generalizing b i with
  | zero =>
      obtain rfl := Outcome.ok.inj h
      rfl
  | succ n ih =>
      obtain ⟨b₁, hset, hrest⟩ := Outcome.bind_eq_ok.mp h
      rw [bitmap_set_loop, bitmap_set_view hset]
      exact ih hrest

/-- `bitmap_set_multiple` on words is `bitmap_set_multiple` on bits. -/
theorem bitmap_set_multiple_view (h : klib.bitmap_set_multiple b start cnt value = .ok b') :
    bitmap_set_multiple (view_map b) start cnt value = .ok (view_map b') := by
  obtain ⟨_, hstart, hrest⟩ := Outcome.bind_eq_ok.mp h
  obtain ⟨_, hend, hloop⟩ := Outcome.bind_eq_ok.mp hrest
  have hstart := Outcome.assert_eq_ok.mp hstart
  have hend := Outcome.assert_eq_ok.mp hend
  unfold bitmap_set_multiple
  rw [Outcome.assert_pos (show start ≤ (view_map b).bit_cnt from hstart), Outcome.ok_bind,
    Outcome.assert_pos (show (start + cnt) % 2 ^ 64 ≤ (view_map b).bit_cnt from hend)]
  exact set_loop_view hloop

end View

/-! ## What a call does -/

/-- The pages of the pools are those from `lo` up to `hi`, and no page is in both. -/
structure LaidOut (lo hi : pool_id → ℕ) (s : allocator) : Prop where
  shape : Shape lo hi s.view
  bounds : Bounds lo hi
  pos : ∀ w, 0 < lo w
  disjoint : ∀ page, ¬ ((s.view .kernel_pool).holds page ∧ (s.view .user_pool).holds page)

/-- The `n` pages from `page` on are free in pool `w`. -/
def Available (s : allocator) (w : pool_id) (n page : ℕ) : Prop :=
  ∀ j < n, (s.view w).free (page + j)

/-- Pages that a call returned. -/
structure range where
  pages : ℕ
  page_cnt : ℕ
  deriving DecidableEq, Repr

/-- The page is one of the range. -/
def range.covers (r : range) (page : ℕ) : Prop :=
  pg_no r.pages ≤ page ∧ page < pg_no r.pages + r.page_cnt

/-- The range is one of whole pages of pool `w`. -/
structure range.Inside (r : range) (s : allocator) (w : pool_id) : Prop where
  aligned : r.pages % PGSIZE = 0
  pos : 0 < r.page_cnt
  holds : ∀ page, r.covers page → (s.view w).holds page

section Calls

variable {lo hi : pool_id → ℕ} {s s' : allocator} {w : pool_id} {page n flags : ℕ} {r : range}

theorem LaidOut.bit_cnt (h : LaidOut lo hi s) : (s.pool w).used_map.bit_cnt = hi w - lo w := by
  obtain ⟨bits, hs⟩ := h.shape w
  have hmap : view_map (s.pool w).used_map = ⟨hi w - lo w, bits⟩ :=
    Option.some.inj (congrArg pool.used_map hs)
  exact congrArg bitmap.bit_cnt hmap

theorem LaidOut.base (h : LaidOut lo hi s) : (s.pool w).base = lo w * PGSIZE := by
  obtain ⟨bits, hs⟩ := h.shape w
  exact congrArg pool.base hs

theorem LaidOut.holds_iff (h : LaidOut lo hi s) : (s.view w).holds page ↔ lo w ≤ page
    ∧ page < hi w :=
  h.shape.holds_iff h.bounds

theorem LaidOut.free_iff (h : LaidOut lo hi s) : (s.view w).free page
    ↔ lo w ≤ page ∧ page < hi w ∧ (s.pool w).used_map.bit (page - lo w) = false := by
  have hle := h.bounds.le w
  unfold pool.free allocator.view word_pool.view view_map
  simp only [Option.some.injEq, exists_eq_left', h.base, h.bit_cnt, pg_no_mul]
  rw [Nat.add_sub_cancel' hle]

/-- A pool with another bitmap of the same size, and any memory. -/
theorem LaidOut.change (h : LaidOut lo hi s) {b : klib.bitmap}
    (hcnt : b.bit_cnt = (s.pool w).used_map.bit_cnt) (m : ℕ → UInt8) :
    LaidOut lo hi { s.set_map w b with memory := m } := by
  have hsame : ∀ w', ∃ bits, ({ s.set_map w b with memory := m } : allocator).view w'
      = ⟨some ⟨hi w' - lo w', bits⟩, lo w' * PGSIZE⟩ := by
    intro w'
    by_cases hw : w' = w
    · subst hw
      refine ⟨b.bit, ?_⟩
      show (Function.update s.pool w' { s.pool w' with used_map := b } w').view = _
      rw [Function.update_self, ← h.bit_cnt, ← hcnt, ← h.base]
      rfl
    · obtain ⟨bits, hs⟩ := h.shape w'
      refine ⟨bits, ?_⟩
      show (Function.update s.pool w { s.pool w with used_map := b } w').view = _
      rw [Function.update_of_ne hw]
      exact hs
  refine ⟨hsame, h.bounds, h.pos, fun page hpage => ?_⟩
  rw [Shape.holds_iff hsame h.bounds, Shape.holds_iff hsame h.bounds] at hpage
  exact h.disjoint page ⟨h.holds_iff.mpr hpage.1, h.holds_iff.mpr hpage.2⟩

/-- What is free when the bits of some pages of a pool are set to `v`. -/
theorem LaidOut.change_free (h : LaidOut lo hi s) {b : klib.bitmap} {idx : ℕ} {v : Bool}
    (hcnt : b.bit_cnt = (s.pool w).used_map.bit_cnt) (m : ℕ → UInt8)
    (hbit : ∀ j, b.bit j = if idx ≤ j ∧ j < idx + n then v else (s.pool w).used_map.bit j)
    (w' : pool_id) (page : ℕ) :
    (({ s.set_map w b with memory := m } : allocator).view w').free page
      ↔ if w' = w ∧ lo w + idx ≤ page ∧ page < lo w + idx + n
        then (s.view w').holds page ∧ v = false else (s.view w').free page := by
  rw [(h.change hcnt m).free_iff, h.holds_iff, h.free_iff]
  by_cases hw : w' = w
  · subst hw
    have hpool : ({ s.set_map w' b with memory := m } : allocator).pool w'
        = { s.pool w' with used_map := b } := Function.update_self ..
    rw [hpool, hbit]
    by_cases hin : w' = w' ∧ lo w' + idx ≤ page ∧ page < lo w' + idx + n
    · have hbits : idx ≤ page - lo w' ∧ page - lo w' < idx + n := by omega
      rw [if_pos hin, if_pos hbits, and_assoc]
    · rw [if_neg hin]
      have hout : ¬ (lo w' + idx ≤ page ∧ page < lo w' + idx + n) := fun hc => hin ⟨rfl, hc⟩
      by_cases hlo : lo w' ≤ page
      · have hbits : ¬ (idx ≤ page - lo w' ∧ page - lo w' < idx + n) := by omega
        rw [if_neg hbits]
      · exact iff_of_false (fun hc => hlo hc.1) fun hc => hlo hc.1
  · have hpool : ({ s.set_map w b with memory := m } : allocator).pool w' = s.pool w' :=
      Function.update_of_ne hw _ _
    rw [hpool, if_neg fun hc => hw hc.1]

/-- Free pages in a row are cleared bits in a row. -/
theorem LaidOut.run_iff (h : LaidOut lo hi s) (hn : 0 < n) {idx : ℕ} :
    (s.pool w).used_map.Run n false idx ↔ Available s w n (lo w + idx) := by
  have hle := h.bounds.le w
  unfold klib.bitmap.Run Available
  simp only [h.free_iff, h.bit_cnt]
  constructor
  · rintro ⟨hfit, hbits⟩ j hj
    refine ⟨by omega, by omega, ?_⟩
    rw [show lo w + idx + j - lo w = idx + j by omega]
    exact hbits j hj
  · intro hall
    constructor
    · have := (hall (n - 1) (by omega)).2.1
      omega
    · intro j hj
      have hbit := (hall j hj).2.2
      rwa [show lo w + idx + j - lo w = idx + j by omega] at hbit

theorem LaidOut.least_iff (h : LaidOut lo hi s) (hn : 0 < n) {idx : ℕ}
    (hleast : IsLeast {j | (s.pool w).used_map.Run n false j} idx) :
    IsLeast {p | Available s w n p} (lo w + idx) := by
  refine ⟨(h.run_iff hn).mp hleast.1, fun p hp => ?_⟩
  have hlo : lo w ≤ p := (h.free_iff.mp (hp 0 hn)).1
  have hrun : (s.pool w).used_map.Run n false (p - lo w) := by
    rw [h.run_iff hn, Nat.add_sub_cancel' hlo]
    exact hp
  have := hleast.2 hrun
  omega

/-- The address of a page of a pool. -/
theorem LaidOut.address (h : LaidOut lo hi s) {idx : ℕ} (hidx : lo w + idx < hi w) :
    ((s.pool w).base + PGSIZE * idx) % 2 ^ 64 = (lo w + idx) * PGSIZE
      ∧ (lo w + idx) * PGSIZE ≠ 0 := by
  have hlt := h.bounds.lt w
  have hpos := h.pos w
  rw [h.base]
  unfold PGSIZE at hlt ⊢
  omega

/-- The first free pages in a row start at the index that means an error. -/
def Lost (lo : pool_id → ℕ) (s : allocator) (w : pool_id) (n : ℕ) : Prop :=
  IsLeast {p | Available s w n p} (lo w + BITMAP_ERROR)

/-- **`palloc_get_multiple`** returns the first pages of the pool that are free in a row, or
there are none, or they are lost. -/
theorem LaidOut.get_eq (h : LaidOut lo hi s) (flags : ℕ) (hn : 0 < n) :
    (∃ s' page, palloc_get_multiple flags n s = .ok (s', page * PGSIZE) ∧ page * PGSIZE ≠ 0
        ∧ page ≠ lo (asked flags) + BITMAP_ERROR
        ∧ IsLeast {p | Available s (asked flags) n p} page ∧ LaidOut lo hi s'
        ∧ ∀ w q, (s'.view w).free q
          ↔ (s.view w).free q ∧ ¬ (w = asked flags ∧ page ≤ q ∧ q < page + n))
      ∨ ((∀ p, ¬ Available s (asked flags) n p) ∨ Lost lo s (asked flags) n)
        ∧ palloc_get_multiple flags n s = if flags &&& PAL_ASSERT ≠ 0 then .panic
        else .ok (s, 0) := by
  unfold palloc_get_multiple
  generalize asked flags = w
  rcases @klib.bitmap_scan_and_flip_eq (s.pool w).used_map n false
    with ⟨b, idx, hscan, hne, hleast, hcnt, hbit⟩ | ⟨hscan, hno⟩
  · have hin : lo w + idx < hi w := by
      have := hleast.1.1
      rw [h.bit_cnt] at this
      omega
    obtain ⟨haddr, hnonzero⟩ := h.address hin
    have hbase : ((s.set_map w b).pool w).base = (s.pool w).base := by
      show (Function.update s.pool w _ w).base = _
      rw [Function.update_self]
    have hfree : ∀ m w' q, (({ s.set_map w b with memory := m } : allocator).view w').free q
        ↔ (s.view w').free q ∧ ¬ (w' = w ∧ lo w + idx ≤ q ∧ q < lo w + idx + n) := by
      intro m w' q
      rw [h.change_free hcnt m hbit w' q]
      by_cases hc : w' = w ∧ lo w + idx ≤ q ∧ q < lo w + idx + n
      · rw [if_pos hc]
        exact iff_of_false (fun hx => by cases hx.2) fun hx => hx.2 hc
      · rw [if_neg hc, and_iff_left hc]
    refine .inl ?_
    simp only [hscan, Outcome.ok_bind, if_pos hne, hbase, haddr, if_pos hnonzero]
    by_cases hzero : flags &&& PAL_ZERO ≠ 0
    · rw [if_pos hzero]
      exact ⟨_, lo w + idx, rfl, hnonzero, by omega, h.least_iff hn hleast, h.change hcnt _, hfree _⟩
    · rw [if_neg hzero]
      exact ⟨_, lo w + idx, rfl, hnonzero, by omega, h.least_iff hn hleast, h.change hcnt _, hfree _⟩
  · have hsame : s.set_map w (s.pool w).used_map = s := by
      unfold allocator.set_map
      rw [Function.update_eq_self]
    refine .inr ⟨hno.imp (fun hno p hp => ?_) (h.least_iff hn), ?_⟩
    · have hlo : lo w ≤ p := (h.free_iff.mp (hp 0 hn)).1
      refine hno (p - lo w) ((h.run_iff hn).mpr ?_)
      rwa [Nat.add_sub_cancel' hlo]
    · simp only [hscan, Outcome.ok_bind, hsame, ne_eq, not_true_eq_false, if_false]
      rfl

/-- **`palloc_free_multiple`** frees the pages it is given and no others. -/
theorem LaidOut.free_eq (h : LaidOut lo hi s) (hr : r.Inside s w)
    (hused : ∀ q, r.covers q → ¬ (s.view w).free q) :
    ∃ s', palloc_free_multiple r.pages r.page_cnt s = .ok s' ∧ LaidOut lo hi s'
      ∧ ∀ w' q, (s'.view w').free q ↔ (s.view w').free q ∨ w' = w ∧ r.covers q := by
  have hpage : ∀ q, r.covers q → lo w ≤ q ∧ q < hi w := fun q hq => h.holds_iff.mp (hr.holds q hq)
  have hpos := hr.pos
  obtain ⟨hlo, hhi⟩ := hpage (pg_no r.pages) ⟨Nat.le_refl _, by omega⟩
  have hlast := (hpage (pg_no r.pages + (r.page_cnt - 1)) ⟨by omega, by omega⟩).2
  have haddr : r.pages = pg_no r.pages * PGSIZE :=
    (Nat.div_mul_cancel (Nat.dvd_of_mod_eq_zero hr.aligned)).symm
  have hnonzero : ¬ (r.pages = 0 ∨ r.page_cnt = 0) := by
    rintro (hzero | hzero)
    · have := h.pos w
      rw [hzero, pg_no, Nat.zero_div] at hlo
      omega
    · omega
  -- the pages belong to one pool, which is the one that is found
  have hpool : pool_of s.view r.pages = .ok w := by
    have hdisjoint := h.disjoint (pg_no r.pages)
    rw [h.holds_iff, h.holds_iff] at hdisjoint
    rw [haddr, h.shape.pool_of_eq h.bounds]
    cases w with
    | kernel_pool => rw [if_pos ⟨hlo, hhi⟩]
    | user_pool => rw [if_neg (fun hk => hdisjoint ⟨hk, hlo, hhi⟩), if_pos ⟨hlo, hhi⟩]
  have hidx : pg_no r.pages - pg_no (s.pool w).base = pg_no r.pages - lo w := by
    rw [h.base, pg_no_mul]
  -- all of them are marked used
  have hrun : (s.pool w).used_map.Run r.page_cnt true (pg_no r.pages - lo w) := by
    refine ⟨by rw [h.bit_cnt]; omega, fun j hj => ?_⟩
    have hbusy := hused (pg_no r.pages + j) ⟨by omega, by omega⟩
    rw [h.free_iff, show pg_no r.pages + j - lo w = pg_no r.pages - lo w + j by omega] at hbusy
    exact Bool.of_not_eq_false fun hclear => hbusy ⟨by omega, by omega, hclear⟩
  obtain ⟨b, hset, hcnt, hbit⟩ := klib.bitmap_set_multiple_eq hrun.1 false
  let m := memset s.memory r.pages 0xcc (PGSIZE * r.page_cnt % 2 ^ 64)
  refine ⟨{ s.set_map w b with memory := m }, ?_, h.change hcnt m, fun w' q => ?_⟩
  · unfold palloc_free_multiple
    rw [Outcome.assert_pos hr.aligned, Outcome.ok_bind, if_neg hnonzero, hpool, Outcome.ok_bind]
    simp only [hidx, klib.bitmap_all_eq hrun, Outcome.ok_bind, hset]
    rfl
  · rw [h.change_free hcnt m hbit w' q, Nat.add_sub_cancel' hlo]
    by_cases hc : w' = w ∧ r.covers q
    · have hcovers : w' = w ∧ pg_no r.pages ≤ q ∧ q < pg_no r.pages + r.page_cnt := hc
      obtain ⟨rfl, hq⟩ := hc
      rw [if_pos hcovers]
      exact iff_of_true ⟨hr.holds q hq, rfl⟩ (.inr ⟨rfl, hq⟩)
    · rw [or_iff_left hc]
      exact iff_of_eq (if_neg hc)

end Calls

/-! ## Histories -/

/-- The allocator, and the ranges that it has given out and not got back. -/
structure history where
  alloc : allocator
  live : List range

/-- A call. -/
inductive palloc_event
  | get (flags page_cnt : ℕ)
  | free (r : range)

/-- Pages are asked for, and whole ranges are given back that were given out. -/
def Legal (h : history) : palloc_event → Prop
  | .get _ page_cnt => 0 < page_cnt
  | .free r => r ∈ h.live

/-- One call. -/
def palloc_step (h : history) : palloc_event → Outcome history
  | .get flags page_cnt => do
    let (alloc, pages) ← palloc_get_multiple flags page_cnt h.alloc
    return ⟨alloc, if pages = 0 then h.live else ⟨pages, page_cnt⟩ :: h.live⟩
  | .free r => do
    let alloc ← palloc_free_multiple r.pages r.page_cnt h.alloc
    return ⟨alloc, h.live.erase r⟩

/-- A call that is made and returns. -/
def Step (h : history) (e : palloc_event) (h' : history) : Prop :=
  Legal h e ∧ palloc_step h e = .ok h'

/-- The pools that `populate_pools` leaves are laid out. -/
theorem Fits.laid_out {entries : List e820_entry} {_end user_page_limit : ℕ}
    (h : Fits entries _end user_page_limit) (hm : MemoryMap entries)
    (hroom : Room entries _end user_page_limit) :
    ∃ s bound, palloc_init entries _end user_page_limit = .ok (s, bound)
      ∧ ∀ alloc : allocator, alloc.view = s →
        LaidOut (pool_lo entries user_page_limit) (pool_hi entries user_page_limit) alloc := by
  obtain ⟨s, hrun, hshape, hset⟩ := h.palloc_init_shape hm hroom
  have hne := hroom.spans_ne_nil
  have hfirst : 0 < first_page entries := by
    obtain ⟨r₀, rs₀, hs⟩ := List.exists_cons_of_ne_nil hne
    obtain ⟨e, he, hu, hspan⟩ := mem_spans.mp (hs ▸ List.mem_cons_self : r₀ ∈ spans entries)
    obtain ⟨haddr, hbase⟩ := hm.ptov_eq he hu
    rw [first_page_eq hs, ← hspan]
    refine Nat.pos_of_mul_pos_right (b := PGSIZE) ?_
    rw [← haddr, hbase]
    unfold KERN_BASE
    omega
  have hkernel := hm.kernel_part user_page_limit hne
  have huser := hm.user_part hne h.user
  refine ⟨s, _, hrun, fun alloc hview => ?_⟩
  subst hview
  refine ⟨hshape, hm.bounds user_page_limit hne, fun w => ?_, hset.disjoint⟩
  cases w with
  | kernel_pool => exact hfirst
  | user_pool => exact Nat.lt_of_lt_of_le (Nat.lt_trans hfirst hkernel.1) huser.1

section Histories

variable {lo hi : pool_id → ℕ} {s₀ : allocator} {h h' : history} {e : palloc_event}
  {es : List palloc_event} {r : range} {w : pool_id} {q : ℕ}

/-- What is given out is apart and inside a pool, and it is what is no longer free. -/
structure Kept (lo hi : pool_id → ℕ) (s₀ : allocator) (h : history) : Prop where
  start : LaidOut lo hi s₀
  laid_out : LaidOut lo hi h.alloc
  inside : ∀ r ∈ h.live, ∃ w, r.Inside h.alloc w ∧ ∀ q, r.covers q → (s₀.view w).free q
  apart : h.live.Pairwise fun r r' => ∀ q, ¬ (r.covers q ∧ r'.covers q)
  free : ∀ w q, (h.alloc.view w).free q ↔ (s₀.view w).free q ∧ ∀ r ∈ h.live, ¬ r.covers q

/-- A page that is free in some pool belongs to that pool only. -/
theorem LaidOut.same_pool {s : allocator} (h : LaidOut lo hi s) {w w' : pool_id}
    (hw : (s.view w).holds q) (hw' : (s.view w').holds q) : w = w' := by
  have hdisjoint := h.disjoint q
  cases w <;> cases w'
  · rfl
  · exact absurd ⟨hw, hw'⟩ hdisjoint
  · exact absurd ⟨hw', hw⟩ hdisjoint
  · rfl

theorem pool.free.holds {p : pool} (hf : p.free q) : p.holds q := by
  obtain ⟨b, hb, h₁, h₂, -⟩ := hf
  exact ⟨b, hb, h₁, h₂⟩

theorem range.Inside.after {s s' : allocator} (hr : r.Inside s w) (hs : LaidOut lo hi s)
    (hs' : LaidOut lo hi s') : r.Inside s' w :=
  ⟨hr.aligned, hr.pos, fun q hq => hs'.holds_iff.mpr (hs.holds_iff.mp (hr.holds q hq))⟩

/-- **Getting pages** keeps the books. -/
theorem Kept.get (hk : Kept lo hi s₀ h) {flags n : ℕ} (hn : 0 < n)
    (hstep : palloc_step h (.get flags n) = .ok h') : Kept lo hi s₀ h' := by
  obtain ⟨out, hget, hret⟩ := Outcome.bind_eq_ok.mp hstep
  rcases hk.laid_out.get_eq flags hn with ⟨s', page, heq, hnonzero, -, hleast, hl',
    hfree⟩ | ⟨-, heq⟩
  · obtain rfl := Outcome.ok.inj (heq.symm.trans hget)
    obtain rfl := Outcome.ok.inj hret
    have hlive : (if page * PGSIZE = 0 then h.live else ⟨page * PGSIZE, n⟩ :: h.live)
        = ⟨page * PGSIZE, n⟩ :: h.live := if_neg hnonzero
    have hcovers : ∀ q, range.covers ⟨page * PGSIZE, n⟩ q ↔ page ≤ q ∧ q < page + n := by
      intro q
      unfold range.covers
      rw [pg_no_mul]
    have hgot : ∀ q, page ≤ q ∧ q < page + n → (h.alloc.view (asked flags)).free q := by
      intro q hq
      have := hleast.1 (q - page) (by omega)
      rwa [Nat.add_sub_cancel' hq.1] at this
    rw [hlive]
    refine ⟨hk.start, hl', ?_, ?_, fun w q => ?_⟩
    · intro r hr
      rcases List.mem_cons.mp hr with rfl | hr
      · refine ⟨asked flags, ⟨Nat.mul_mod_left page PGSIZE, hn, fun q hq => ?_⟩, fun q hq => ?_⟩
        · have hholds := (hgot q ((hcovers q).mp hq)).holds
          exact hl'.holds_iff.mpr (hk.laid_out.holds_iff.mp hholds)
        · exact ((hk.free _ q).mp (hgot q ((hcovers q).mp hq))).1
      · obtain ⟨w, hin, htaken⟩ := hk.inside r hr
        exact ⟨w, hin.after hk.laid_out hl', htaken⟩
    · refine List.pairwise_cons.mpr ⟨fun r hr q hq => ?_, hk.apart⟩
      exact ((hk.free _ q).mp (hgot q ((hcovers q).mp hq.1))).2 r hr hq.2
    · rw [hfree, hk.free, List.forall_mem_cons, hcovers, and_assoc]
      refine and_congr_right fun hw => ?_
      constructor
      · rintro ⟨hall, hnot⟩
        refine ⟨fun hin => hnot ⟨?_, hin⟩, hall⟩
        have hstart := ((hk.free _ q).mp (hgot q hin)).1
        exact hk.start.same_pool hw.holds hstart.holds
      · rintro ⟨hnot, hall⟩
        exact ⟨hall, fun hin => hnot hin.2⟩
  · rw [heq] at hget
    by_cases hpanic : flags &&& PAL_ASSERT ≠ 0
    · rw [if_pos hpanic] at hget
      cases hget
    · rw [if_neg hpanic] at hget
      obtain rfl := Outcome.ok.inj hget
      obtain rfl := Outcome.ok.inj hret
      exact hk

/-- What is given out is not free. -/
theorem Kept.used (hk : Kept lo hi s₀ h) (hr : r ∈ h.live) (hq : r.covers q) :
    ¬ (h.alloc.view w).free q := fun hf => ((hk.free w q).mp hf).2 r hr hq

/-- **Giving a range back** keeps the books. -/
theorem Kept.give_back (hk : Kept lo hi s₀ h) (hr : r ∈ h.live) : ∃ s', palloc_free_multiple
      r.pages r.page_cnt h.alloc = .ok s' ∧ Kept lo hi s₀ ⟨s', h.live.erase r⟩
    ∧ ∀ w q, (s'.view w).free q
      ↔ (h.alloc.view w).free q ∨ (h.alloc.view w).holds q ∧ r.covers q := by
  obtain ⟨w₀, hin, htaken⟩ := hk.inside r hr
  obtain ⟨s', hrun, hl', hfree⟩ := hk.laid_out.free_eq hin fun q hq => hk.used hr hq
  have hapart : (r :: h.live.erase r).Pairwise fun r r' => ∀ q, ¬ (r.covers q ∧ r'.covers q) :=
    ((List.perm_cons_erase hr).pairwise_iff fun hab q hba => hab q hba.symm).mp hk.apart
  obtain ⟨hone, hrest⟩ := List.pairwise_cons.mp hapart
  refine ⟨s', hrun, ⟨hk.start, hl', ?_, hrest, fun w q => ?_⟩, fun w q => ?_⟩
  · intro r' hr'
    obtain ⟨w, hin', htaken'⟩ := hk.inside r' (List.mem_of_mem_erase hr')
    exact ⟨w, hin'.after hk.laid_out hl', htaken'⟩
  · rw [hfree, hk.free]
    constructor
    · rintro (⟨hw, hall⟩ | ⟨rfl, hq⟩)
      · exact ⟨hw, fun r' hr' => hall r' (List.mem_of_mem_erase hr')⟩
      · exact ⟨htaken q hq, fun r' hr' hq' => hone r' hr' q ⟨hq, hq'⟩⟩
    · rintro ⟨hw, hall⟩
      by_cases hq : r.covers q
      · exact .inr ⟨hk.start.same_pool hw.holds (htaken q hq).holds, hq⟩
      · refine .inl ⟨hw, fun r' hr' => ?_⟩
        by_cases heq : r' = r
        · rwa [heq]
        · exact hall r' ((List.mem_erase_of_ne heq).mpr hr')
  · rw [hfree]
    refine or_congr_right (and_congr_left fun hq => ?_)
    constructor
    · rintro rfl
      exact hin.holds q hq
    · exact fun hw => hk.laid_out.same_pool hw (hin.holds q hq)

/-- **One call.** -/
theorem Kept.step (hk : Kept lo hi s₀ h) (hstep : Step h e h') : Kept lo hi s₀ h' := by
  obtain ⟨hlegal, hrun⟩ := hstep
  cases e with
  | get flags n => exact hk.get hlegal hrun
  | free r =>
      obtain ⟨s', hfree, hk', -⟩ := hk.give_back hlegal
      obtain ⟨s, hs, hret⟩ := Outcome.bind_eq_ok.mp hrun
      obtain rfl := Outcome.ok.inj (hfree.symm.trans hs)
      obtain rfl := Outcome.ok.inj hret
      exact hk'

/-- The call returns pages exactly when there are enough free ones in a row in the pool, the first
such, and takes no others. -/
def GetsFirst (s : allocator) (flags n : ℕ) : Prop :=
  (∃ s' page, palloc_get_multiple flags n s = .ok (s', page * PGSIZE) ∧ page * PGSIZE ≠ 0
      ∧ IsLeast {p | Available s (asked flags) n p} page
      ∧ ∀ w q, (s'.view w).free q ↔ (s.view w).free q
      ∧ ¬ (w = asked flags ∧ page ≤ q ∧ q < page + n))
    ∨ (∀ p, ¬ Available s (asked flags) n p)
      ∧ palloc_get_multiple flags n s = if flags &&& PAL_ASSERT ≠ 0 then .panic else .ok (s, 0)

theorem LaidOut.gets_first_iff {s : allocator} (h : LaidOut lo hi s) (flags : ℕ) {n : ℕ}
    (hn : 0 < n) : GetsFirst s flags n ↔ ¬ Lost lo s (asked flags) n := by
  rcases h.get_eq flags hn with ⟨s', page, heq, hnonzero, hne, hleast, -,
    hfree⟩ | ⟨hno | hlost, heq⟩
  · exact iff_of_true (.inl ⟨s', page, heq, hnonzero, hleast, hfree⟩) fun hlost =>
      hne (hleast.unique hlost)
  · exact iff_of_true (.inr ⟨hno, heq⟩) fun hlost => hno _ hlost.1
  · refine iff_of_false ?_ (not_not.mpr hlost)
    -- null is returned, or the kernel stops, and yet the pages are there
    rintro (⟨s', page, hgot, hnonzero, -⟩ | ⟨hno, -⟩)
    · rw [heq] at hgot
      by_cases hassert : flags &&& PAL_ASSERT ≠ 0
      · rw [if_pos hassert] at hgot
        cases hgot
      · rw [if_neg hassert] at hgot
        exact hnonzero (Outcome.ok_pair hgot).2.symm
    · exact hno _ hlost.1

/-- **Every history of the page allocator.** What is given out lies apart and inside the pools, and
giving a range back frees its pages and no others. Pages are returned exactly when there are enough
free ones in a row, the first such, if and only if these do not start at the index that
`bitmap_scan` uses for an error. -/
theorem palloc_history_iff (hs : LaidOut lo hi s₀) (hpath : Runs.Path Step ⟨s₀, []⟩ es h) :
    (h.live.Pairwise fun r r' => ∀ q, ¬ (r.covers q ∧ r'.covers q))
      ∧ (∀ r ∈ h.live, ∃ w, r.Inside h.alloc w)
      ∧ (∀ w q, (h.alloc.view w).free q ↔ (s₀.view w).free q ∧ ∀ r ∈ h.live, ¬ r.covers q)
      ∧ (∀ flags n, 0 < n → (GetsFirst h.alloc flags n ↔ ¬ Lost lo h.alloc (asked flags) n))
      ∧ ∀ r ∈ h.live, ∃ s', palloc_free_multiple r.pages r.page_cnt h.alloc = .ok s'
        ∧ ∀ w q, (s'.view w).free q
          ↔ (h.alloc.view w).free q ∨ (h.alloc.view w).holds q ∧ r.covers q := by
  have hk₀ : Kept lo hi s₀ ⟨s₀, []⟩ :=
    ⟨hs, hs, fun r hr => absurd hr List.not_mem_nil, .nil, fun w q =>
      (and_iff_left fun r hr => absurd hr List.not_mem_nil).symm⟩
  have hk := hpath.invariant (fun _ _ _ _ hk hstep => hk.step hstep) hk₀
  refine ⟨hk.apart, fun r hr => ?_, hk.free, fun flags n hn => hk.laid_out.gets_first_iff flags hn,
    fun r hr => ?_⟩
  · obtain ⟨w, hin, -⟩ := hk.inside r hr
    exact ⟨w, hin⟩
  · obtain ⟨s', hrun, -, hfree⟩ := hk.give_back hr
    exact ⟨s', hrun, hfree⟩

end Histories

/-- Four pages for the kernel, two for users, all of them free. -/
def six_pages : allocator where
  pool
    | .kernel_pool => ⟨⟨4, fun _ => 0, by decide⟩, 0xa000⟩
    | .user_pool => ⟨⟨2, fun _ => 0, by decide⟩, 0x14000⟩
  memory := fun _ => 0

/-- The same when the kernel has taken two. -/
def two_taken : history where
  alloc := six_pages.set_map .kernel_pool
    (klib.bitmap_mark (klib.bitmap_mark (six_pages.pool .kernel_pool).used_map 0) 1)
  live := [⟨0xa000, 2⟩]

/-- The first pages of `six_pages`. -/
def six_lo : pool_id → ℕ
  | .kernel_pool => 10
  | .user_pool => 20

/-- The pages behind those of `six_pages`. -/
def six_hi : pool_id → ℕ
  | .kernel_pool => 14
  | .user_pool => 22

theorem six_pages_laid_out : LaidOut six_lo six_hi six_pages := by
  have hshape : Shape six_lo six_hi six_pages.view := by
    intro w
    cases w with
    | kernel_pool => exact ⟨_, rfl⟩
    | user_pool => exact ⟨_, rfl⟩
  have hbounds : Bounds six_lo six_hi :=
    ⟨fun w => by cases w <;> decide, fun w => by cases w <;> decide⟩
  refine ⟨hshape, hbounds, fun w => by cases w <;> decide, fun page hpage => ?_⟩
  rw [hshape.holds_iff hbounds, hshape.holds_iff hbounds] at hpage
  simp only [six_lo, six_hi] at hpage
  omega

/-- The two pages can be given back. -/
theorem two_taken_freed : ∃ s', palloc_free_multiple 0xa000 2 two_taken.alloc = .ok s'
    ∧ ∀ w q, (s'.view w).free q ↔ (two_taken.alloc.view w).free q
      ∨ (two_taken.alloc.view w).holds q ∧ range.covers ⟨0xa000, 2⟩ q := by
  have hpath : Runs.Path Step ⟨six_pages, []⟩ [.get 0 2] two_taken :=
    .cons ⟨Nat.two_pos, rfl⟩ (.nil _)
  exact (palloc_history_iff six_pages_laid_out hpath).2.2.2.2 ⟨0xa000, 2⟩ List.mem_cons_self

/-- A kernel pool of `2 ^ 32` pages, and two pages for users. -/
def large_pool : allocator where
  pool
    | .kernel_pool => ⟨⟨0x100000000, fun _ => 0, by decide⟩, 10 * PGSIZE⟩
    | .user_pool => ⟨⟨2, fun _ => 0, by decide⟩, (2 ^ 32 + 20) * PGSIZE⟩
  memory := fun _ => 0

/-- The first pages of `large_pool`. -/
def large_lo : pool_id → ℕ
  | .kernel_pool => 10
  | .user_pool => 2 ^ 32 + 20

/-- The pages behind those of `large_pool`. -/
def large_hi : pool_id → ℕ
  | .kernel_pool => 10 + 2 ^ 32
  | .user_pool => 2 ^ 32 + 22

theorem large_pool_laid_out : LaidOut large_lo large_hi large_pool := by
  have hshape : Shape large_lo large_hi large_pool.view := by
    intro w
    cases w with
    | kernel_pool => exact ⟨_, rfl⟩
    | user_pool => exact ⟨_, rfl⟩
  have hbounds : Bounds large_lo large_hi :=
    ⟨fun w => by cases w <;> decide, fun w => by cases w <;> decide⟩
  refine ⟨hshape, hbounds, fun w => by cases w <;> decide, fun page hpage => ?_⟩
  rw [hshape.holds_iff hbounds, hshape.holds_iff hbounds] at hpage
  simp only [large_lo, large_hi] at hpage
  omega

/-- The last page of the pool is free when all others are given out, and the call that asks for a
page returns null. -/
theorem last_page_refused : LaidOut large_lo large_hi large_pool
    ∧ ∃ es h, Runs.Path Step ⟨large_pool, []⟩ es h
      ∧ Available h.alloc (asked 0) 1 (10 + (2 ^ 32 - 1)) ∧ ¬ GetsFirst h.alloc 0 1 := by
  have hlaid := large_pool_laid_out
  have hfree : ∀ p, (large_pool.view .kernel_pool).free p ↔ 10 ≤ p ∧ p < 10 + 2 ^ 32 := by
    intro p
    rw [hlaid.free_iff]
    exact ⟨fun hp => ⟨hp.1, hp.2.1⟩, fun hp => ⟨hp.1, hp.2, BitVec.getLsbD_zero⟩⟩
  have hasked : asked 0 = .kernel_pool := rfl
  have hall : IsLeast {p | Available large_pool (asked 0) (2 ^ 32 - 1) p} 10 := by
    refine ⟨fun j hj => (hfree _).mpr ?_, fun p hp => ((hfree _).mp (hp 0 (by decide))).1⟩
    omega
  rcases hlaid.get_eq 0 (n := 2 ^ 32 - 1) (by decide)
    with ⟨s, page, hgot, hnonzero, -, hleast, hs, hrest⟩ | ⟨hno | hlost, -⟩
  · obtain rfl := hleast.unique hall
    have hlast : ∀ p, (s.view .kernel_pool).free p ↔ p = 10 + (2 ^ 32 - 1) := by
      intro p
      rw [hrest, hfree, hasked]
      simp only [true_and]
      omega
    have hfirst : Lost large_lo s (asked 0) 1 := by
      refine ⟨fun j hj => (hlast _).mpr ?_, fun p hp => ?_⟩
      · have hzero : j = 0 := by omega
        rw [hzero]
        rfl
      · have hp : p = 10 + (2 ^ 32 - 1) := (hlast _).mp (hp 0 Nat.one_pos)
        rw [hp]
        exact Nat.le_refl _
    refine ⟨hlaid, [.get 0 (2 ^ 32 - 1)], ⟨s, [⟨10 * PGSIZE, 2 ^ 32 - 1⟩]⟩,
      .cons ⟨show 0 < 2 ^ 32 - 1 by decide, ?_⟩ (.nil _),
      hfirst.1, fun hgets => (hs.gets_first_iff 0 Nat.one_pos).mp hgets hfirst⟩
    show palloc_get_multiple 0 (2 ^ 32 - 1) large_pool >>= _ = _
    rw [hgot]
    rfl
  · exact absurd hall.1 (hno 10)
  · have hsame := hlost.unique hall
    exact absurd hsame (by decide)

end Pintos.palloc
