/-
The first loop of `populate_pools`: the cut of usable memory into two pools.

The kernel pool gets the first pages of usable memory and the user pool the rest, counted
without the holes of the map. In pages, the loop is a cut of the list of regions
(`Spans.lean`), and each of its states is one lemma.

It works out for a cut that falls between two regions or into the last one. A cut inside an
earlier region ends in the `ASSERT` of the state `USER`, which compares pages with bytes.
-/
import Pintos.Threads.Palloc
import Mathlib.Tactic.Linarith
import Mathlib.Tactic.Ring

set_option autoImplicit false

namespace Pintos.palloc

open Pintos.Span

/-! ## Bitmaps -/

section Bitmaps

variable {b : bitmap} {start cnt n i : ℕ} {value : Bool}

theorem bitmap_set_loop_eq (h : start + i + n ≤ b.bit_cnt) (hlt : b.bit_cnt < 2 ^ 64) :
    bitmap_set_loop start value n i b = .ok { b with
      bits := fun k => if start + i ≤ k ∧ k < start + i + n then value else b.bits k } := by
  induction n generalizing i b with
  | zero =>
    have hnone : (fun k => if start + i ≤ k ∧ k < start + i + 0 then value else b.bits k)
        = b.bits := by
      funext k
      rw [if_neg (by omega)]
    rw [hnone]
    rfl
  | succ n ih =>
    unfold bitmap_set_loop bitmap_set
    rw [Nat.mod_eq_of_lt (by omega), Outcome.assert_pos (by omega)]
    simp only [Outcome.ok_bind, Outcome.pure_eq]
    have hrest := ih (b := ⟨b.bit_cnt, Function.update b.bits (start + i) value⟩) (i := i + 1)
      (by dsimp only; omega) hlt
    rw [hrest]
    congr 2
    funext k
    dsimp only
    by_cases hk : k = start + i
    · subst hk
      rw [if_neg (by omega), Function.update_self, if_pos (by omega)]
    · rw [Function.update_of_ne hk]
      apply if_congr _ rfl rfl
      omega

/-- The bits from `start` on are set, and no others. -/
theorem bitmap_set_multiple_eq (h : start + cnt ≤ b.bit_cnt) (hlt : b.bit_cnt < 2 ^ 64) :
    bitmap_set_multiple b start cnt value = .ok { b with
      bits := fun k => if start ≤ k ∧ k < start + cnt then value else b.bits k } := by
  unfold bitmap_set_multiple
  rw [Outcome.assert_pos (by omega), Outcome.ok_bind, Nat.mod_eq_of_lt (by omega),
    Outcome.assert_pos h, Outcome.ok_bind, bitmap_set_loop_eq (by omega) hlt]
  simp only [Nat.add_zero]

/-- A bitmap with every bit set. -/
def taken (n : ℕ) : bitmap := ⟨n, fun k => decide (k < n)⟩

/-- How many pages `init_pool` takes for the bitmap of `n` pages. -/
def map_pages (n : ℕ) : ℕ := DIV_ROUND_UP (bitmap_buf_size n) PGSIZE

/-- The pool of the pages `lo ≤ page < hi`, all of them taken. -/
def fresh (lo hi : ℕ) : pool := ⟨some (taken (hi - lo)), lo * PGSIZE⟩

theorem init_pool_eq {bm_base lo hi : ℕ} (hle : lo ≤ hi) (hlt : hi * PGSIZE < 2 ^ 64) :
    init_pool bm_base (lo * PGSIZE) (hi * PGSIZE)
      = .ok (fresh lo hi, (bm_base + map_pages (hi - lo) * PGSIZE) % 2 ^ 64) := by
  have hcnt : (hi * PGSIZE + 2 ^ 64 - lo * PGSIZE) % 2 ^ 64 / PGSIZE = hi - lo := by
    unfold PGSIZE at hlt ⊢
    omega
  have hbits : hi - lo < 2 ^ 64 := by
    unfold PGSIZE at hlt
    omega
  have hbuf : bitmap_buf_size (hi - lo) ≤ map_pages (hi - lo) * PGSIZE := by
    unfold map_pages DIV_ROUND_UP PGSIZE
    omega
  unfold init_pool bitmap_create_in_buf bitmap_set_all
  simp only [hcnt]
  rw [← map_pages, Outcome.assert_pos hbuf, Outcome.ok_bind, bitmap_set_multiple_eq (by simp) hbits,
    Outcome.ok_bind, bitmap_set_multiple_eq (by simp) hbits]
  simp [fresh, taken, map_pages]

end Bitmaps

/-! ## The memory map -/

/-- The pages of an entry, by kernel page number. -/
def e820_entry.span (e : e820_entry) : Span := ⟨pg_no (ptov e.mem), e.len / PGSIZE⟩

/-- The usable memory of a map. -/
def spans (entries : List e820_entry) : List Span :=
  (entries.filter e820_entry.usable).map e820_entry.span

/-- A memory map in order: sorted, its usable entries whole pages that do not overlap, all of
them within the addresses that `ptov` gives. -/
structure MemoryMap (entries : List e820_entry) : Prop where
  sorted : entries.Pairwise fun e e' => e.mem ≤ e'.mem
  aligned : ∀ e ∈ entries, e.usable → PGSIZE ∣ e.mem ∧ PGSIZE ∣ e.len
  nonempty : ∀ e ∈ entries, e.usable → 0 < e.len
  apart : entries.Pairwise fun e e' =>
    e.usable → e'.usable → e.mem + e.len ≤ e'.mem ∨ e'.mem + e'.len ≤ e.mem
  mapped : ∀ e ∈ entries, e.usable → e.mem + e.len + KERN_BASE < 2 ^ 64

section Map

variable {entries : List e820_entry} {e : e820_entry}

theorem mem_spans {r : Span} : r ∈ spans entries ↔ ∃ e ∈ entries, e.usable ∧ e.span = r := by
  simp [spans, and_assoc]

theorem MemoryMap.ptov_eq (hm : MemoryMap entries) (he : e ∈ entries) (hu : e.usable) :
    ptov e.mem = e.span.first * PGSIZE ∧ ptov e.mem = e.mem + KERN_BASE := by
  have hlt := hm.mapped e he hu
  obtain ⟨⟨k, hk⟩, -⟩ := hm.aligned e he hu
  have hmod : ptov e.mem = e.mem + KERN_BASE := Nat.mod_eq_of_lt (by omega)
  unfold e820_entry.span pg_no
  rw [hmod, hk]
  unfold PGSIZE KERN_BASE
  dsimp only
  omega

theorem MemoryMap.len_eq (hm : MemoryMap entries) (he : e ∈ entries) (hu : e.usable) :
    e.len = e.span.size * PGSIZE :=
  (Nat.div_mul_cancel (hm.aligned e he hu).2).symm

theorem MemoryMap.end_eq (hm : MemoryMap entries) (he : e ∈ entries) (hu : e.usable) :
    ptov e.mem + e.len = e.span.last * PGSIZE := by
  unfold Span.last
  rw [Nat.add_mul, ← (hm.ptov_eq he hu).1, ← hm.len_eq he hu]

theorem MemoryMap.last_lt (hm : MemoryMap entries) {r : Span} (hr : r ∈ spans entries) :
    r.last * PGSIZE < 2 ^ 64 := by
  obtain ⟨e, he, hu, rfl⟩ := mem_spans.mp hr
  have hlt := hm.mapped e he hu
  rw [← hm.end_eq he hu, (hm.ptov_eq he hu).2]
  omega

theorem MemoryMap.ascending (hm : MemoryMap entries) : Ascending (spans entries) where
  pos r hr := by
    obtain ⟨e, he, hu, rfl⟩ := mem_spans.mp hr
    have hpos := hm.nonempty e he hu
    rw [hm.len_eq he hu] at hpos
    exact Nat.pos_of_mul_pos_right hpos
  order := by
    unfold spans
    rw [List.pairwise_map, List.pairwise_filter]
    apply (hm.sorted.and hm.apart).imp_of_mem
    intro e e' he he' h hu hu'
    have hend := hm.end_eq he hu
    have hbase := (hm.ptov_eq he hu).2
    have hbase' := hm.ptov_eq he' hu'
    have hpos := hm.nonempty e' he' hu'
    -- the order of the addresses says which of the two comes first
    have hle : e.mem + e.len ≤ e'.mem := by
      rcases h.2 hu hu' with hle | hle
      · exact hle
      · have := h.1
        omega
    apply Nat.le_of_mul_le_mul_right (c := PGSIZE) _ (by decide)
    omega

/-! ### The size of usable memory -/

theorem area.extend_size (a : area) (start size : ℕ) :
    (a.extend start size).size % 2 ^ 64 = (a.size + size) % 2 ^ 64 := by
  unfold area.extend
  by_cases h : a.size = 0
  · simp [h]
  · simp [h]

/-- The two areas count every usable page once. -/
theorem resolve_area_info_size (base_mem ext_mem : area)
    (hlen : ∀ e ∈ entries, e.usable → e.len = e.span.size * PGSIZE) :
    ((resolve_area_info entries base_mem ext_mem).1.size
        + (resolve_area_info entries base_mem ext_mem).2.size) % 2 ^ 64
      = (base_mem.size + ext_mem.size + total (spans entries) * PGSIZE) % 2 ^ 64 := by
  unfold resolve_area_info
  induction entries generalizing base_mem ext_mem with
  | nil => simp [spans]
  | cons e entries ih =>
    have hrest := fun a b => ih a b fun e' he' => hlen e' (List.mem_cons_of_mem _ he')
    rw [List.foldl_cons]
    by_cases hu : e.usable
    · have hsize : total (spans (e :: entries)) * PGSIZE
          = e.len + total (spans entries) * PGSIZE := by
        rw [hlen e List.mem_cons_self hu, ← Nat.add_mul]
        simp [spans, hu]
      by_cases hbase : e.mem < BASE_MEM_THRESHOLD
      · have hstep : resolve_entry (base_mem, ext_mem) e
            = (base_mem.extend e.mem e.len, ext_mem) := by
          simp [resolve_entry, hu, hbase]
        rw [hsize, hstep, hrest]
        have := area.extend_size base_mem e.mem e.len
        omega
      · have hstep : resolve_entry (base_mem, ext_mem) e
            = (base_mem, ext_mem.extend e.mem e.len) := by
          simp [resolve_entry, hu, hbase]
        rw [hsize, hstep, hrest]
        have := area.extend_size ext_mem e.mem e.len
        omega
    · have hsame : spans (e :: entries) = spans entries := by simp [spans, hu]
      have hstep : resolve_entry (base_mem, ext_mem) e = (base_mem, ext_mem) := by
        simp [resolve_entry, hu]
      rw [hsame, hstep]
      exact hrest base_mem ext_mem

theorem MemoryMap.total_lt (hm : MemoryMap entries) : total (spans entries) * PGSIZE < 2 ^ 64 := by
  rcases hs : spans entries with - | ⟨r, rs⟩
  · simp
  · have hasc : Ascending (r :: rs) := hs ▸ hm.ascending
    have hle := hasc.first_add_total_le (d := 0)
    obtain ⟨q, hq, hlast⟩ := finish_mem (d := 0) (List.cons_ne_nil r rs)
    have hlt := hm.last_lt (hs.symm ▸ hq)
    rw [hlast] at hlt
    calc total (r :: rs) * PGSIZE
        ≤ finish 0 (r :: rs) * PGSIZE := Nat.mul_le_mul_right _ (by omega)
      _ < 2 ^ 64 := hlt

/-- `total_pages` counts the usable pages. -/
theorem MemoryMap.total_pages (hm : MemoryMap entries) :
    ((resolve_area_info entries ⟨0, 0, 0⟩ ⟨0, 0, 0⟩).1.size
        + (resolve_area_info entries ⟨0, 0, 0⟩ ⟨0, 0, 0⟩).2.size) % 2 ^ 64 / PGSIZE
      = total (spans entries) := by
  rw [resolve_area_info_size _ _ fun e he hu => hm.len_eq he hu, Nat.zero_add, Nat.zero_add,
    Nat.mod_eq_of_lt hm.total_lt]
  exact Nat.mul_div_cancel _ (by decide)

/-- A loop over the entries that skips the unusable ones is one over the spans. -/
theorem foldlM_entries {σ : Type} {f : σ → e820_entry → Outcome σ} {g : σ → Span → Outcome σ}
    (hu : ∀ e ∈ entries, e.usable → ∀ s, f s e = g s e.span)
    (hskip : ∀ e ∈ entries, ¬ e.usable → ∀ s, f s e = .ok s) (s : σ) :
    entries.foldlM f s = (spans entries).foldlM g s := by
  induction entries generalizing s with
  | nil => rfl
  | cons e entries ih =>
    have hrest := ih (fun e' he' => hu e' (List.mem_cons_of_mem _ he'))
      fun e' he' => hskip e' (List.mem_cons_of_mem _ he')
    rw [List.foldlM_cons]
    by_cases h : e.usable
    · have hcons : spans (e :: entries) = e.span :: spans entries := by simp [spans, h]
      rw [hcons, List.foldlM_cons, hu e List.mem_cons_self h]
      exact Outcome.bind_congr fun s' _ => hrest s'
    · have hsame : spans (e :: entries) = spans entries := by simp [spans, h]
      rw [hsame, hskip e List.mem_cons_self h, Outcome.ok_bind]
      exact hrest s

end Map

/-! ## The first loop -/

/-- One round of the first loop, at a span. -/
def carve_span (user_pages : ℕ) (c : carving) (r : Span) : Outcome carving :=
  carve_region user_pages (r.first * PGSIZE) (r.size * PGSIZE)
    (c.enter (r.first * PGSIZE) (r.last * PGSIZE))

theorem MemoryMap.carve_entries {entries : List e820_entry} (hm : MemoryMap entries)
    (user_pages : ℕ) (c : carving) :
    entries.foldlM (carve_entry user_pages) c
      = (spans entries).foldlM (carve_span user_pages) c := by
  apply foldlM_entries
  · intro e he hu c
    have hlt := hm.last_lt (mem_spans.mpr ⟨e, he, hu, rfl⟩)
    have hend : (ptov e.mem + e.len) % 2 ^ 64 = e.span.last * PGSIZE := by
      rw [hm.end_eq he hu]
      exact Nat.mod_eq_of_lt hlt
    unfold carve_entry carve_span
    rw [if_pos hu]
    dsimp only
    rw [hend, (hm.ptov_eq he hu).1, hm.len_eq he hu]
  · intro e he hu c
    exact if_neg hu

section Carve

variable {rs front back : List Span} {r : Span} {U lo d rem : ℕ} {c : carving}

theorem pages_of_size (n : ℕ) : n * PGSIZE / PGSIZE = n := Nat.mul_div_cancel _ (by decide)

/-- A region of which every page goes to the pool at hand. -/
def carving.pass (c : carving) (r : Span) : carving :=
  { c with rem := c.rem - r.size, end_ := r.last * PGSIZE }

theorem carve_span_pass (hstate : c.state = .KERN ∨ c.state = .USER) (hlt : r.size < c.rem) :
    carve_span U c r = .ok (c.pass r) := by
  unfold carve_span carving.enter carve_region
  rcases hstate with hstate | hstate
  · simp only [hstate, pages_of_size]
    rw [if_pos hlt, carving.pass, hstate]
    rfl
  · simp only [hstate, pages_of_size]
    rw [if_pos hlt, carving.pass, hstate]
    rfl

/-- The region after a whole cut is the first of the user pool. -/
theorem carve_span_user_start (hstate : c.state = .USER_START) : carve_span U c r
    = .ok { c with state := .USER, region_start := r.first * PGSIZE, end_ := r.last * PGSIZE } := by
  unfold carve_span carving.enter carve_region
  simp only [hstate]
  rfl

/-- In the user pool's regions nothing happens while pages are left to come. -/
theorem carve_user (hstate : c.state = .USER) (hend : c.end_ = d * PGSIZE)
    (hlt : total rs < c.rem) : rs.foldlM (carve_span U) c
      = .ok { c with rem := c.rem - total rs, end_ := finish d rs * PGSIZE } := by
  induction rs generalizing c d with
  | nil =>
    rw [List.foldlM_nil, total_nil, finish_nil, ← hend]
    rfl
  | cons r rs ih =>
    rw [total_cons] at hlt
    have hrest := ih (c := c.pass r) (d := r.last) hstate rfl
      (by dsimp only [carving.pass]; omega)
    rw [List.foldlM_cons, carve_span_pass (.inr hstate) (by omega), Outcome.ok_bind, hrest,
      total_cons, finish_cons, Nat.sub_add_eq]
    rfl

/-- When the count is exact, the last region trips the `ASSERT`. -/
theorem carve_user_panics (hstate : c.state = .USER) (hrem : c.rem = total rs) (hne : rs ≠ [])
    (hpos : ∀ r ∈ rs, 0 < r.size) : rs.foldlM (carve_span U) c = .panic := by
  induction rs generalizing c with
  | nil => exact absurd rfl hne
  | cons r rs ih =>
    have hr := hpos r List.mem_cons_self
    rw [total_cons] at hrem
    rw [List.foldlM_cons]
    cases rs with
    | nil =>
      have hstep : carve_span U c r = .panic := by
        have hbytes : ¬ c.rem = r.size * PGSIZE := by
          rw [total_nil] at hrem
          unfold PGSIZE
          omega
        rw [total_nil] at hrem
        unfold carve_span carving.enter carve_region
        simp only [hstate, pages_of_size]
        rw [if_neg (by omega), Outcome.assert_neg hbytes]
        rfl
      rw [hstep]
      rfl
    | cons r' rs =>
      have hr' := hpos r' (by simp)
      have hmore : r.size < c.rem := by
        rw [total_cons] at hrem
        omega
      rw [carve_span_pass (.inr hstate) hmore, Outcome.ok_bind]
      apply ih (c := c.pass r) hstate
      · dsimp only [carving.pass]
        omega
      · exact List.cons_ne_nil _ _
      · exact fun q hq => hpos q (List.mem_cons_of_mem _ hq)

/-- The loop after the kernel pool is complete, `rem` pages into region `r`. -/
def carving.cut (c : carving) (user_pages lo : ℕ) (r : Span) (rem : ℕ) : carving :=
  let hi := r.first + rem
  let free_start := (c.free_start + map_pages (hi - lo) * PGSIZE) % 2 ^ 64
  if rem = r.size then
    ⟨.USER_START, user_pages, c.region_start, r.last * PGSIZE, free_start, fresh lo hi⟩
  else
    ⟨.USER, (user_pages + 2 ^ 64 - r.size + rem) % 2 ^ 64, hi * PGSIZE, r.last * PGSIZE,
      free_start, fresh lo hi⟩

/-- The regions before the cut go to the kernel pool. -/
theorem carve_kern (hstate : c.state = .KERN) (hstart : c.region_start = lo * PGSIZE)
    (hlt : total front < c.rem) (hle : c.rem ≤ total front + r.size) (hlo : lo ≤ r.first)
    (hlast : r.last * PGSIZE < 2 ^ 64) :
    (front ++ r :: back).foldlM (carve_span U) c
      = back.foldlM (carve_span U) (c.cut U lo r (c.rem - total front)) := by
  induction front generalizing c with
  | nil =>
    rw [total_nil] at hlt hle ⊢
    have hhi : (r.first + c.rem) * PGSIZE < 2 ^ 64 := by
      apply Nat.lt_of_le_of_lt (Nat.mul_le_mul_right _ _) hlast
      unfold Span.last
      omega
    have hmod : (r.first * PGSIZE + c.rem * PGSIZE) % 2 ^ 64 = (r.first + c.rem) * PGSIZE := by
      rw [← Nat.add_mul, Nat.mod_eq_of_lt hhi]
    have hstep : carve_span U c r = .ok (c.cut U lo r c.rem) := by
      unfold carve_span carving.enter carve_region carving.cut
      simp only [hstate, pages_of_size]
      rw [if_neg (by omega), hmod, hstart, init_pool_eq (by omega) hhi, Outcome.ok_bind]
      by_cases h : c.rem = r.size
      · simp [h]
      · simp [h]
    rw [List.nil_append, List.foldlM_cons, hstep, Outcome.ok_bind, Nat.sub_zero]
  | cons q front ih =>
    rw [total_cons] at hlt hle ⊢
    have hrest := ih (c := c.pass q) hstate hstart (by dsimp only [carving.pass]; omega)
      (by dsimp only [carving.pass]; omega)
    rw [List.cons_append, List.foldlM_cons, carve_span_pass (.inl hstate) (by omega),
      Outcome.ok_bind, hrest]
    unfold carving.cut carving.pass
    dsimp only
    rw [Nat.sub_add_eq]

/-- What the first loop leaves for the user pool, when the kernel pool has `K` pages. -/
structure Carved (rs : List Span) (lo K free_start : ℕ) (c : carving) : Prop where
  kernel_pool : c.kernel_pool = fresh lo (cut_end rs K)
  free_start : c.free_start = (free_start + map_pages (cut_end rs K - lo) * PGSIZE) % 2 ^ 64
  region_start : c.region_start = cut_start lo rs K * PGSIZE
  end_ : c.end_ = finish 0 rs * PGSIZE

/-- The first region takes the loop out of `KERN_START`. -/
theorem carve_start {K free_start : ℕ} :
    (r :: rs).foldlM (carve_span U) ⟨.KERN_START, K, 0, 0, free_start, pool.zero⟩
      = (r :: rs).foldlM (carve_span U)
          ⟨.KERN, K, r.first * PGSIZE, 0, free_start, pool.zero⟩ := rfl

section Whole

variable {r₀ : Span} {rs₀ : List Span} {K free_start : ℕ}

/-- The loop up to the region in which the kernel pool ends. -/
theorem carve_to_cut (hasc : Ascending (r₀ :: rs₀)) (hsplit : r₀ :: rs₀ = front ++ r :: back)
    (hlast : r.last * PGSIZE < 2 ^ 64) (hlt : total front < K) (hle : K ≤ total front + r.size) :
    (r₀ :: rs₀).foldlM (carve_span U) ⟨.KERN_START, K, 0, 0, free_start, pool.zero⟩
      = back.foldlM (carve_span U)
          (carving.cut ⟨.KERN, K, r₀.first * PGSIZE, 0, free_start, pool.zero⟩ U r₀.first r
            (K - total front)) := by
  have hlo : r₀.first ≤ r.first := by
    cases front with
    | nil =>
      rw [List.nil_append, List.cons.injEq] at hsplit
      rw [hsplit.1]
    | cons q front =>
      rw [List.cons_append, List.cons.injEq] at hsplit
      have hafter := hasc.head_le r (by rw [hsplit.2]; simp)
      exact Nat.le_trans (Nat.le_add_right _ _) hafter
  rw [carve_start, hsplit]
  exact carve_kern rfl rfl hlt hle hlo hlast

/-- A cut inside a region that is not the last runs into the `ASSERT`. -/
theorem carve_panics (hasc : Ascending (r₀ :: rs₀)) (hsplit : r₀ :: rs₀ = front ++ r :: back)
    (hlast : ∀ q ∈ r₀ :: rs₀, q.last * PGSIZE < 2 ^ 64) (hK : K + U = total (r₀ :: rs₀))
    (htotal : total (r₀ :: rs₀) < 2 ^ 64)
    (hlt : total front < K) (hinside : K < total front + r.size) (hback : back ≠ []) :
    (r₀ :: rs₀).foldlM (carve_span U) ⟨.KERN_START, K, 0, 0, free_start, pool.zero⟩
      = .panic := by
  have hr : r ∈ r₀ :: rs₀ := by
    rw [hsplit]
    simp
  have hsum : total (r₀ :: rs₀) = total front + (r.size + total back) := by
    rw [hsplit, total_append, total_cons]
  have hasc' : Ascending back := by
    rw [hsplit] at hasc
    exact hasc.right.tail
  rw [carve_to_cut hasc hsplit (hlast r hr) hlt hinside.le]
  unfold carving.cut
  dsimp only
  rw [if_neg (by omega)]
  apply carve_user_panics rfl _ hback hasc'.pos
  -- the pages still to come are exactly those of the regions behind
  dsimp only
  omega

/-- Any other cut gives both pools their part. -/
theorem carve_ok (hasc : Ascending (r₀ :: rs₀))
    (hlast : ∀ q ∈ r₀ :: rs₀, q.last * PGSIZE < 2 ^ 64) (hK : K + U = total (r₀ :: rs₀))
    (hpos : 0 < K)
    (hwhole : ∀ front r back, r₀ :: rs₀ = front ++ r :: back → total front < K →
      K < total front + r.size → back = []) :
    ∃ c, (r₀ :: rs₀).foldlM (carve_span U) ⟨.KERN_START, K, 0, 0, free_start, pool.zero⟩ = .ok c
      ∧ Carved (r₀ :: rs₀) r₀.first K free_start c := by
  obtain ⟨front, r, back, hsplit, hlt, hle⟩ := exists_cut hpos (hK ▸ Nat.le_add_right K U)
  have hr : r ∈ r₀ :: rs₀ := by
    rw [hsplit]
    simp
  have hsum : total (r₀ :: rs₀) = total front + (r.size + total back) := by
    rw [hsplit, total_append, total_cons]
  have hend : cut_end (r₀ :: rs₀) K = r.first + (K - total front) := by
    rw [hsplit]
    exact cut_end_append hlt hle
  rw [carve_to_cut hasc hsplit (hlast r hr) hlt hle]
  rcases Nat.lt_or_eq_of_le hle with hinside | hwhole'
  · -- the cut lies in the last region, and the rest of it is the user pool
    obtain rfl := hwhole front r back hsplit hlt hinside
    refine ⟨_, rfl, ?_⟩
    unfold carving.cut
    dsimp only
    rw [if_neg (by omega)]
    constructor
    · rw [hend]
    · rw [hend]
    · rw [hsplit, cut_start_append hlt.le hinside]
    · rw [hsplit, finish_append, finish_nil]
  · have hcut : carving.cut ⟨.KERN, K, r₀.first * PGSIZE, 0, free_start, pool.zero⟩ U r₀.first r
          (K - total front)
        = ⟨.USER_START, U, r₀.first * PGSIZE, r.last * PGSIZE,
            (free_start + map_pages (r.first + (K - total front) - r₀.first) * PGSIZE) % 2 ^ 64,
            fresh r₀.first (r.first + (K - total front))⟩ := by
      unfold carving.cut
      dsimp only
      rw [if_pos (by omega)]
    rw [hcut]
    cases back with
    | nil =>
      -- no page is left, and the start of the kernel pool stays in `region_start`
      refine ⟨_, rfl, ?_⟩
      constructor
      · rw [hend]
      · rw [hend]
      · rw [cut_start_of_total_le (by rw [total_nil] at hsum; omega) hasc.pos]
      · rw [hsplit, finish_append, finish_nil]
    | cons q back =>
      have hq : 0 < q.size := by
        apply hasc.pos
        rw [hsplit]
        simp
      have hcons : total (q :: back) = q.size + total back := total_cons
      have hlt' : total back < U := by omega
      rw [List.foldlM_cons, carve_span_user_start (by rfl), Outcome.ok_bind]
      refine ⟨_, carve_user (d := q.last) (by rfl) (by rfl) hlt', ?_⟩
      have hsplit' : r₀ :: rs₀ = (front ++ [r]) ++ q :: back := by
        rw [hsplit]
        simp
      have hK' : total (front ++ [r]) = K := by
        rw [total_append, total_cons, total_nil]
        omega
      constructor
      · rw [hend]
      · rw [hend]
      · rw [hsplit', cut_start_append hK'.le (by omega), hK', Nat.sub_self, Nat.add_zero]
      · rw [hsplit', finish_append]

end Whole

end Carve

end Pintos.palloc
