/-
Spans of numbers in ascending order, and the cut after the first `k` numbers.

A list of spans stands for the numbers in them, holes left out. `cut_end` is where the
first `k` of these numbers end, `cut_start` is where the rest begins. The two differ where
the cut falls between two spans with a hole between them.
-/
import Mathlib.Algebra.Order.Group.Nat
import Mathlib.Tactic.Common

set_option autoImplicit false

namespace Pintos

/-- The `size` numbers from `first` on. -/
structure Span where
  first : ℕ
  size : ℕ
  deriving DecidableEq, Repr

namespace Span

/-- The number after a span. -/
def last (r : Span) : ℕ := r.first + r.size

/-- How many numbers the spans hold. -/
def total : List Span → ℕ
  | [] => 0
  | r :: rs => r.size + total rs

/-- The end of the last span, `d` where there is none. -/
def finish (d : ℕ) : List Span → ℕ
  | [] => d
  | r :: rs => finish r.last rs

/-- Where the first `k` numbers end. -/
def cut_end : List Span → ℕ → ℕ
  | [], _ => 0
  | r :: rs, k => if k ≤ r.size then r.first + k else cut_end rs (k - r.size)

/-- Where the numbers after the first `k` begin, `d` where there are none. -/
def cut_start (d : ℕ) : List Span → ℕ → ℕ
  | [], _ => d
  | r :: rs, k => if k < r.size then r.first + k else cut_start d rs (k - r.size)

/-- No span is empty, and each ends before the next begins. -/
structure Ascending (rs : List Span) : Prop where
  pos : ∀ r ∈ rs, 0 < r.size
  order : rs.Pairwise fun r r' => r.last ≤ r'.first

variable {rs front back : List Span} {r : Span} {d k : ℕ}

@[simp] theorem total_nil : total [] = 0 := rfl

@[simp] theorem total_cons : total (r :: rs) = r.size + total rs := rfl

@[simp] theorem total_append : total (front ++ back) = total front + total back := by
  induction front with
  | nil => simp
  | cons r front ih => rw [List.cons_append, total_cons, total_cons, ih, Nat.add_assoc]

@[simp] theorem finish_nil : finish d [] = d := rfl

@[simp] theorem finish_cons : finish d (r :: rs) = finish r.last rs := rfl

/-! ## Where the cut falls -/

/-- The number `k` of a list of spans lies in one of them. -/
theorem exists_cut (hpos : 0 < k) (hle : k ≤ total rs) : ∃ front r back,
    rs = front ++ r :: back ∧ total front < k ∧ k ≤ total front + r.size := by
  induction rs generalizing k with
  | nil =>
    rw [total_nil] at hle
    omega
  | cons r rs ih =>
    rw [total_cons] at hle
    by_cases hk : k ≤ r.size
    · exact ⟨[], r, rs, rfl, by simpa using hpos, by simpa using hk⟩
    · obtain ⟨front, q, back, rfl, hlt, hle'⟩ := ih (k := k - r.size) (by omega) (by omega)
      refine ⟨r :: front, q, back, rfl, ?_, ?_⟩
      · rw [total_cons]
        omega
      · rw [total_cons]
        omega

theorem cut_end_append (hlt : total front < k) (hle : k ≤ total front + r.size) :
    cut_end (front ++ r :: back) k = r.first + (k - total front) := by
  induction front generalizing k with
  | nil =>
    rw [total_nil] at hle ⊢
    rw [List.nil_append, cut_end, if_pos (by omega), Nat.sub_zero]
  | cons q front ih =>
    rw [total_cons] at hlt hle ⊢
    rw [List.cons_append, cut_end, if_neg (by omega), ih (by omega) (by omega)]
    omega

theorem cut_start_append (hle : total front ≤ k) (hlt : k < total front + r.size) :
    cut_start d (front ++ r :: back) k = r.first + (k - total front) := by
  induction front generalizing k with
  | nil =>
    rw [total_nil] at hlt ⊢
    rw [List.nil_append, cut_start, if_pos (by omega), Nat.sub_zero]
  | cons q front ih =>
    rw [total_cons] at hle hlt ⊢
    rw [List.cons_append, cut_start, if_neg (by omega), ih (by omega) (by omega)]
    omega

/-! ## Ascending spans -/

theorem Ascending.tail (h : Ascending (r :: rs)) : Ascending rs :=
  ⟨fun q hq => h.pos q (List.mem_cons_of_mem _ hq), (List.pairwise_cons.mp h.order).2⟩

theorem Ascending.right (h : Ascending (front ++ back)) : Ascending back :=
  ⟨fun q hq => h.pos q (List.mem_append_right _ hq), (List.pairwise_append.mp h.order).2.1⟩

theorem Ascending.head_le (h : Ascending (r :: rs)) : ∀ q ∈ rs, r.last ≤ q.first :=
  (List.pairwise_cons.mp h.order).1

/-- What comes before a span ends before it begins. -/
theorem Ascending.before (h : Ascending (front ++ r :: back)) : ∀ q ∈ front, q.last ≤ r.first :=
  fun q hq => (List.pairwise_append.mp h.order).2.2 q hq r List.mem_cons_self

/-- What comes after a span begins after its end. -/
theorem Ascending.after (h : Ascending (front ++ r :: back)) : ∀ q ∈ back, r.last ≤ q.first :=
  h.right.head_le

theorem Ascending.total_pos (h : Ascending rs) (hne : rs ≠ []) : 0 < total rs := by
  cases rs with
  | nil => exact absurd rfl hne
  | cons r rs =>
    have hr := h.pos r List.mem_cons_self
    rw [total_cons]
    omega

theorem finish_append : finish d (front ++ r :: back) = finish r.last back := by
  induction front generalizing d with
  | nil => rfl
  | cons q front ih =>
    rw [List.cons_append, finish_cons]
    exact ih

/-- The last end is the largest. -/
theorem Ascending.last_le_finish (h : Ascending rs) : ∀ q ∈ rs, q.last ≤ finish d rs := by
  induction rs generalizing d with
  | nil => simp
  | cons r rs ih =>
    intro q hq
    rw [finish_cons]
    rcases List.mem_cons.mp hq with rfl | hq
    · cases rs with
      | nil => exact Nat.le_refl _
      | cons r' rs =>
        have h₁ := h.head_le r' List.mem_cons_self
        have h₂ := ih (d := q.last) h.tail r' List.mem_cons_self
        have h₃ : r'.first ≤ r'.last := Nat.le_add_right _ _
        omega
    · exact ih h.tail q hq

/-- The last end belongs to a span. -/
theorem finish_mem (hne : rs ≠ []) : ∃ r ∈ rs, r.last = finish d rs := by
  induction rs generalizing d with
  | nil => exact absurd rfl hne
  | cons r rs ih =>
    cases rs with
    | nil => exact ⟨r, by simp, rfl⟩
    | cons r' rs =>
      obtain ⟨q, hq, heq⟩ := ih (d := r.last) (List.cons_ne_nil _ _)
      exact ⟨q, List.mem_cons_of_mem _ hq, heq⟩

/-- The spans fit between the start of the first and the end of the last. -/
theorem Ascending.first_add_total_le (h : Ascending (r :: rs)) :
    r.first + total (r :: rs) ≤ finish d (r :: rs) := by
  induction rs generalizing r d with
  | nil => exact Nat.le_refl _
  | cons r' rs ih =>
    have hhead := h.head_le r' List.mem_cons_self
    have hrest := ih (d := r.last) h.tail
    rw [total_cons, finish_cons]
    unfold last at hhead
    omega

/-- Past all numbers nothing begins. -/
theorem cut_start_of_total_le (h : total rs ≤ k) (hpos : ∀ r ∈ rs, 0 < r.size) :
    cut_start d rs k = d := by
  induction rs generalizing k with
  | nil => rfl
  | cons r rs ih =>
    have hr := hpos r List.mem_cons_self
    rw [total_cons] at h
    rw [cut_start, if_neg (by omega)]
    exact ih (by omega) fun q hq => hpos q (List.mem_cons_of_mem _ hq)

/-! ### Both sides of the cut -/

section Cut

variable {r₀ : Span} {rs₀ : List Span}

theorem Ascending.first_le (h : Ascending (r₀ :: rs₀)) : ∀ q ∈ r₀ :: rs₀, r₀.first ≤ q.first := by
  intro q hq
  rcases List.mem_cons.mp hq with rfl | hq
  · exact Nat.le_refl _
  · exact Nat.le_trans (Nat.le_add_right _ _) (h.head_le q hq)

theorem Ascending.first_lt_cut_end (h : Ascending (r₀ :: rs₀)) (hpos : 0 < k)
    (hle : k ≤ total (r₀ :: rs₀)) : r₀.first < cut_end (r₀ :: rs₀) k := by
  obtain ⟨front, r, back, hsplit, hlt, hle'⟩ := exists_cut hpos hle
  have hr : r₀.first ≤ r.first := h.first_le r (by simp [hsplit])
  rw [hsplit, cut_end_append hlt hle']
  omega

theorem Ascending.cut_start_lt_finish {d' : ℕ} (h : Ascending rs) (hlt : k < total rs) :
    cut_start d rs k < finish d' rs := by
  obtain ⟨front, r, back, rfl, hlt', hle⟩ := exists_cut (k := k + 1) (Nat.succ_pos k) hlt
  have hlast := h.last_le_finish (d := d') r (by simp)
  unfold last at hlast
  rw [cut_start_append (by omega) (by omega)]
  omega

theorem Ascending.cut_end_le_finish (h : Ascending rs) (hpos : 0 < k) (hle : k ≤ total rs) :
    cut_end rs k ≤ finish d rs := by
  obtain ⟨front, r, back, rfl, hlt, hle'⟩ := exists_cut hpos hle
  have hlast := h.last_le_finish (d := d) r (by simp)
  unfold last at hlast
  rw [cut_end_append hlt hle']
  omega

/-- The cut has no width inside a span, and that of the hole between two. -/
theorem Ascending.cut_cases (h : Ascending rs) (hpos : 0 < k) (hlt : k < total rs) :
    (∃ r ∈ rs, r.first < cut_end rs k ∧ cut_end rs k < r.last ∧ cut_start d rs k = cut_end rs k)
      ∨ ∃ front r q back, rs = front ++ r :: q :: back ∧ r.last = cut_end rs k
        ∧ q.first = cut_start d rs k := by
  obtain ⟨front, r, back, rfl, hlt', hle⟩ := exists_cut hpos hlt.le
  rcases Nat.lt_or_eq_of_le hle with hinside | hwhole
  · refine .inl ⟨r, by simp, ?_⟩
    rw [cut_start_append hlt'.le hinside, cut_end_append hlt' hle]
    unfold last
    omega
  · cases back with
    | nil =>
      rw [total_append, total_cons, total_nil] at hlt
      omega
    | cons q back =>
      have hq := h.pos q (by simp)
      have hcut : total (front ++ [r]) = k := by
        rw [total_append, total_cons, total_nil]
        omega
      refine .inr ⟨front, r, q, back, rfl, ?_, ?_⟩
      · rw [cut_end_append hlt' hle]
        unfold last
        omega
      · have hsplit : front ++ r :: q :: back = (front ++ [r]) ++ q :: back := by simp
        rw [hsplit, cut_start_append hcut.le (by omega), hcut, Nat.sub_self, Nat.add_zero]

theorem Ascending.cut_end_le_cut_start (h : Ascending rs) (hpos : 0 < k) (hlt : k < total rs) :
    cut_end rs k ≤ cut_start d rs k := by
  rcases h.cut_cases (d := d) hpos hlt with ⟨r, -, -, -, heq⟩ | ⟨front, r, q, back, hrs, hr, hq⟩
  · exact heq.ge
  · rw [← hr, ← hq]
    exact (hrs ▸ h).after q List.mem_cons_self

/-- A span lies before the cut, or after it, or the cut is inside. -/
theorem Ascending.cut_mem (h : Ascending rs) (hpos : 0 < k) (hlt : k < total rs) :
    ∀ p ∈ rs, p.last ≤ cut_end rs k ∨ cut_start d rs k ≤ p.first
      ∨ p.first < cut_end rs k ∧ cut_start d rs k = cut_end rs k := by
  intro p hp
  rcases h.cut_cases (d := d) hpos hlt with ⟨r, hr, h₁, h₂, heq⟩ | ⟨front, r, q, back, hrs, hr, hq⟩
  · by_cases hin : p.first < cut_end rs k
    · exact .inr (.inr ⟨hin, heq⟩)
    · exact .inr (.inl (by omega))
  · have h' : Ascending (front ++ r :: q :: back) := hrs ▸ h
    rw [hrs] at hp
    rcases List.mem_append.mp hp with hp | hp
    · have hbefore := h'.before p hp
      have hle : r.first ≤ r.last := Nat.le_add_right _ _
      exact .inl (by omega)
    · rcases List.mem_cons.mp hp with rfl | hp
      · exact .inl hr.le
      · have hle := h'.right.tail.first_le p hp
        exact .inr (.inl (by omega))

end Cut

example : cut_end [⟨1, 2⟩, ⟨5, 4⟩] 2 = 3 ∧ cut_start 0 [⟨1, 2⟩, ⟨5, 4⟩] 2 = 5 := by decide

end Span

end Pintos
