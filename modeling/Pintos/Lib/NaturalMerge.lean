/-
Natural merge sort.

A pass cuts the list into runs, the longest stretches in order, and merges them two by two.
It rearranges the list, and never turns round a pair that was in order (`Keeps`), so what it
leaves in the end is the stable sort of the list. `descents` counts the places where a run
ends; a pass that leaves more than one run leaves fewer of them.
-/
import Mathlib.Data.List.Sort
import Mathlib.Order.RelClasses
import Mathlib.Tactic.Common

set_option autoImplicit false

namespace Pintos.NaturalMerge

universe u

variable {α : Type u} (less : α → α → Prop)

/-- In order: nothing is less than what stands in front of it. -/
abbrev InOrder (l : List α) : Prop := l.Pairwise fun a b => ¬ less b a

/-- A rearrangement that turns round no pair that was in order. -/
structure Keeps (l l' : List α) : Prop where
  perm : l'.Perm l
  pairs : ∀ {a b : α}, [a, b].Sublist l → ¬ less b a → [a, b].Sublist l'

section Order

variable {less} [IsStrictWeakOrder α less] {a b c : α}

theorem not_less_self (a : α) : ¬ less a a := irrefl_of less a

theorem not_less_of_less (h : less a b) : ¬ less b a := asymm_of less h

/-- What is less than `b` is less than what is not less than `b`. -/
theorem less_of_less_of_not_less (hab : less a b) (hcb : ¬ less c b) : less a c := by
  by_contra hac
  by_cases hca : less c a
  · exact hcb (trans_of less hca hab)
  · by_cases hbc : less b c
    · exact hac (trans_of less hab hbc)
    · -- `a` is like `c`, and `c` like `b`
      exact (IsStrictWeakOrder.incomp_trans a c b ⟨hac, hca⟩ ⟨hcb, hbc⟩).1 hab

theorem not_less_trans (hab : ¬ less b a) (hbc : ¬ less c b) : ¬ less c a :=
  fun hca => hbc (less_of_less_of_not_less hca hab)

end Order

/-! ## Rearrangements -/

section Keeps

variable {less} {l l' l'' m m' : List α} {a b : α}

theorem Keeps.refl (l : List α) : Keeps less l l := ⟨.refl l, fun h _ => h⟩

theorem Keeps.trans (h : Keeps less l l') (h' : Keeps less l' l'') : Keeps less l l'' :=
  ⟨h'.perm.trans h.perm, fun hab hle => h'.pairs (h.pairs hab hle) hle⟩

theorem pair_sublist_append : [a, b].Sublist (l ++ m)
    ↔ [a, b].Sublist l ∨ (a ∈ l ∧ b ∈ m) ∨ [a, b].Sublist m := by
  constructor
  · intro h
    obtain ⟨l₁, l₂, heq, h₁, h₂⟩ := List.sublist_append_iff.mp h
    rcases l₁ with _ | ⟨c, _ | ⟨d, l₁⟩⟩
    · rw [List.nil_append] at heq
      subst heq
      exact .inr (.inr h₂)
    · simp only [List.cons_append, List.nil_append, List.cons.injEq] at heq
      obtain ⟨rfl, rfl⟩ := heq
      exact .inr (.inl ⟨List.singleton_sublist.mp h₁, List.singleton_sublist.mp h₂⟩)
    · simp only [List.cons_append, List.cons.injEq, List.nil_eq_append_iff] at heq
      obtain ⟨rfl, rfl, rfl, -⟩ := heq
      exact .inl h₁
  · rintro (h | ⟨ha, hb⟩ | h)
    · exact h.trans (List.sublist_append_left _ _)
    · exact (List.singleton_sublist.mpr ha).append (List.singleton_sublist.mpr hb)
    · exact h.trans (List.sublist_append_right _ _)

/-- Two elements stand in one order or the other. -/
theorem pair_total (ha : a ∈ l) (hb : b ∈ l) (hne : a ≠ b) :
    [a, b].Sublist l ∨ [b, a].Sublist l := by
  obtain ⟨l₁, l₂, rfl⟩ := List.append_of_mem ha
  rcases List.mem_append.mp hb with hb | hb
  · exact .inr (pair_sublist_append.mpr (.inr (.inl ⟨hb, List.mem_cons_self ..⟩)))
  · have hb := (List.mem_cons.mp hb).resolve_left hne.symm
    exact .inl (pair_sublist_append.mpr (.inr (.inr ((List.singleton_sublist.mpr hb).cons_cons a))))

theorem pair_asymm (h : l.Nodup) (hab : [a, b].Sublist l) : ¬ [b, a].Sublist l := by
  induction l with
  | nil => cases hab
  | cons c l ih =>
      intro hba
      obtain ⟨hc, hl⟩ := List.nodup_cons.mp h
      rcases List.cons_sublist_cons'.mp hab with hab' | ⟨rfl, hb⟩
      · rcases List.cons_sublist_cons'.mp hba with hba' | ⟨rfl, -⟩
        · exact ih hl hab' hba'
        · exact hc (hab'.subset (List.mem_cons_of_mem _ (List.mem_singleton_self _)))
      · rcases List.cons_sublist_cons'.mp hba with hba' | ⟨rfl, ha⟩
        · exact hc (hba'.subset (List.mem_cons_of_mem _ (List.mem_singleton_self _)))
        · exact hc (List.singleton_sublist.mp ha)

theorem Keeps.append (h : Keeps less l l') (hm : Keeps less m m') :
    Keeps less (l ++ m) (l' ++ m') := by
  refine ⟨h.perm.append hm.perm, fun {a b} hab hle => ?_⟩
  rcases pair_sublist_append.mp hab with hl | ⟨ha, hb⟩ | hm'
  · exact pair_sublist_append.mpr (.inl (h.pairs hl hle))
  · exact pair_sublist_append.mpr (.inr (.inl ⟨h.perm.mem_iff.mpr ha, hm.perm.mem_iff.mpr hb⟩))
  · exact pair_sublist_append.mpr (.inr (.inr (hm.pairs hm' hle)))

/-- **Uniqueness**: only one rearrangement of the kind is in order. -/
theorem Keeps.unique (hnodup : l.Nodup) (h : Keeps less l l') (h' : Keeps less l l'')
    (ho : InOrder less l') (ho' : InOrder less l'') : l' = l'' := by
  -- the order in which they stand: less, or alike and in front before
  let R : α → α → Prop := fun a b => ¬ less b a ∧ (¬ less a b → [a, b].Sublist l)
  have hR : ∀ {k : List α}, Keeps less l k → InOrder less k → k.Pairwise R := by
    intro k hk hko
    have hknd : k.Nodup := hk.perm.nodup_iff.mpr hnodup
    refine List.pairwise_iff_forall_sublist.mpr fun {a b} hab => ?_
    refine ⟨List.pairwise_iff_forall_sublist.mp hko hab, fun hge => ?_⟩
    have hne : a ≠ b := by
      rintro rfl
      exact pair_asymm hknd hab hab
    have ha : a ∈ l := hk.perm.mem_iff.mp (hab.subset (by simp))
    have hb : b ∈ l := hk.perm.mem_iff.mp (hab.subset (by simp))
    refine (pair_total ha hb hne).resolve_right fun hba => ?_
    exact pair_asymm hknd hab (hk.pairs hba hge)
  apply (h.perm.trans h'.perm.symm).eq_of_pairwise _ (hR h ho) (hR h' ho')
  intro a b _ _ hab hba
  exact absurd (hba.2 hab.1) (pair_asymm hnodup (hab.2 hba.1))

end Keeps

/-! ## Merging -/

section Merge

variable [DecidableRel less] {less} {l m : List α} {a b : α}

variable (less) in
/-- Merging, with the left list first among equals. -/
def merge (l m : List α) : List α := l.merge m fun a b => ! decide (less b a)

theorem merge_nil (l : List α) : merge less l [] = l := by
  unfold merge
  simp

theorem nil_merge (m : List α) : merge less [] m = m := by
  unfold merge
  simp

theorem merge_cons_of_not_less (h : ¬ less b a) :
    merge less (a :: l) (b :: m) = a :: merge less l (b :: m) := by
  unfold merge
  rw [List.cons_merge_cons_pos]
  simp [h]

theorem merge_cons_of_less (h : less b a) :
    merge less (a :: l) (b :: m) = b :: merge less (a :: l) m := by
  unfold merge
  rw [List.cons_merge_cons_neg]
  simp [h]

theorem merge_perm (l m : List α) : (merge less l m).Perm (l ++ m) := List.merge_perm_append _

theorem merge_ordered [IsStrictWeakOrder α less] (hl : InOrder less l) (hm : InOrder less m) :
    InOrder less (merge less l m) := by
  have hle : ∀ {k : List α}, InOrder less k
      ↔ k.Pairwise fun a b => (! decide (less b a)) = true := by simp
  rw [hle] at hl hm ⊢
  apply List.pairwise_merge _ _ l m hl hm
  · intro a b c hab hbc
    simp only [Bool.not_eq_true', decide_eq_false_iff_not] at hab hbc ⊢
    exact not_less_trans hab hbc
  · intro a b
    by_cases h : less a b
    · have := not_less_of_less h
      simp [this]
    · simp [h]

/-- **Merging** turns round no pair that is in order. -/
theorem merge_keeps [IsStrictWeakOrder α less] (hl : InOrder less l) (hm : InOrder less m) :
    Keeps less (l ++ m) (merge less l m) := by
  refine ⟨merge_perm l m, fun {a b} => ?_⟩
  induction l generalizing m with
  | nil =>
      intro hab _
      rwa [nil_merge]
  | cons x l ihl =>
      induction m with
      | nil =>
          intro hab _
          rw [List.append_nil] at hab
          rwa [merge_nil]
      | cons y m ihm =>
          intro hab hle
          by_cases hyx : less y x
          · rw [merge_cons_of_less hyx]
            obtain ⟨hy, hm'⟩ := List.pairwise_cons.mp hm
            have hrest := fun h => (ihm hm' h hle).cons y
            rcases pair_sublist_append.mp hab with h | ⟨ha, hb⟩ | h
            · exact hrest (pair_sublist_append.mpr (.inl h))
            · rcases List.mem_cons.mp hb with rfl | hb
              · -- `b` is less than the least of the left list
                have hxa : ¬ less a x := by
                  rcases List.mem_cons.mp ha with rfl | ha
                  · exact not_less_self a
                  · exact (List.pairwise_cons.mp hl).1 a ha
                exact absurd (less_of_less_of_not_less hyx hxa) hle
              · exact hrest (pair_sublist_append.mpr (.inr (.inl ⟨ha, hb⟩)))
            · rcases List.cons_sublist_cons'.mp h with h | ⟨rfl, hb⟩
              · exact hrest (pair_sublist_append.mpr (.inr (.inr h)))
              · apply List.Sublist.cons_cons
                rw [List.singleton_sublist] at hb ⊢
                exact (merge_perm _ _).mem_iff.mpr (List.mem_append_right _ hb)
          · rw [merge_cons_of_not_less hyx]
            have hl' := (List.pairwise_cons.mp hl).2
            rw [List.cons_append] at hab
            rcases List.cons_sublist_cons'.mp hab with h | ⟨rfl, hb⟩
            · exact (ihl hl' hm h hle).cons x
            · apply List.Sublist.cons_cons
              rw [List.singleton_sublist] at hb ⊢
              exact (merge_perm _ _).mem_iff.mpr hb

end Merge

/-! ## Inserting -/

section Insert

variable {less} [IsStrictWeakOrder α less] {l l₁ l₂ : List α} {a : α}

/-- In a list in order, what is less than the first is less than all. -/
theorem InOrder.less_all (ho : InOrder less l) (hhead : ∀ c ∈ l.head?, less a c) :
    ∀ b ∈ l, less a b := by
  cases l with
  | nil => simp
  | cons c l =>
      have hc : less a c := hhead c rfl
      intro b hb
      rcases List.mem_cons.mp hb with rfl | hb
      · exact hc
      · exact less_of_less_of_not_less hc ((List.pairwise_cons.mp ho).1 b hb)

theorem InOrder.insert (ho : InOrder less (l₁ ++ l₂)) (hbefore : ∀ b ∈ l₁, ¬ less a b)
    (hbehind : ∀ b ∈ l₂, less a b) : InOrder less (l₁ ++ a :: l₂) := by
  obtain ⟨ho₁, ho₂, hcross⟩ := List.pairwise_append.mp ho
  refine List.pairwise_append.mpr ⟨ho₁, List.pairwise_cons.mpr ⟨?_, ho₂⟩, ?_⟩
  · exact fun b hb => not_less_of_less (hbehind b hb)
  · intro b hb c hc
    rcases List.mem_cons.mp hc with rfl | hc
    · exact hbefore b hb
    · exact hcross b hb c hc

variable [DecidableRel less]

omit [IsStrictWeakOrder α less] in
/-- Insertion sort, by the same comparison. -/
theorem insertionSort_keeps (l : List α) :
    Keeps less l (l.insertionSort fun a b => ¬ less b a) :=
  ⟨List.perm_insertionSort _ l, fun hab hle => List.pair_sublist_insertionSort hle hab⟩

theorem insertionSort_ordered (l : List α) :
    InOrder less (l.insertionSort fun a b => ¬ less b a) := by
  have : IsTrans α fun a b => ¬ less b a := ⟨fun a b c hab hbc => not_less_trans hab hbc⟩
  have : Std.Total fun a b : α => ¬ less b a := by
    constructor
    intro a b
    by_cases h : less b a
    · exact .inr (not_less_of_less h)
    · exact .inl h
  exact List.pairwise_insertionSort _ l

end Insert

/-! ## Runs -/

/-- How often an element is less than the one in front of it. -/
def descents [DecidableRel less] : List α → ℕ
  | a :: b :: l => (if less b a then 1 else 0) + descents (b :: l)
  | _ => 0

section Runs

variable {less} {l m : List α} {a b : α}

/-- Neighbours in order are enough. -/
theorem ordered_of_isChain [IsStrictWeakOrder α less] (h : l.IsChain fun a b => ¬ less b a) :
    InOrder less l := by
  have : Trans (fun a b => ¬ less b a) (fun a b => ¬ less b a) (fun a b => ¬ less b a) :=
    ⟨fun hab hbc => not_less_trans hab hbc⟩
  exact List.isChain_iff_pairwise.mp h

variable [DecidableRel less]

theorem descents_of_ordered (h : InOrder less l) : descents less l = 0 := by
  induction l with
  | nil => rfl
  | cons a l ih =>
      obtain ⟨ha, hl⟩ := List.pairwise_cons.mp h
      cases l with
      | nil => rfl
      | cons b l =>
          rw [descents, ih hl, if_neg (ha b (List.mem_cons_self ..))]

theorem descents_append : descents less (a :: l ++ b :: m) = descents less (a :: l)
    + (if less b (l.getLastD a) then 1 else 0) + descents less (b :: m) := by
  induction l generalizing a with
  | nil =>
      rw [List.getLastD_nil]
      simp [descents]
  | cons c l ih =>
      rw [List.getLastD_cons, List.cons_append, List.cons_append, descents, ← List.cons_append, ih,
        descents]
      omega

end Runs

/-- One pass over the list: what becomes of it, and how many runs come out. -/
inductive Pass [DecidableRel less] : List α → List α → ℕ → Prop
  | nil : Pass [] [] 0
  | one {a : α} {l : List α} (hl : InOrder less (a :: l)) : Pass (a :: l) (a :: l) 1
  | two {a b : α} {l m rest out : List α} {n : ℕ} (hl : InOrder less (a :: l))
      (hm : InOrder less (b :: m)) (hend : less b (l.getLastD a))
      (hend' : ∀ c ∈ rest.head?, less c (m.getLastD b)) (hrest : Pass rest out n) :
      Pass (a :: l ++ (b :: m ++ rest)) (merge less (a :: l) (b :: m) ++ out) (n + 1)

namespace Pass

variable {less} [DecidableRel less] {l l' : List α} {n : ℕ}

theorem eq_nil (h : Pass less l l' 0) : l = [] ∧ l' = [] := by
  cases h
  exact ⟨rfl, rfl⟩

/-- The runs are merged two by two. -/
theorem le_descents (h : Pass less l l' n) : 2 * n ≤ descents less l + 2 := by
  induction h with
  | nil => exact Nat.zero_le _
  | one hl => omega
  | @two a b l m rest out n hl hm hend hend' hrest ih =>
      cases hr : rest with
      | nil =>
          rw [hr] at hrest
          cases hrest
          rw [List.append_nil, descents_append, if_pos hend]
          omega
      | cons c rest' =>
          rw [hr] at hend' ih
          have hc : less c (m.getLastD b) := hend' c rfl
          have hrun : descents less (b :: m ++ c :: rest') = 1 + descents less (c :: rest') := by
            rw [descents_append, descents_of_ordered hm, if_pos hc, Nat.zero_add]
          have hsplit : descents less (a :: l ++ (b :: m ++ c :: rest'))
              = descents less (a :: l) + (if less b (l.getLastD a) then 1 else 0)
                + descents less (b :: m ++ c :: rest') := descents_append
          rw [hsplit, hrun, if_pos hend]
          omega

/-- A descent is left where a new run begins. -/
theorem descents_lt [IsStrictWeakOrder α less] (h : Pass less l l' n) :
    descents less l' ≤ n - 1 := by
  induction h with
  | nil => exact Nat.le_refl _
  | one hl => exact (descents_of_ordered hl).le
  | @two a b l m rest out n hl hm hend hend' hrest ih =>
      have hmerge := merge_ordered hl hm
      cases ho : out with
      | nil =>
          rw [List.append_nil, descents_of_ordered hmerge]
          exact Nat.zero_le _
      | cons c out' =>
          rw [ho] at ih
          have hn : n ≠ 0 := by
            rintro rfl
            rw [hrest.eq_nil.2] at ho
            cases ho
          cases hk : merge less (a :: l) (b :: m) with
          | nil =>
              rw [List.nil_append]
              omega
          | cons d k =>
              rw [hk] at hmerge
              rw [descents_append, descents_of_ordered hmerge]
              split <;> omega

/-- **Progress**: while there are two runs left, there are fewer descents. -/
theorem descents_decrease [IsStrictWeakOrder α less] (h : Pass less l l' n) (hn : 1 < n) :
    descents less l' < descents less l := by
  have hle := h.le_descents
  have hlt := h.descents_lt
  omega

theorem ordered [IsStrictWeakOrder α less] (h : Pass less l l' n) (hn : n ≤ 1) :
    InOrder less l' := by
  cases h with
  | nil => exact List.Pairwise.nil
  | one hl => exact hl
  | two hl hm hend hend' hrest =>
      obtain rfl : _ = 0 := Nat.le_zero.mp (Nat.le_of_succ_le_succ hn)
      rw [hrest.eq_nil.2, List.append_nil]
      exact merge_ordered hl hm

/-- **A pass** turns round no pair that is in order. -/
theorem keeps [IsStrictWeakOrder α less] (h : Pass less l l' n) : Keeps less l l' := by
  induction h with
  | nil => exact .refl _
  | one hl => exact .refl _
  | two hl hm hend hend' hrest ih =>
      rw [← List.append_assoc]
      exact (merge_keeps hl hm).append ih

end Pass

end Pintos.NaturalMerge
