/-
Trees of tables that live in one heap.

A table is a heap address with children at indices; a path of indices leads from a
root to a table, or nowhere. Several roots share one heap. Which positions (a root
and a path) belong to whom is given by a predicate `own`; the positions in it are
kept apart: no table is found at two of them. Storing into an entry then changes
what is found at one position, and at no other.
-/
import Mathlib.Data.List.Induction
import Mathlib.Data.List.Nodup
import Mathlib.Data.List.FinRange
import Mathlib.Tactic.Common

set_option autoImplicit false

namespace Pintos.Radix

universe u v

variable {α : Type u} {ι : Type v}

/-- What a path leads to. -/
def reach (child : α → ι → Option α) : α → List ι → Option α
  | t, [] => some t
  | t, i :: is => (child t i).bind fun c => reach child c is

variable {child child' : α → ι → Option α} {r r' t t' : α} {is js : List ι} {i j : ι}

@[simp] theorem reach_nil : reach child t [] = some t := rfl

theorem reach_cons : reach child t (i :: is) = (child t i).bind fun c => reach child c is := rfl

theorem reach_append :
    reach child t (is ++ js) = (reach child t is).bind fun c => reach child c js := by
  induction is generalizing t with
  | nil => rfl
  | cons i is ih =>
      rw [List.cons_append, reach_cons, reach_cons]
      cases child t i with
      | none => rfl
      | some c => exact ih

theorem reach_concat : reach child t (is ++ [j]) = (reach child t is).bind fun c => child c j := by
  rw [reach_append]
  congr 1
  funext c
  rw [reach_cons]
  cases child c j with
  | none => rfl
  | some d => rfl

/-- The positions of `own` hold different tables. -/
structure Forest (child : α → ι → Option α) (own : α → List ι → Prop) : Prop where
  parent : ∀ {r is i}, own r (is ++ [i]) → own r is
  unique : ∀ {r is r' js t}, own r is → own r' js → reach child r is = some t →
    reach child r' js = some t → r = r' ∧ is = js

variable {own : α → List ι → Prop}

section Agree

/-- Tables of `own` are not written to: the same is found at their positions. -/
theorem Forest.reach_eq (h : Forest child own)
    (hsame : ∀ {r is t}, own r is → reach child r is = some t → child' t = child t)
    (hown : own r is) : reach child' r is = reach child r is := by
  induction is using List.reverseRecOn with
  | nil => rfl
  | append_singleton is i ih =>
      have hprev := ih (h.parent hown)
      rw [reach_concat, reach_concat, hprev]
      cases ht : reach child r is with
      | none => rfl
      | some t =>
          rw [Option.bind_some, Option.bind_some, hsame (h.parent hown) ht]

/-- One step further down. -/
theorem Forest.reach_concat_eq (h : Forest child own)
    (hsame : ∀ {r is t}, own r is → reach child r is = some t → child' t = child t)
    (hown : own r is) (j : ι) : reach child' r (is ++ [j]) = reach child r (is ++ [j]) := by
  rw [reach_concat, reach_concat, h.reach_eq hsame hown]
  cases ht : reach child r is with
  | none => rfl
  | some t => rw [Option.bind_some, Option.bind_some, hsame hown ht]

theorem Forest.congr (h : Forest child own)
    (hsame : ∀ {r is t}, own r is → reach child r is = some t → child' t = child t) :
    Forest child' own where
  parent := h.parent
  unique ho ho' hr hr' := by
    rw [h.reach_eq hsame ho] at hr
    rw [h.reach_eq hsame ho'] at hr'
    exact h.unique ho ho' hr hr'

/-- Fewer positions. -/
theorem Forest.mono (h : Forest child own) {own' : α → List ι → Prop}
    (hsub : ∀ {r is}, own' r is → own r is)
    (hparent : ∀ {r is i}, own' r (is ++ [i]) → own' r is) : Forest child own' where
  parent := hparent
  unique ho ho' hr hr' := h.unique (hsub ho) (hsub ho') hr hr'

end Agree

section Link

variable {v : α}

/-- An empty entry of the table at `(r, is)` is made to point to `v`, which is new and
has no children. -/
structure Linked (child : α → ι → Option α) (own : α → List ι → Prop) (r : α) (is : List ι)
    (i : ι) (v : α) (child' : α → ι → Option α) : Prop where
  holder : own r is
  table : ∃ t, reach child r is = some t ∧ child t i = none ∧ child' t i = some v
    ∧ ∀ u j, (u ≠ t ∨ j ≠ i) → u ≠ v → child' u j = child u j
  fresh : ∀ {r' js}, own r' js → reach child r' js ≠ some v
  leaf : ∀ j, child' v j = none

/-- What is found after linking, at and right below the positions of `own`. -/
theorem Forest.reach_linked (h : Forest child own) (hl : Linked child own r is i v child')
    (hown : own r' js) : (r' = r ∧ js = is ++ [i] ∧ reach child' r' js = some v)
      ∨ (¬ (r' = r ∧ js = is ++ [i]) ∧ reach child' r' js = reach child r' js) := by
  obtain ⟨t, ht, hnone, hnew, hrest⟩ := hl.table
  induction js using List.reverseRecOn with
  | nil =>
      right
      refine ⟨fun hpos => ?_, rfl⟩
      simp at hpos
  | append_singleton js j ih =>
      rw [reach_concat, reach_concat]
      rcases ih (h.parent hown) with ⟨rfl, rfl, hv⟩ | ⟨hne, hkeep⟩
      · -- below the new table there is nothing, before and after
        right
        refine ⟨fun hpos => ?_, ?_⟩
        · have := congrArg List.length hpos.2
          simp at this
        · rw [hv, Option.bind_some, hl.leaf, reach_concat, ht, Option.bind_some, hnone]
          rfl
      · rw [hkeep]
        cases hu : reach child r' js with
        | none =>
            right
            refine ⟨fun hpos => ?_, rfl⟩
            obtain ⟨rfl, hjs⟩ := hpos
            obtain ⟨rfl, -⟩ := List.append_inj' hjs rfl
            rw [ht] at hu
            cases hu
        | some u =>
            rw [Option.bind_some, Option.bind_some]
            by_cases hpos : u = t ∧ j = i
            · left
              obtain ⟨rfl, rfl⟩ := hpos
              obtain ⟨rfl, rfl⟩ := h.unique (h.parent hown) hl.holder hu ht
              exact ⟨rfl, rfl, hnew⟩
            · right
              refine ⟨fun heq => ?_, ?_⟩
              · obtain ⟨rfl, hjs⟩ := heq
                obtain ⟨rfl, hj⟩ := List.append_inj' hjs rfl
                rw [ht] at hu
                exact hpos ⟨(Option.some.inj hu).symm, by simpa using hj⟩
              · apply hrest
                · by_contra hboth
                  push Not at hboth
                  exact hpos hboth
                · rintro rfl
                  exact hl.fresh (h.parent hown) hu

theorem Forest.linked (h : Forest child own) (hl : Linked child own r is i v child') :
    Forest child' own where
  parent := h.parent
  unique {r₁ is₁ r₂ is₂ t} h₁ h₂ ht₁ ht₂ := by
    rcases h.reach_linked hl h₁ with ⟨rfl, rfl, hv₁⟩ | ⟨-, hk₁⟩
    · rcases h.reach_linked hl h₂ with ⟨rfl, rfl, -⟩ | ⟨-, hk₂⟩
      · exact ⟨rfl, rfl⟩
      · rw [hv₁] at ht₁
        rw [hk₂, ← ht₁] at ht₂
        exact absurd ht₂ (hl.fresh h₂)
    · rcases h.reach_linked hl h₂ with ⟨rfl, rfl, hv₂⟩ | ⟨-, hk₂⟩
      · rw [hv₂] at ht₂
        rw [hk₁, ← ht₂] at ht₁
        exact absurd ht₁ (hl.fresh h₁)
      · rw [hk₁] at ht₁
        rw [hk₂] at ht₂
        exact h.unique h₁ h₂ ht₁ ht₂

/-- Entries right below a position of `own`, if the new table is at such a position
too. -/
theorem Forest.leaf_linked (h : Forest child own) (hl : Linked child own r is i v child')
    (hnew : own r (is ++ [i])) (hown : own r' js) (j : ι) (hout : ¬ own r' (js ++ [j])) :
    reach child' r' (js ++ [j]) = reach child r' (js ++ [j]) := by
  obtain ⟨t, ht, hnone, -, hrest⟩ := hl.table
  rw [reach_concat, reach_concat]
  rcases h.reach_linked hl hown with ⟨rfl, rfl, hv⟩ | ⟨-, hkeep⟩
  · rw [hv, Option.bind_some, hl.leaf, reach_concat, ht, Option.bind_some, hnone]
    rfl
  · rw [hkeep]
    cases hu : reach child r' js with
    | none => rfl
    | some u =>
        rw [Option.bind_some, Option.bind_some]
        apply hrest
        · by_contra hboth
          push Not at hboth
          obtain ⟨rfl, rfl⟩ := hboth
          obtain ⟨rfl, rfl⟩ := h.unique hown hl.holder hu ht
          exact hout hnew
        · rintro rfl
          exact hl.fresh hown hu

end Link

section Store

/-- An entry of the table at `(r, is)` is stored to, below the positions of `own`. -/
structure Stored (child : α → ι → Option α) (own : α → List ι → Prop) (r : α) (is : List ι)
    (i : ι) (child' : α → ι → Option α) : Prop where
  holder : own r is
  outside : ¬ own r (is ++ [i])
  table : ∃ t, reach child r is = some t ∧ ∀ u j, (u ≠ t ∨ j ≠ i) → child' u j = child u j

theorem Forest.reach_stored (h : Forest child own) (hs : Stored child own r is i child')
    (hown : own r' js) : reach child' r' js = reach child r' js := by
  obtain ⟨t, ht, hrest⟩ := hs.table
  induction js using List.reverseRecOn with
  | nil => rfl
  | append_singleton js j ih =>
      have hown' := h.parent hown
      rw [reach_concat, reach_concat, ih hown']
      cases hu : reach child r' js with
      | none => rfl
      | some u =>
          rw [Option.bind_some, Option.bind_some]
          apply hrest
          by_contra hboth
          push Not at hboth
          obtain ⟨rfl, rfl⟩ := hboth
          obtain ⟨rfl, rfl⟩ := h.unique hown' hs.holder hu ht
          exact hs.outside hown

theorem Forest.stored (h : Forest child own) (hs : Stored child own r is i child') :
    Forest child' own where
  parent := h.parent
  unique ho ho' hr hr' := by
    rw [h.reach_stored hs ho] at hr
    rw [h.reach_stored hs ho'] at hr'
    exact h.unique ho ho' hr hr'

/-- Every other entry is as it was. -/
theorem Forest.leaf_stored (h : Forest child own) (hs : Stored child own r is i child')
    (hown : own r' js) (j : ι) (hne : ¬ (r' = r ∧ js = is ∧ j = i)) :
    reach child' r' (js ++ [j]) = reach child r' (js ++ [j]) := by
  obtain ⟨t, ht, hrest⟩ := hs.table
  rw [reach_concat, reach_concat, h.reach_stored hs hown]
  cases hu : reach child r' js with
  | none => rfl
  | some u =>
      rw [Option.bind_some, Option.bind_some]
      apply hrest
      by_contra hboth
      push Not at hboth
      obtain ⟨rfl, rfl⟩ := hboth
      obtain ⟨rfl, rfl⟩ := h.unique hown hs.holder hu ht
      exact hne ⟨rfl, rfl, rfl⟩

end Store

section Nodes

variable {n : ℕ} {x : α} {idx : List ι}

/-- Everything within `n` steps of `t`, children before their table. -/
def nodes (idx : List ι) (child : α → ι → Option α) : ℕ → α → List α
  | 0, t => [t]
  | n + 1, t => (idx.flatMap fun i => (child t i).elim [] (nodes idx child n)) ++ [t]

theorem self_mem_nodes : t ∈ nodes idx child n t := by
  cases n with
  | zero => exact List.mem_singleton.mpr rfl
  | succ n => exact List.mem_append_right _ (List.mem_singleton.mpr rfl)

theorem mem_nodes (hidx : ∀ i, i ∈ idx) :
    x ∈ nodes idx child n t ↔ ∃ is, is.length ≤ n ∧ reach child t is = some x := by
  induction n generalizing t with
  | zero =>
      constructor
      · intro hx
        exact ⟨[], le_rfl, by rw [List.mem_singleton.mp hx, reach_nil]⟩
      · rintro ⟨is, hlen, hx⟩
        obtain rfl : is = [] := List.length_eq_zero_iff.mp (by omega)
        rw [reach_nil] at hx
        exact List.mem_singleton.mpr (Option.some.inj hx).symm
  | succ n ih =>
      rw [nodes, List.mem_append, List.mem_flatMap, List.mem_singleton]
      constructor
      · rintro (⟨i, -, hx⟩ | rfl)
        · cases hc : child t i with
          | none =>
              rw [hc] at hx
              cases hx
          | some c =>
              rw [hc] at hx
              obtain ⟨is, hlen, his⟩ := ih.mp hx
              refine ⟨i :: is, ?_, ?_⟩
              · rw [List.length_cons]
                omega
              · rw [reach_cons, hc, Option.bind_some, his]
        · exact ⟨[], Nat.zero_le _, rfl⟩
      · rintro ⟨_ | ⟨i, is⟩, hlen, hx⟩
        · right
          rw [reach_nil] at hx
          exact (Option.some.inj hx).symm
        · left
          rw [reach_cons] at hx
          cases hc : child t i with
          | none =>
              rw [hc] at hx
              cases hx
          | some c =>
              rw [hc, Option.bind_some] at hx
              rw [List.length_cons] at hlen
              refine ⟨i, hidx i, ?_⟩
              rw [hc]
              exact ih.mpr ⟨is, by omega, hx⟩

/-- Paths that lead to different places make a list without repetition. -/
theorem nodup_nodes (hidx : ∀ i, i ∈ idx) (hnd : idx.Nodup)
    (hinj : ∀ is js x, is.length ≤ n → js.length ≤ n → reach child t is = some x →
      reach child t js = some x → is = js) : (nodes idx child n t).Nodup := by
  induction n generalizing t with
  | zero => exact List.nodup_singleton t
  | succ n ih =>
      have hbelow : ∀ {i c is y}, child t i = some c → is.length ≤ n → reach child c is = some y →
          (i :: is).length ≤ n + 1 ∧ reach child t (i :: is) = some y := by
        intro i c is y hc hlen hy
        refine ⟨?_, ?_⟩
        · rw [List.length_cons]
          omega
        · rw [reach_cons, hc, Option.bind_some, hy]
      rw [nodes, List.nodup_append]
      refine ⟨List.nodup_flatMap.mpr ⟨fun i _ => ?_, ?_⟩, List.nodup_singleton t, ?_⟩
      · cases hc : child t i with
        | none => exact List.nodup_nil
        | some c =>
            refine ih fun is js y hi hj hyi hyj => ?_
            obtain ⟨hi', hyi'⟩ := hbelow hc hi hyi
            obtain ⟨hj', hyj'⟩ := hbelow hc hj hyj
            exact (List.cons.inj (hinj _ _ y hi' hj' hyi' hyj')).2
      · -- what two entries lead to is different
        refine hnd.imp fun {i j} hij => ?_
        intro y hyi hyj
        change y ∈ (child t i).elim [] _ at hyi
        change y ∈ (child t j).elim [] _ at hyj
        cases hci : child t i with
        | none =>
            rw [hci] at hyi
            cases hyi
        | some c =>
            cases hcj : child t j with
            | none =>
                rw [hcj] at hyj
                cases hyj
            | some d =>
                rw [hci] at hyi
                rw [hcj] at hyj
                obtain ⟨is, hi, his⟩ := (mem_nodes hidx).mp hyi
                obtain ⟨js, hj, hjs⟩ := (mem_nodes hidx).mp hyj
                obtain ⟨hi', his'⟩ := hbelow hci hi his
                obtain ⟨hj', hjs'⟩ := hbelow hcj hj hjs
                exact hij (List.cons.inj (hinj _ _ y hi' hj' his' hjs')).1
      · intro y hy z hz
        rw [List.mem_singleton.mp hz]
        rintro rfl
        obtain ⟨i, -, hy⟩ := List.mem_flatMap.mp hy
        cases hc : child y i with
        | none =>
            rw [hc] at hy
            cases hy
        | some c =>
            rw [hc] at hy
            obtain ⟨is, hi, his⟩ := (mem_nodes hidx).mp hy
            obtain ⟨hi', his'⟩ := hbelow hc hi his
            have := hinj (i :: is) [] y hi' (Nat.zero_le _) his' rfl
            cases this

theorem nodes_congr (hsame : ∀ x ∈ nodes idx child n t, child' x = child x) :
    nodes idx child' n t = nodes idx child n t := by
  induction n generalizing t with
  | zero => rfl
  | succ n ih =>
      rw [nodes, nodes]
      congr 1
      have ht : child' t = child t := hsame t self_mem_nodes
      rw [ht]
      apply List.flatMap_congr
      intro i hi
      cases hc : child t i with
      | none => rfl
      | some c =>
          apply ih
          intro x hx
          apply hsame
          rw [nodes]
          refine List.mem_append_left _ (List.mem_flatMap.mpr ⟨i, hi, ?_⟩)
          rw [hc]
          exact hx

end Nodes

end Pintos.Radix
