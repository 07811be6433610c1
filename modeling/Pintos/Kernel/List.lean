/-
`lib/kernel/list.c`: doubly linked lists.

Memory is read and written in words of eight bytes; a word is named by its address. An
element is a `prev` pointer with a `next` pointer behind it, and a list is a head element
with a tail element behind it. The null pointer is 0, and a store through it faults.

Loops carry fuel. A loop that follows the links of a list ends within the length of the list.
-/
import Pintos.Lib.NaturalMerge
import Pintos.Lib.Outcome
import Mathlib.Data.List.Chain

set_option autoImplicit false

namespace Pintos.klib

/-- Words of memory, by address. -/
abbrev words := ℕ → ℕ

/-! ## Elements -/

/-- `elem->prev`. -/
def prev (m : words) (elem : ℕ) : ℕ := m elem

/-- `elem->next`. -/
def next (m : words) (elem : ℕ) : ℕ := m (elem + 8)

/-- `elem->prev = p`. -/
def set_prev (m : words) (elem p : ℕ) : Outcome words :=
  if elem = 0 then .panic else .ok (Function.update m elem p)

/-- `elem->next = p`. -/
def set_next (m : words) (elem p : ℕ) : Outcome words :=
  if elem = 0 then .panic else .ok (Function.update m (elem + 8) p)

/-- `is_head`. -/
def is_head (m : words) (elem : ℕ) : Prop := elem ≠ 0 ∧ prev m elem = 0 ∧ next m elem ≠ 0

/-- `is_interior`. -/
def is_interior (m : words) (elem : ℕ) : Prop := elem ≠ 0 ∧ prev m elem ≠ 0 ∧ next m elem ≠ 0

/-- `is_tail`. -/
def is_tail (m : words) (elem : ℕ) : Prop := elem ≠ 0 ∧ prev m elem ≠ 0 ∧ next m elem = 0

instance (m : words) (elem : ℕ) : Decidable (is_head m elem) :=
  inferInstanceAs (Decidable (_ ∧ _))

instance (m : words) (elem : ℕ) : Decidable (is_interior m elem) :=
  inferInstanceAs (Decidable (_ ∧ _))

instance (m : words) (elem : ℕ) : Decidable (is_tail m elem) :=
  inferInstanceAs (Decidable (_ ∧ _))

/-- `list_next`. -/
def list_next (m : words) (elem : ℕ) : Outcome ℕ := do
  Outcome.assert (is_head m elem ∨ is_interior m elem)
  return next m elem

/-- `list_prev`. -/
def list_prev (m : words) (elem : ℕ) : Outcome ℕ := do
  Outcome.assert (is_interior m elem ∨ is_tail m elem)
  return prev m elem

/-! ## Lists -/

/-- `&list->tail`. -/
def tail (list : ℕ) : ℕ := list + 16

/-- `list_init`. -/
def list_init (m : words) (list : ℕ) : Outcome words := do
  Outcome.assert (list ≠ 0)
  let m ← set_prev m list 0
  let m ← set_next m list (tail list)
  let m ← set_prev m (tail list) list
  set_next m (tail list) 0

/-- `list_begin`. -/
def list_begin (m : words) (list : ℕ) : Outcome ℕ := do
  Outcome.assert (list ≠ 0)
  return next m list

/-- `list_end`. -/
def list_end (list : ℕ) : Outcome ℕ := do
  Outcome.assert (list ≠ 0)
  return tail list

/-- `list_insert`. -/
def list_insert (m : words) (before elem : ℕ) : Outcome words := do
  Outcome.assert (is_interior m before ∨ is_tail m before)
  Outcome.assert (elem ≠ 0)
  let m ← set_prev m elem (prev m before)
  let m ← set_next m elem before
  let m ← set_next m (prev m before) elem
  set_prev m before elem

/-- `list_splice`. -/
def list_splice (m : words) (before first last : ℕ) : Outcome words := do
  Outcome.assert (is_interior m before ∨ is_tail m before)
  if first = last then return m
  else do
    let last ← list_prev m last
    Outcome.assert (is_interior m first)
    Outcome.assert (is_interior m last)
    -- out of the one list
    let m ← set_next m (prev m first) (next m last)
    let m ← set_prev m (next m last) (prev m first)
    -- into the other
    let m ← set_prev m first (prev m before)
    let m ← set_next m last before
    let m ← set_next m (prev m before) first
    set_prev m before last

/-- `list_push_front`. -/
def list_push_front (m : words) (list elem : ℕ) : Outcome words := do
  let before ← list_begin m list
  list_insert m before elem

/-- `list_push_back`. -/
def list_push_back (m : words) (list elem : ℕ) : Outcome words := do
  let before ← list_end list
  list_insert m before elem

/-- `list_remove`: memory afterwards, and the element that followed. -/
def list_remove (m : words) (elem : ℕ) : Outcome (words × ℕ) := do
  Outcome.assert (is_interior m elem)
  let m ← set_next m (prev m elem) (next m elem)
  let m ← set_prev m (next m elem) (prev m elem)
  return (m, next m elem)

/-- `list_empty`. -/
def list_empty (m : words) (list : ℕ) : Outcome Bool := do
  let first ← list_begin m list
  let last ← list_end list
  return decide (first = last)

/-- `list_front`. -/
def list_front (m : words) (list : ℕ) : Outcome ℕ := do
  let empty ← list_empty m list
  Outcome.assert (empty = false)
  return next m list

/-- `list_pop_front`. -/
def list_pop_front (m : words) (list : ℕ) : Outcome (words × ℕ) := do
  let front ← list_front m list
  let (m, _) ← list_remove m front
  return (m, front)

/-! ## What a list is -/

/-- `a` and `b` are neighbours. -/
structure Linked (m : words) (a b : ℕ) : Prop where
  next : next m a = b
  prev : prev m b = a

/-- The elements of a list, head and tail included. -/
def nodes (list : ℕ) (l : List ℕ) : List ℕ := list :: (l ++ [tail list])

/-- Elements lie apart from each other, and none at the null pointer. -/
structure Placed (ns : List ℕ) : Prop where
  nodup : ns.Nodup
  nonzero : 0 ∉ ns
  apart : ∀ a ∈ ns, ∀ b ∈ ns, a + 8 ≠ b

/-- The list links the elements of `l` in order. -/
structure IsList (m : words) (list : ℕ) (l : List ℕ) : Prop where
  chain : (nodes list l).IsChain (Linked m)
  head_prev : prev m list = 0
  tail_next : next m (tail list) = 0
  placed : Placed (nodes list l)

/-- Only the links of these elements have changed. -/
def SameElse (ns : List ℕ) (m m' : words) : Prop :=
  ∀ w, (∀ a ∈ ns, w ≠ a ∧ w ≠ a + 8) → m' w = m w

/-- The place in front of the elements of `l`. -/
def cursor (list : ℕ) (l : List ℕ) : ℕ := l.headD (tail list)

/-! ## Stores -/

section Stores

variable {m m' m'' : words} {a b p : ℕ} {ns ns' : List ℕ}

theorem set_prev_eq (h : a ≠ 0) : set_prev m a p = .ok (Function.update m a p) := if_neg h

theorem set_next_eq (h : a ≠ 0) : set_next m a p = .ok (Function.update m (a + 8) p) := if_neg h

@[simp] theorem prev_update_prev : prev (Function.update m a p) b = if b = a then p else prev m b :=
  Function.update_apply m a p b

@[simp] theorem next_update_next :
    next (Function.update m (a + 8) p) b = if b = a then p else next m b := by
  unfold next
  rw [Function.update_apply]
  simp

theorem next_update_prev (h : b + 8 ≠ a) : next (Function.update m a p) b = next m b := by
  unfold next
  rw [Function.update_of_ne h]

theorem prev_update_next (h : a + 8 ≠ b) : prev (Function.update m (a + 8) p) b = prev m b := by
  unfold prev
  rw [Function.update_of_ne h.symm]

theorem SameElse.refl (ns : List ℕ) (m : words) : SameElse ns m m := fun _ _ => rfl

theorem SameElse.trans (h : SameElse ns m m') (h' : SameElse ns m' m'') : SameElse ns m m'' :=
  fun w hw => (h' w hw).trans (h w hw)

theorem SameElse.mono (h : SameElse ns m m') (hsub : ns ⊆ ns') : SameElse ns' m m' :=
  fun w hw => h w fun a ha => hw a (hsub ha)

theorem SameElse.set_prev (ha : a ∈ ns) : SameElse ns m (Function.update m a p) :=
  fun _ hw => Function.update_of_ne (hw a ha).1 p m

theorem SameElse.set_next (ha : a ∈ ns) : SameElse ns m (Function.update m (a + 8) p) :=
  fun _ hw => Function.update_of_ne (hw a ha).2 p m

theorem Placed.perm (h : Placed ns) (hp : ns.Perm ns') : Placed ns' where
  nodup := hp.nodup_iff.mp h.nodup
  nonzero h0 := h.nonzero (hp.mem_iff.mpr h0)
  apart a ha b hb := h.apart a (hp.mem_iff.mpr ha) b (hp.mem_iff.mpr hb)

theorem Placed.sublist (h : Placed ns') (hs : ns.Sublist ns') : Placed ns where
  nodup := h.nodup.sublist hs
  nonzero h0 := h.nonzero (hs.subset h0)
  apart a ha b hb := h.apart a (hs.subset ha) b (hs.subset hb)

theorem Placed.ne_zero (h : Placed ns) (ha : a ∈ ns) : a ≠ 0 := by
  rintro rfl
  exact h.nonzero ha

/-- A chain reads the `next` of all but its last element, and the `prev` of all but its first. -/
theorem chain_congr (h : ns.IsChain (Linked m)) (hnext : ∀ a ∈ ns.dropLast, next m' a = next m a)
    (hprev : ∀ b ∈ ns.tail, prev m' b = prev m b) : ns.IsChain (Linked m') := by
  induction ns with
  | nil => exact .nil
  | cons a ns ih =>
      cases ns with
      | nil => exact .singleton a
      | cons b ns =>
          obtain ⟨hab, hrest⟩ := List.isChain_cons_cons.mp h
          refine List.isChain_cons_cons.mpr ⟨⟨?_, ?_⟩, ih hrest (fun c hc => ?_) fun c hc => ?_⟩
          · rw [hnext a (List.mem_cons_self ..)]
            exact hab.next
          · rw [hprev b (List.mem_cons_self ..)]
            exact hab.prev
          · exact hnext c (List.mem_cons_of_mem _ hc)
          · exact hprev c (List.mem_cons_of_mem _ hc)

section Cut

variable {as rest : List ℕ} {c x : ℕ}

theorem mem_cut_left (hx : x ∈ as ++ [p]) : x ∈ as ++ p :: c :: rest := by
  rw [List.append_cons]
  exact List.mem_append_left _ hx

theorem mem_cut_right (hx : x ∈ c :: rest) : x ∈ as ++ p :: c :: rest := by
  rw [List.append_cons]
  exact List.mem_append_right _ hx

theorem ne_of_cut (hnd : (as ++ p :: c :: rest).Nodup) {y : ℕ} (hx : x ∈ as ++ [p])
    (hy : y ∈ c :: rest) : x ≠ y := by
  rw [List.append_cons] at hnd
  exact (List.nodup_append.mp hnd).2.2 x hx y hy

/-- Two stretches of a list that is cut between `p` and `c` stay as they are. -/
theorem chain_cut (hnd : (as ++ p :: c :: rest).Nodup) (h₁ : (as ++ [p]).IsChain (Linked m))
    (h₂ : (c :: rest).IsChain (Linked m))
    (hnext : ∀ x ∈ as ++ p :: c :: rest, x ≠ p → next m' x = next m x)
    (hprev : ∀ x ∈ as ++ p :: c :: rest, x ≠ c → prev m' x = prev m x) :
    (as ++ [p]).IsChain (Linked m') ∧ (c :: rest).IsChain (Linked m') := by
  have hnd₁ : (as ++ [p]).Nodup := by
    rw [List.append_cons] at hnd
    exact (List.nodup_append.mp hnd).1
  constructor
  · apply chain_congr h₁
    · intro x hx
      rw [List.dropLast_concat] at hx
      refine hnext x (List.mem_append_left _ hx) ?_
      exact (List.nodup_append.mp hnd₁).2.2 x hx p (List.mem_singleton_self p)
    · intro x hx
      have hx := List.mem_of_mem_tail hx
      exact hprev x (mem_cut_left hx) (ne_of_cut hnd hx (List.mem_cons_self ..))
  · apply chain_congr h₂
    · intro x hx
      have hx := (List.dropLast_sublist _).subset hx
      refine hnext x (mem_cut_right hx) (ne_of_cut hnd ?_ hx).symm
      exact List.mem_append_right _ (List.mem_singleton_self p)
    · intro x hx
      refine hprev x (mem_cut_right (List.mem_cons_of_mem _ hx)) ?_
      rintro rfl
      rw [List.append_cons] at hnd
      exact (List.nodup_cons.mp (List.nodup_append.mp hnd).2.1).1 hx

end Cut

end Stores

/-! ## Walking -/

namespace IsList

variable {m m' : words} {list a : ℕ} {l l₁ l₂ : List ℕ}

theorem nodes_append (list : ℕ) (l₁ l₂ : List ℕ) :
    ∃ rest, nodes list (l₁ ++ l₂) = (list :: l₁) ++ cursor list l₂ :: rest := by
  cases l₂ with
  | nil => exact ⟨[], by simp [nodes, cursor]⟩
  | cons b l₂ => exact ⟨l₂ ++ [tail list], by simp [nodes, cursor]⟩

theorem cursor_mem (list : ℕ) (l₁ l₂ : List ℕ) : cursor list l₂ ∈ nodes list (l₁ ++ l₂) := by
  obtain ⟨rest, hn⟩ := nodes_append list l₁ l₂
  rw [hn]
  simp

theorem mem_nodes (ha : a ∈ l) : a ∈ nodes list l :=
  List.mem_cons_of_mem _ (List.mem_append_left _ ha)

theorem head_ne_zero (h : IsList m list l) : list ≠ 0 := h.placed.ne_zero (List.mem_cons_self ..)

/-- No element is on a list twice. -/
theorem nodup (h : IsList m list l) : l.Nodup :=
  (List.nodup_append.mp (List.nodup_cons.mp h.placed.nodup).2).1

/-- The place in front of `l₂` and the one behind `l₁` are neighbours. -/
theorem linked_cursor (h : IsList m list (l₁ ++ l₂)) :
    Linked m ((list :: l₁).getLast (List.cons_ne_nil _ _)) (cursor list l₂) := by
  obtain ⟨rest, hn⟩ := nodes_append list l₁ l₂
  have hchain := h.chain
  rw [hn] at hchain
  exact hchain.rel_getLast_head_of_append (List.cons_ne_nil _ _) (List.cons_ne_nil _ _)

theorem linked_next (h : IsList m list (l₁ ++ a :: l₂)) : Linked m a (cursor list l₂) := by
  rw [List.append_cons] at h
  have hlinked := h.linked_cursor
  rwa [List.getLast_cons (by simp), List.getLast_append_singleton] at hlinked

/-- An element of the list has others on both sides. -/
theorem interior (h : IsList m list (l₁ ++ a :: l₂)) : is_interior m a := by
  have hbefore := h.linked_cursor.prev
  have hbehind := h.linked_next.next
  refine ⟨h.placed.ne_zero (cursor_mem list l₁ (a :: l₂)), ?_, ?_⟩
  · show prev m (cursor list (a :: l₂)) ≠ 0
    rw [hbefore]
    apply h.placed.ne_zero
    have hmem := List.getLast_mem (List.cons_ne_nil list l₁)
    rcases List.mem_cons.mp hmem with heq | hin
    · rw [heq]
      exact List.mem_cons_self ..
    · exact mem_nodes (List.mem_append_left _ hin)
  · rw [hbehind]
    apply h.placed.ne_zero
    rw [List.append_cons]
    exact cursor_mem list (l₁ ++ [a]) l₂

/-- In front of a cursor there is room. -/
theorem cursor_ok (h : IsList m list (l₁ ++ l₂)) :
    is_interior m (cursor list l₂) ∨ is_tail m (cursor list l₂) := by
  cases l₂ with
  | cons a l₂ => exact .inl h.interior
  | nil =>
      refine .inr ⟨h.placed.ne_zero (cursor_mem list l₁ []), ?_, h.tail_next⟩
      rw [h.linked_cursor.prev]
      apply h.placed.ne_zero
      rw [List.append_nil]
      rcases List.mem_cons.mp (List.getLast_mem (List.cons_ne_nil list l₁)) with heq | hin
      · rw [heq]
        exact List.mem_cons_self ..
      · exact mem_nodes hin

/-- **`list_next`** from an element. -/
theorem list_next_eq (h : IsList m list (l₁ ++ a :: l₂)) :
    list_next m a = .ok (cursor list l₂) := by
  unfold list_next
  rw [Outcome.assert_pos (.inr h.interior), Outcome.ok_bind, h.linked_next.next]
  rfl

/-- **`list_prev`** from the place behind an element. -/
theorem list_prev_eq (h : IsList m list (l₁ ++ a :: l₂)) :
    list_prev m (cursor list l₂) = .ok a := by
  have hlinked := h.linked_next
  rw [List.append_cons] at h
  unfold list_prev
  rw [Outcome.assert_pos h.cursor_ok, Outcome.ok_bind, hlinked.prev]
  rfl

theorem list_begin_eq (h : IsList m list l) : list_begin m list = .ok (cursor list l) := by
  have hlinked : Linked m list (cursor list l) := 
    linked_cursor (show IsList m list ([] ++ l) from h)
  unfold list_begin
  rw [Outcome.assert_pos h.head_ne_zero, Outcome.ok_bind, hlinked.next]
  rfl

theorem list_end_eq (h : IsList m list l) : list_end list = .ok (tail list) := by
  unfold list_end
  rw [Outcome.assert_pos h.head_ne_zero]
  rfl

/-- A list around a cursor: the place in front, the cursor, and what lies beyond. -/
theorem around (list : ℕ) (l₁ l₂ : List ℕ) : ∃ as p rest, list :: l₁ = as ++ [p]
    ∧ (list :: l₁).getLast (List.cons_ne_nil _ _) = p
    ∧ l₂ ++ [tail list] = cursor list l₂ :: rest
    ∧ nodes list (l₁ ++ l₂) = as ++ p :: cursor list l₂ :: rest := by
  obtain ⟨rest, hn⟩ := nodes_append list l₁ l₂
  obtain ⟨as, p, hp⟩ : ∃ as p, list :: l₁ = as ++ [p] :=
    ⟨_, _, (List.dropLast_append_getLast (List.cons_ne_nil list l₁)).symm⟩
  have hsplit : nodes list (l₁ ++ l₂) = (list :: l₁) ++ (l₂ ++ [tail list]) := by simp [nodes]
  refine ⟨as, p, rest, hp, ?_, List.append_cancel_left (hsplit.symm.trans hn), ?_⟩
  · simp only [hp, List.getLast_append_singleton]
  · rw [hn, hp, List.append_assoc, List.singleton_append]

theorem nodes_perm (list : ℕ) (h : l₁.Perm l₂) : (nodes list l₁).Perm (nodes list l₂) :=
  (h.append_right _).cons _

theorem nodes_cons_perm (list a : ℕ) (l : List ℕ) :
    (nodes list (a :: l)).Perm (a :: nodes list l) :=
  .swap _ _ _

/-- **`list_insert`** in front of a cursor. -/
theorem insert (h : IsList m list (l₁ ++ l₂)) (ha : Placed (a :: nodes list (l₁ ++ l₂))) :
    ∃ m', list_insert m (cursor list l₂) a = .ok m' ∧ IsList m' list (l₁ ++ a :: l₂)
      ∧ SameElse (a :: nodes list (l₁ ++ l₂)) m m' := by
  obtain ⟨as, p, rest, hp, hlast, hrest, hn⟩ := around list l₁ l₂
  have hpc := h.linked_cursor
  have hok := h.cursor_ok
  have hchain := h.chain
  have hhead : list ∈ as ++ [p] := hp ▸ List.mem_cons_self ..
  have htail : tail list ∈ cursor list l₂ :: rest := hrest ▸ by simp
  have hnew : nodes list (l₁ ++ a :: l₂) = as ++ p :: a :: cursor list l₂ :: rest := by
    have hsplit : nodes list (l₁ ++ a :: l₂) = (list :: l₁) ++ a :: (l₂ ++ [tail list]) := by
      simp [nodes]
    rw [hsplit, hp, hrest, List.append_assoc, List.singleton_append]
  rw [hlast] at hpc
  generalize cursor list l₂ = c at *
  rw [hn] at ha hchain ⊢
  obtain ⟨hnot, hnd⟩ := List.nodup_cons.mp ha.nodup
  have hpmem : p ∈ a :: (as ++ p :: c :: rest) := by simp
  have hcmem : c ∈ a :: (as ++ p :: c :: rest) := by simp
  have hamem : a ∈ a :: (as ++ p :: c :: rest) := List.mem_cons_self ..
  have hac : a ≠ c := fun heq => hnot (heq ▸ by simp)
  have hap : a ≠ p := fun heq => hnot (heq ▸ by simp)
  -- the four stores
  let m₁ := Function.update m a p
  let m₂ := Function.update m₁ (a + 8) c
  let m₃ := Function.update m₂ (p + 8) a
  let m₄ := Function.update m₃ c a
  have hnext : ∀ x ∈ a :: (as ++ p :: c :: rest),
      next m₄ x = if x = p then a else if x = a then c else next m x := by
    intro x hx
    rw [next_update_prev (ha.apart x hx c hcmem), next_update_next, next_update_next,
      next_update_prev (ha.apart x hx a hamem)]
  have hprev₂ : ∀ x ∈ a :: (as ++ p :: c :: rest), prev m₂ x = if x = a then p else prev m x := by
    intro x hx
    rw [prev_update_next (ha.apart a hamem x hx), prev_update_prev]
  have hprev : ∀ x ∈ a :: (as ++ p :: c :: rest),
      prev m₄ x = if x = c then a else if x = a then p else prev m x := by
    intro x hx
    rw [prev_update_prev, prev_update_next (ha.apart p hpmem x hx), hprev₂ x hx]
  have hrun : list_insert m c a = .ok m₄ := by
    unfold list_insert
    rw [Outcome.assert_pos hok, Outcome.ok_bind, Outcome.assert_pos (ha.ne_zero hamem),
      Outcome.ok_bind, set_prev_eq (ha.ne_zero hamem), Outcome.ok_bind, hpc.prev,
      set_next_eq (ha.ne_zero hamem), Outcome.ok_bind, hprev₂ c hcmem, if_neg hac.symm, hpc.prev,
      set_next_eq (ha.ne_zero hpmem), Outcome.ok_bind, set_prev_eq (ha.ne_zero hcmem)]
  refine ⟨m₄, hrun, ⟨?_, ?_, ?_, ?_⟩, ?_⟩
  · rw [hnew]
    obtain ⟨h₁, -, h₂⟩ := List.isChain_append_cons_cons.mp hchain
    have hne : ∀ x ∈ as ++ p :: c :: rest, x ≠ a := fun x hx heq => hnot (heq ▸ hx)
    obtain ⟨h₁, h₂⟩ := chain_cut hnd h₁ h₂
      (fun x hx hxp => by rw [hnext x (List.mem_cons_of_mem _ hx), if_neg hxp, if_neg (hne x hx)])
      (fun x hx hxc => by rw [hprev x (List.mem_cons_of_mem _ hx), if_neg hxc, if_neg (hne x hx)])
    refine List.isChain_append_cons_cons.mpr ⟨h₁, ⟨?_, ?_⟩,
      List.isChain_cons_cons.mpr ⟨⟨?_, ?_⟩, h₂⟩⟩
    · rw [hnext p hpmem, if_pos rfl]
    · rw [hprev a hamem, if_neg hac, if_pos rfl]
    · rw [hnext a hamem, if_neg hap, if_pos rfl]
    · rw [hprev c hcmem, if_pos rfl]
  · rw [hprev list (List.mem_cons_of_mem _ (mem_cut_left hhead)),
      if_neg (ne_of_cut hnd hhead (List.mem_cons_self ..)), if_neg, h.head_prev]
    exact fun heq => hnot (heq ▸ mem_cut_left hhead)
  · rw [hnext _ (List.mem_cons_of_mem _ (mem_cut_right htail)),
      if_neg (ne_of_cut hnd (by simp) htail).symm, if_neg, h.tail_next]
    exact fun heq => hnot (heq ▸ mem_cut_right htail)
  · rw [hnew]
    apply ha.perm
    have hmiddle : (as ++ [p] ++ a :: (c :: rest)).Perm (a :: (as ++ [p] ++ c :: rest)) :=
      List.perm_middle
    simpa using hmiddle.symm
  · exact ((SameElse.set_prev hamem).trans (.set_next hamem)).trans
      ((SameElse.set_next hpmem).trans (.set_prev hcmem))

/-- **`list_remove`.** -/
theorem remove (h : IsList m list (l₁ ++ a :: l₂)) :
    ∃ m', list_remove m a = .ok (m', cursor list l₂) ∧ IsList m' list (l₁ ++ l₂)
      ∧ SameElse (nodes list (l₁ ++ l₂)) m m' := by
  obtain ⟨as, p, rest, hp, hlast, hrest, hn⟩ := around list l₁ l₂
  have hpa := h.linked_cursor
  have hac := h.linked_next
  have hin := h.interior
  have hhead : list ∈ as ++ [p] := hp ▸ List.mem_cons_self ..
  have htail : tail list ∈ cursor list l₂ :: rest := hrest ▸ by simp
  have hold : nodes list (l₁ ++ a :: l₂) = as ++ p :: a :: cursor list l₂ :: rest := by
    have hsplit : nodes list (l₁ ++ a :: l₂) = (list :: l₁) ++ a :: (l₂ ++ [tail list]) := by
      simp [nodes]
    rw [hsplit, hp, hrest, List.append_assoc, List.singleton_append]
  rw [hlast] at hpa
  have hpa : Linked m p a := hpa
  have hplaced := h.placed
  have hchain := h.chain
  rw [hold] at hplaced hchain
  generalize cursor list l₂ = c at *
  rw [hn]
  have hamem : a ∈ as ++ p :: a :: c :: rest := by simp
  have hpmem : p ∈ as ++ p :: a :: c :: rest := by simp
  have hcmem : c ∈ as ++ p :: a :: c :: rest := by simp
  have hsub : (as ++ p :: c :: rest).Sublist (as ++ p :: a :: c :: rest) :=
    (((List.Sublist.refl _).cons a).cons_cons p).append_left as
  have hnd := hplaced.nodup.sublist hsub
  have hap : a ≠ p := (ne_of_cut hplaced.nodup (by simp) (List.mem_cons_self ..)).symm
  -- the two stores
  let m₁ := Function.update m (p + 8) c
  let m₂ := Function.update m₁ c p
  have hnext : ∀ x ∈ as ++ p :: a :: c :: rest, next m₂ x = if x = p then c else next m x := by
    intro x hx
    rw [next_update_prev (hplaced.apart x hx c hcmem), next_update_next]
  have hprev : ∀ x ∈ as ++ p :: a :: c :: rest, prev m₂ x = if x = c then p else prev m x := by
    intro x hx
    rw [prev_update_prev, prev_update_next (hplaced.apart p hpmem x hx)]
  have hrun : list_remove m a = .ok (m₂, c) := by
    unfold list_remove
    rw [Outcome.assert_pos hin, Outcome.ok_bind, hpa.prev, hac.next,
      set_next_eq (hplaced.ne_zero hpmem), Outcome.ok_bind, next_update_next, if_neg hap, hac.next,
      prev_update_next (hplaced.apart p hpmem a hamem), hpa.prev,
      set_prev_eq (hplaced.ne_zero hcmem), Outcome.ok_bind, hnext a hamem, if_neg hap, hac.next]
    rfl
  refine ⟨m₂, hrun, ⟨?_, ?_, ?_, ?_⟩, ?_⟩
  · rw [hn]
    obtain ⟨h₁, -, h₂⟩ := List.isChain_append_cons_cons.mp hchain
    obtain ⟨h₁, h₂⟩ := chain_cut hnd h₁ (List.isChain_cons_cons.mp h₂).2
      (fun x hx hxp => by rw [hnext x (hsub.subset hx), if_neg hxp])
      (fun x hx hxc => by rw [hprev x (hsub.subset hx), if_neg hxc])
    refine List.isChain_append_cons_cons.mpr ⟨h₁, ⟨?_, ?_⟩, h₂⟩
    · rw [hnext p hpmem, if_pos rfl]
    · rw [hprev c hcmem, if_pos rfl]
  · rw [hprev list (hsub.subset (mem_cut_left hhead)),
      if_neg (ne_of_cut hnd hhead (List.mem_cons_self ..)), h.head_prev]
  · rw [hnext _ (hsub.subset (mem_cut_right htail)), if_neg (ne_of_cut hnd (by simp) htail).symm,
      h.tail_next]
  · rw [hn]
    exact hplaced.sublist hsub
  · exact (SameElse.set_next (by simp)).trans (.set_prev (by simp))

/-- **`list_push_front`.** -/
theorem push_front (h : IsList m list l) (ha : Placed (a :: nodes list l)) :
    ∃ m', list_push_front m list a = .ok m' ∧ IsList m' list (a :: l)
      ∧ SameElse (a :: nodes list l) m m' := by
  obtain ⟨m', hrun, hlist, hsame⟩ := insert (show IsList m list ([] ++ l) from h) ha
  refine ⟨m', ?_, hlist, hsame⟩
  unfold list_push_front
  rw [h.list_begin_eq]
  exact hrun

/-- **`list_push_back`.** -/
theorem push_back (h : IsList m list l) (ha : Placed (a :: nodes list l)) :
    ∃ m', list_push_back m list a = .ok m' ∧ IsList m' list (l ++ [a])
      ∧ SameElse (a :: nodes list l) m m' := by
  have hl : l ++ [] = l := List.append_nil l
  obtain ⟨m', hrun, hlist, hsame⟩ := 
    insert (show IsList m list (l ++ []) from hl.symm ▸ h) (hl.symm ▸ ha)
  rw [hl] at hsame
  refine ⟨m', ?_, hlist, hsame⟩
  unfold list_push_back
  rw [h.list_end_eq]
  exact hrun

theorem ne_tail (h : IsList m list l) (ha : a ∈ l) : a ≠ tail list := by
  have hnd := (List.nodup_cons.mp h.placed.nodup).2
  exact (List.nodup_append.mp hnd).2.2 a ha _ (List.mem_singleton_self _)

/-- **`list_empty`.** -/
theorem list_empty_eq (h : IsList m list l) : list_empty m list = .ok (decide (l = [])) := by
  unfold list_empty
  rw [h.list_begin_eq, h.list_end_eq]
  simp only [Outcome.ok_bind, Outcome.pure_eq]
  cases l with
  | nil => simp [cursor]
  | cons a l => simp [cursor, h.ne_tail (List.mem_cons_self ..)]

/-- **`list_pop_front`.** -/
theorem pop_front (h : IsList m list (a :: l)) :
    ∃ m', list_pop_front m list = .ok (m', a) ∧ IsList m' list l
      ∧ SameElse (nodes list l) m m' := by
  obtain ⟨m', hrun, hlist, hsame⟩ := remove (show IsList m list ([] ++ a :: l) from h)
  have hlinked : Linked m list a := linked_cursor (show IsList m list ([] ++ a :: l) from h)
  have hfront : next m list = a := hlinked.next
  refine ⟨m', ?_, hlist, hsame⟩
  unfold list_pop_front list_front
  rw [h.list_empty_eq]
  have hempty : decide (a :: l = []) = false := decide_eq_false (List.cons_ne_nil a l)
  rw [Outcome.ok_bind, Outcome.assert_pos hempty, Outcome.ok_bind, hfront, Outcome.pure_eq,
    Outcome.ok_bind, hrun]
  rfl

/-- What other memory holds does not matter. -/
theorem congr (h : IsList m list l) (hprev : ∀ a ∈ nodes list l, prev m' a = prev m a)
    (hnext : ∀ a ∈ nodes list l, next m' a = next m a) : IsList m' list l where
  chain := chain_congr h.chain (fun a ha => hnext a ((List.dropLast_sublist _).subset ha))
    fun a ha => hprev a (List.mem_of_mem_tail ha)
  head_prev := (hprev list (List.mem_cons_self ..)).trans h.head_prev
  tail_next := (hnext (klib.tail list) (by simp [nodes])).trans h.tail_next
  placed := h.placed

end IsList

theorem placed_nil {list : ℕ} (hlist : list ≠ 0) : Placed (nodes list []) := by
  have htail : tail list = list + 16 := rfl
  constructor
  · simp only [nodes, List.nil_append, List.nodup_cons, List.mem_singleton, List.not_mem_nil,
      not_false_eq_true, List.nodup_nil, and_true]
    omega
  · simp only [nodes, List.nil_append, List.mem_cons, List.not_mem_nil, or_false]
    omega
  · simp only [nodes, List.nil_append, List.mem_cons, List.not_mem_nil, or_false]
    rintro a (rfl | rfl) b (rfl | rfl) <;> omega

/-- **`list_init`.** -/
theorem list_init_eq {list : ℕ} (m : words) (hlist : list ≠ 0) :
    ∃ m', list_init m list = .ok m' ∧ IsList m' list [] ∧ SameElse (nodes list []) m m' := by
  have hplaced := placed_nil hlist
  have hhead : list ∈ nodes list [] := List.mem_cons_self ..
  have htail : tail list ∈ nodes list [] := by simp [nodes]
  have hne : list ≠ tail list := by
    unfold tail
    omega
  let m₁ := Function.update m list 0
  let m₂ := Function.update m₁ (list + 8) (tail list)
  let m₃ := Function.update m₂ (tail list) list
  let m₄ := Function.update m₃ (tail list + 8) 0
  have hrun : list_init m list = .ok m₄ := by
    unfold list_init
    rw [Outcome.assert_pos hlist, Outcome.ok_bind, set_prev_eq hlist, Outcome.ok_bind,
      set_next_eq hlist, Outcome.ok_bind, set_prev_eq (hplaced.ne_zero htail), Outcome.ok_bind,
      set_next_eq (hplaced.ne_zero htail)]
  refine ⟨m₄, hrun, ⟨List.isChain_pair.mpr ⟨?_, ?_⟩, ?_, ?_, hplaced⟩, ?_⟩
  · rw [next_update_next, if_neg hne, next_update_prev (hplaced.apart _ hhead _ htail),
      next_update_next, if_pos rfl]
  · rw [prev_update_next (hplaced.apart _ htail _ htail), prev_update_prev, if_pos rfl]
  · rw [prev_update_next (hplaced.apart _ htail _ hhead), prev_update_prev, if_neg hne,
      prev_update_next (hplaced.apart _ hhead _ hhead), prev_update_prev, if_pos rfl]
  · rw [next_update_next, if_pos rfl]
  · exact ((SameElse.set_prev hhead).trans (.set_next hhead)).trans
      ((SameElse.set_prev htail).trans (.set_next htail))

end Pintos.klib
