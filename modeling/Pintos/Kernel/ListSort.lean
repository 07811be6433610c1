/-
`lib/kernel/list.c`: `list_sort` and `list_insert_ordered`.

The comparison is a relation between elements; it reads what they are embedded in, which
sorting does not touch. A pass over the list is a pass of the natural merge sort (`Pass`):
the cursors `a0`, `a1b0` and `b1` stand in front of two neighbouring runs and behind them,
and `inplace_merge` takes one element at a time out of the second run and puts it back in
front of `a0`.
-/
import Pintos.Kernel.List
import Mathlib.Order.Nat
import Pintos.Threads.Synch

set_option autoImplicit false

namespace Pintos.klib

section Model

variable (less : ℕ → ℕ → Prop) [DecidableRel less]

/-- The loop of `is_sorted`. -/
def is_sorted_loop (m : words) (b : ℕ) : ℕ → ℕ → Outcome Bool
  | 0, _ => .diverge
  | fuel + 1, a => do
    let a ← list_next m a
    if a = b then return true
    else
      let p ← list_prev m a
      if less a p then return false else is_sorted_loop m b fuel a

/-- `is_sorted`. -/
def is_sorted (fuel : ℕ) (m : words) (a b : ℕ) : Outcome Bool :=
  if a ≠ b then is_sorted_loop less m b fuel a else return true

/-- The loop of `find_end_of_run`. -/
def find_end_of_run_loop (m : words) (b : ℕ) : ℕ → ℕ → Outcome ℕ
  | 0, _ => .diverge
  | fuel + 1, a => do
    let a ← list_next m a
    if a = b then return a
    else
      let p ← list_prev m a
      if less a p then return a else find_end_of_run_loop m b fuel a

/-- `find_end_of_run`. -/
def find_end_of_run (fuel : ℕ) (m : words) (a b : ℕ) : Outcome ℕ := do
  Outcome.assert (a ≠ 0)
  Outcome.assert (b ≠ 0)
  Outcome.assert (a ≠ b)
  find_end_of_run_loop less m b fuel a

/-- The loop of `inplace_merge`. -/
def inplace_merge_loop (b1 : ℕ) : ℕ → words → ℕ → ℕ → Outcome words
  | 0, _, _, _ => .diverge
  | fuel + 1, m, a0, a1b0 =>
    if a0 ≠ a1b0 ∧ a1b0 ≠ b1 then
      if ¬ less a1b0 a0 then do
        let a0 ← list_next m a0
        inplace_merge_loop b1 fuel m a0 a1b0
      else do
        let a1b0 ← list_next m a1b0
        let p ← list_prev m a1b0
        let m ← list_splice m a0 p a1b0
        inplace_merge_loop b1 fuel m a0 a1b0
    else return m

/-- `inplace_merge`. -/
def inplace_merge (fuel : ℕ) (m : words) (a0 a1b0 b1 : ℕ) : Outcome words := do
  Outcome.assert (a0 ≠ 0)
  Outcome.assert (a1b0 ≠ 0)
  Outcome.assert (b1 ≠ 0)
  let sorted ← is_sorted less fuel m a0 a1b0
  Outcome.assert (sorted = true)
  let sorted ← is_sorted less fuel m a1b0 b1
  Outcome.assert (sorted = true)
  inplace_merge_loop less b1 fuel m a0 a1b0

/-- The inner loop of `list_sort`, whose loops have `n` turns each. Memory afterwards, and
`output_run_cnt`. -/
def sort_pass (n list : ℕ) : ℕ → words → ℕ → ℕ → Outcome (words × ℕ)
  | 0, _, _, _ => .diverge
  | fuel + 1, m, a0, output_run_cnt => do
    let last ← list_end list
    if a0 = last then return (m, output_run_cnt)
    else
      let output_run_cnt := output_run_cnt + 1
      let a1b0 ← find_end_of_run less n m a0 last
      if a1b0 = last then return (m, output_run_cnt)
      else
        let b1 ← find_end_of_run less n m a1b0 last
        let m ← inplace_merge less n m a0 a1b0 b1
        sort_pass n list fuel m b1 output_run_cnt

/-- The outer loop of `list_sort`. -/
def list_sort_loop (n list : ℕ) : ℕ → words → Outcome words
  | 0, _ => .diverge
  | fuel + 1, m => do
    let a0 ← list_begin m list
    let (m, output_run_cnt) ← sort_pass less n list n m a0 0
    if output_run_cnt > 1 then list_sort_loop n list fuel m else return m

/-- `list_sort`. -/
def list_sort (n : ℕ) (m : words) (list : ℕ) : Outcome words := do
  Outcome.assert (list ≠ 0)
  let m ← list_sort_loop less n list n m
  let a ← list_begin m list
  let b ← list_end list
  let sorted ← is_sorted less n m a b
  Outcome.assert (sorted = true)
  return m

/-- The loop of `list_insert_ordered`. -/
def insert_ordered_loop (m : words) (list elem : ℕ) : ℕ → ℕ → Outcome ℕ
  | 0, _ => .diverge
  | fuel + 1, e => do
    let last ← list_end list
    if e = last then return e
    else if less elem e then return e
    else
      let e ← list_next m e
      insert_ordered_loop m list elem fuel e

/-- `list_insert_ordered`. -/
def list_insert_ordered (fuel : ℕ) (m : words) (list elem : ℕ) : Outcome words := do
  Outcome.assert (list ≠ 0)
  Outcome.assert (elem ≠ 0)
  let e ← list_begin m list
  let e ← insert_ordered_loop less m list elem fuel e
  list_insert m e elem

end Model

open NaturalMerge IsList

variable {less : ℕ → ℕ → Prop} [DecidableRel less] {m m' : words} {list a b n fuel : ℕ}
  {pre l l₁ l₂ post : List ℕ}

/-! ## Runs -/

theorem IsList.ne_cursor (h : IsList m list (pre ++ a :: (l ++ post))) : a ≠ cursor list post := by
  have hnd := h.placed.nodup
  obtain ⟨rest, hn⟩ := nodes_append list (pre ++ a :: l) post
  rw [List.append_assoc, List.cons_append] at hn
  rw [hn] at hnd
  exact (List.nodup_append.mp hnd).2.2 a (by simp) _ (List.mem_cons_self ..)

/-- A step of the loops that look at neighbours. -/
theorem IsList.step (h : IsList m list (pre ++ a :: b :: l)) :
    list_next m a = .ok b ∧ list_prev m b = .ok a := ⟨h.list_next_eq, h.list_prev_eq⟩

theorem is_sorted_loop_eq (h : IsList m list (pre ++ a :: (l ++ post)))
    (ho : InOrder less (a :: l)) (hf : l.length < fuel) :
    is_sorted_loop less m (cursor list post) fuel a = .ok true := by
  induction l generalizing pre a fuel with
  | nil =>
      obtain ⟨fuel, rfl⟩ : ∃ k, fuel = k + 1 := ⟨fuel - 1, by omega⟩
      rw [is_sorted_loop, h.list_next_eq, Outcome.ok_bind, List.nil_append, if_pos rfl]
      rfl
  | cons c l ih =>
      obtain ⟨fuel, rfl⟩ : ∃ k, fuel = k + 1 := ⟨fuel - 1, by omega⟩
      obtain ⟨ha, ho'⟩ := List.pairwise_cons.mp ho
      obtain ⟨hnext, hprev⟩ := h.step
      rw [List.append_cons, List.cons_append] at h
      rw [is_sorted_loop, hnext, Outcome.ok_bind, if_neg h.ne_cursor, hprev, Outcome.ok_bind,
        if_neg (ha c (List.mem_cons_self ..))]
      exact ih h ho' (Nat.lt_of_succ_lt_succ hf)

/-- **`is_sorted`** of a stretch in order. -/
theorem is_sorted_eq (h : IsList m list (pre ++ (l ++ post))) (ho : InOrder less l)
    (hf : l.length ≤ fuel) :
    is_sorted less fuel m (cursor list (l ++ post)) (cursor list post) = .ok true := by
  unfold is_sorted
  cases l with
  | nil =>
      rw [List.nil_append, if_neg (not_not.mpr rfl)]
      rfl
  | cons a l =>
      rw [List.cons_append] at h
      have hne : cursor list (a :: l ++ post) ≠ cursor list post := h.ne_cursor
      rw [if_pos hne]
      exact is_sorted_loop_eq h ho hf

variable (less) in
theorem find_end_of_run_loop_eq (h : IsList m list (pre ++ a :: l)) (hf : l.length < fuel) :
    ∃ r rest, l = r ++ rest ∧ (a :: r).IsChain (fun a b => ¬ less b a)
      ∧ (∀ c ∈ rest.head?, less c (r.getLastD a))
      ∧ find_end_of_run_loop less m (tail list) fuel a = .ok (cursor list rest) := by
  induction l generalizing pre a fuel with
  | nil =>
      obtain ⟨fuel, rfl⟩ : ∃ k, fuel = k + 1 := ⟨fuel - 1, by omega⟩
      refine ⟨[], [], rfl, .singleton a, by simp, ?_⟩
      rw [find_end_of_run_loop, h.list_next_eq, Outcome.ok_bind]
      exact if_pos rfl
  | cons c l ih =>
      obtain ⟨fuel, rfl⟩ : ∃ k, fuel = k + 1 := ⟨fuel - 1, by omega⟩
      obtain ⟨hnext, hprev⟩ := h.step
      rw [List.append_cons] at h
      rw [find_end_of_run_loop, hnext, Outcome.ok_bind,
        if_neg (h.ne_tail (List.mem_append_right _ (List.mem_cons_self ..))), hprev,
          Outcome.ok_bind]
      by_cases hca : less c a
      · refine ⟨[], c :: l, rfl, .singleton a, ?_, if_pos hca⟩
        intro d hd
        obtain rfl := Option.some.inj hd
        exact hca
      · obtain ⟨r, rest, rfl, hchain, hend, hrun⟩ := ih h (Nat.lt_of_succ_lt_succ hf)
        refine ⟨c :: r, rest, rfl, List.isChain_cons_cons.mpr ⟨hca, hchain⟩, ?_, ?_⟩
        · rw [List.getLastD_cons]
          exact hend
        · rw [if_neg hca]
          exact hrun

variable (less) in
/-- **`find_end_of_run`** finds a longest run. -/
theorem find_end_of_run_eq [IsStrictWeakOrder ℕ less] (h : IsList m list (pre ++ a :: l))
    (hf : l.length < fuel) :
    ∃ r rest, l = r ++ rest ∧ InOrder less (a :: r) ∧ (∀ c ∈ rest.head?, less c (r.getLastD a))
      ∧ find_end_of_run less fuel m a (tail list) = .ok (cursor list rest) := by
  obtain ⟨r, rest, hl, hchain, hend, hrun⟩ := find_end_of_run_loop_eq less h hf
  have ha : a ∈ pre ++ a :: l := List.mem_append_right _ (List.mem_cons_self ..)
  have htail : tail list ≠ 0 := h.placed.ne_zero (by simp [nodes])
  refine ⟨r, rest, hl, ordered_of_isChain hchain, hend, ?_⟩
  unfold find_end_of_run
  rw [Outcome.assert_pos (h.placed.ne_zero (mem_nodes ha)), Outcome.ok_bind,
    Outcome.assert_pos htail, Outcome.ok_bind, Outcome.assert_pos (h.ne_tail ha), Outcome.ok_bind]
  exact hrun

/-! ## Merging two runs -/

/-- `list_splice` of one element is `list_remove` and `list_insert`. -/
theorem list_splice_eq {before last c : ℕ} (hbefore : is_interior m before ∨ is_tail m before)
    (hne : a ≠ last) (hprev : list_prev m last = .ok a) {m₁ m₂ : words}
    (hremove : list_remove m a = .ok (m₁, c)) (hinsert : list_insert m₁ before a = .ok m₂) :
    list_splice m before a last = .ok m₂ := by
  obtain ⟨_, hin, hremove⟩ := Outcome.bind_eq_ok.mp hremove
  obtain ⟨m₀, hm₀, hremove⟩ := Outcome.bind_eq_ok.mp hremove
  obtain ⟨m₁', hm₁, hremove⟩ := Outcome.bind_eq_ok.mp hremove
  obtain ⟨rfl, -⟩ := Outcome.ok_pair hremove
  obtain ⟨_, -, hinsert⟩ := Outcome.bind_eq_ok.mp hinsert
  obtain ⟨_, -, hinsert⟩ := Outcome.bind_eq_ok.mp hinsert
  have hin := Outcome.assert_eq_ok.mp hin
  unfold list_splice
  rw [Outcome.assert_pos hbefore, Outcome.ok_bind, if_neg hne, hprev, Outcome.ok_bind,
    Outcome.assert_pos hin, Outcome.ok_bind, Outcome.ok_bind, hm₀, Outcome.ok_bind, hm₁,
    Outcome.ok_bind]
  exact hinsert

/-- An element moves to the front of a stretch. -/
theorem IsList.splice (h : IsList m list (l₁ ++ (b :: l ++ a :: l₂))) :
    ∃ m', list_splice m b a (cursor list l₂) = .ok m' ∧ IsList m' list (l₁ ++ a :: (b :: l ++ l₂))
      ∧ SameElse (nodes list (l₁ ++ (b :: l ++ a :: l₂))) m m' := by
  have hok : is_interior m b ∨ is_tail m b := .inl
    (IsList.interior (show IsList m list (l₁ ++ b :: (l ++ a :: l₂)) from h))
  have h' : IsList m list ((l₁ ++ b :: l) ++ a :: l₂) := by simpa using h
  obtain ⟨m₁, hremove, hlist, hsame⟩ := h'.remove
  have hlist₁ : IsList m₁ list (l₁ ++ (b :: l ++ l₂)) := by simpa using hlist
  have hmove : (l₁ ++ (b :: l ++ a :: l₂)).Perm (a :: (l₁ ++ (b :: l ++ l₂))) := by
    rw [← List.append_assoc, ← List.append_assoc]
    exact List.perm_middle
  have hperm := (nodes_perm list hmove).trans (nodes_cons_perm list a _)
  obtain ⟨m₂, hinsert, hlist₂, hsame₂⟩ := hlist₁.insert (h.placed.perm hperm)
  have hbehind : IsList m list ((l₁ ++ b :: l) ++ a :: ([] ++ l₂)) := h'
  have hne : a ≠ cursor list l₂ := hbehind.ne_cursor
  refine ⟨m₂, list_splice_eq hok hne h'.list_prev_eq hremove hinsert, hlist₂, ?_⟩
  refine (hsame.mono fun x hx => ?_).trans (hsame₂.mono hperm.symm.subset)
  rw [List.append_assoc] at hx
  exact hperm.symm.subset (List.mem_cons_of_mem _ hx)

variable (less) in
/-- **The loop of `inplace_merge`** merges the stretches from `a0` and from `a1b0`. -/
theorem inplace_merge_loop_eq {as bs : List ℕ} (hf : as.length + bs.length < fuel)
    (h : IsList m list (pre ++ (as ++ (bs ++ post)))) :
    ∃ m', inplace_merge_loop less (cursor list post) fuel m (cursor list (as ++ (bs ++ post)))
        (cursor list (bs ++ post)) = .ok m'
      ∧ IsList m' list (pre ++ (merge less as bs ++ post))
      ∧ SameElse (nodes list (pre ++ (as ++ (bs ++ post)))) m m' := by
  induction fuel generalizing m pre as bs with
  | zero => omega
  | succ fuel ih =>
      rw [inplace_merge_loop]
      cases as with
      | nil =>
          refine ⟨m, if_neg (fun hne => hne.1 rfl), ?_, .refl _ _⟩
          rw [nil_merge]
          exact h
      | cons a as =>
          cases bs with
          | nil =>
              refine ⟨m, if_neg (fun hne => hne.2 rfl), ?_, .refl _ _⟩
              rw [merge_nil]
              exact h
          | cons b bs =>
              have h₂ : IsList m list ((pre ++ a :: as) ++ b :: (bs ++ post)) := by simpa using h
              have hne : cursor list (a :: as ++ (b :: bs ++ post))
                    ≠ cursor list (b :: bs ++ post)
                  ∧ cursor list (b :: bs ++ post) ≠ cursor list post :=
                ⟨IsList.ne_cursor h, h₂.ne_cursor⟩
              rw [if_pos hne]
              show ∃ m', (if ¬ less b a then _ else _) = _ ∧ _
              by_cases hba : less b a
              · -- `b` goes in front of `a`
                have hmoved : IsList m list (pre ++ (a :: as ++ b :: (bs ++ post))) := h
                obtain ⟨m₁, hsplice, hlist, hsame⟩ := hmoved.splice
                rw [List.append_cons] at hlist
                obtain ⟨m', hrun, hlist', hsame'⟩ :=
                  ih (by simp at hf ⊢; omega) hlist
                refine ⟨m', ?_, ?_, ?_⟩
                · rw [if_neg (not_not.mpr hba)]
                  show (list_next m b >>= _) = _
                  rw [h₂.list_next_eq, Outcome.ok_bind, h₂.list_prev_eq, Outcome.ok_bind]
                  show (list_splice m a b _ >>= _) = _
                  rw [hsplice]
                  exact hrun
                · rw [merge_cons_of_less hba]
                  simpa using hlist'
                · refine hsame.trans (hsame'.mono (nodes_perm list ?_).subset)
                  rw [← List.append_cons]
                  exact List.perm_middle.symm.append_left pre
              · have hnext : IsList m list (pre ++ a :: (as ++ (b :: bs ++ post))) := h
                have hlist := h
                rw [List.cons_append, List.append_cons] at hlist
                obtain ⟨m', hrun, hlist', hsame'⟩ :=
                  ih (by simp at hf ⊢; omega) hlist
                refine ⟨m', ?_, ?_, ?_⟩
                · rw [if_pos hba]
                  show (list_next m a >>= _) = _
                  rw [hnext.list_next_eq]
                  exact hrun
                · rw [merge_cons_of_not_less hba]
                  simpa using hlist'
                · rwa [← List.append_cons] at hsame'

/-- **`inplace_merge`** of two runs. -/
theorem inplace_merge_eq {as bs : List ℕ} (h : IsList m list (pre ++ (as ++ (bs ++ post))))
    (ha : InOrder less as) (hb : InOrder less bs) (hf : as.length + bs.length < fuel) :
    ∃ m', inplace_merge less fuel m (cursor list (as ++ (bs ++ post))) (cursor list (bs ++ post))
        (cursor list post) = .ok m'
      ∧ IsList m' list (pre ++ (merge less as bs ++ post))
      ∧ SameElse (nodes list (pre ++ (as ++ (bs ++ post)))) m m' := by
  have h₁ : IsList m list ((pre ++ as) ++ (bs ++ post)) := by simpa using h
  have h₂ : IsList m list ((pre ++ as ++ bs) ++ post) := by simpa using h
  obtain ⟨m', hrun, hlist, hsame⟩ := inplace_merge_loop_eq less hf h
  refine ⟨m', ?_, hlist, hsame⟩
  unfold inplace_merge
  rw [Outcome.assert_pos (h.placed.ne_zero (cursor_mem list pre _)), Outcome.ok_bind,
    Outcome.assert_pos (h₁.placed.ne_zero (cursor_mem list (pre ++ as) _)), Outcome.ok_bind,
    Outcome.assert_pos (h₂.placed.ne_zero (cursor_mem list (pre ++ as ++ bs) _)), Outcome.ok_bind,
    is_sorted_eq h ha (by omega), Outcome.ok_bind, Outcome.assert_pos rfl, Outcome.ok_bind,
    is_sorted_eq h₁ hb (by omega), Outcome.ok_bind, Outcome.assert_pos rfl, Outcome.ok_bind]
  exact hrun

/-! ## Sorting -/

variable (less) in
/-- **A pass** over the rest of the list. -/
theorem sort_pass_eq [IsStrictWeakOrder ℕ less] (cnt : ℕ) (h : IsList m list (pre ++ l))
    (hf : l.length < fuel) (hn : l.length < n) :
    ∃ m' l' k, sort_pass less n list fuel m (cursor list l) cnt = .ok (m', cnt + k)
      ∧ IsList m' list (pre ++ l') ∧ Pass less l l' k ∧ SameElse (nodes list (pre ++ l)) m m' := by
  induction fuel generalizing m pre l cnt with
  | zero => omega
  | succ fuel ih =>
      rw [sort_pass, h.list_end_eq, Outcome.ok_bind]
      cases l with
      | nil => exact ⟨m, [], 0, if_pos rfl, h, .nil, .refl _ _⟩
      | cons a l =>
          have ha : cursor list (a :: l) ≠ tail list :=
            h.ne_tail (List.mem_append_right _ (List.mem_cons_self ..))
          obtain ⟨r, rest, rfl, hr, hend, hrun⟩ :=
            find_end_of_run_eq less h (Nat.lt_of_succ_lt hn)
          rw [if_neg ha]
          show ∃ m' l' k, (find_end_of_run less n m a (tail list) >>= _) = _ ∧ _
          rw [hrun, Outcome.ok_bind]
          cases rest with
          | nil =>
              rw [List.append_nil] at h ⊢
              exact ⟨m, a :: r, 1, if_pos rfl, h, .one hr, .refl _ _⟩
          | cons b rest =>
              have h₂ : IsList m list ((pre ++ a :: r) ++ b :: rest) := by simpa using h
              have hb : cursor list (b :: rest) ≠ tail list :=
                h₂.ne_tail (List.mem_append_right _ (List.mem_cons_self ..))
              have hlen : rest.length < n := by
                simp at hn
                omega
              obtain ⟨r', rest', rfl, hr', hend', hrun'⟩ := find_end_of_run_eq less h₂ hlen
              have h₃ : IsList m list (pre ++ (a :: r ++ (b :: r' ++ rest'))) := by simpa using h
              have hlens : (a :: r).length + (b :: r').length < n := by
                simp at hn ⊢
                omega
              obtain ⟨m₁, hmerge, hlist₁, hsame₁⟩ := inplace_merge_eq h₃ hr hr' hlens
              rw [← List.append_assoc] at hlist₁
              obtain ⟨m', out, k, hpass, hlist', hk, hsame'⟩ :=
                ih (cnt + 1) hlist₁ (by simp at hf ⊢; omega) (by simp at hn ⊢; omega)
              refine ⟨m', merge less (a :: r) (b :: r') ++ out, k + 1, ?_, ?_, ?_, ?_⟩
              · rw [if_neg hb]
                show (find_end_of_run less n m b (tail list) >>= _) = _
                rw [hrun', Outcome.ok_bind]
                show (inplace_merge less n m (cursor list (a :: r ++ (b :: r' ++ rest')))
                  (cursor list (b :: r' ++ rest')) (cursor list rest') >>= _) = _
                rw [hmerge, Outcome.ok_bind, hpass]
                congr 2
                omega
              · rwa [List.append_assoc] at hlist'
              · have hless : less b (r.getLastD a) := hend b rfl
                exact .two hr hr' hless hend' hk
              · refine hsame₁.trans (hsame'.mono (nodes_perm list ?_).subset)
                rw [List.append_assoc, ← List.append_assoc (a :: r)]
                exact ((merge_perm _ _).append_right rest').append_left pre

variable (less) in
/-- **The outer loop** ends: every pass that leaves two runs leaves fewer descents. -/
theorem list_sort_loop_eq [IsStrictWeakOrder ℕ less] (h : IsList m list l)
    (hf : descents less l < fuel) (hn : l.length < n) :
    ∃ m' l', list_sort_loop less n list fuel m = .ok m' ∧ IsList m' list l' ∧ Keeps less l l'
      ∧ InOrder less l' ∧ SameElse (nodes list l) m m' := by
  induction fuel generalizing m l with
  | zero => omega
  | succ fuel ih =>
      obtain ⟨m₁, l₁, k, hpass, hlist, hk, hsame⟩ :=
        sort_pass_eq less 0 (show IsList m list ([] ++ l) from h) hn hn
      have hlist : IsList m₁ list l₁ := hlist
      rw [list_sort_loop, h.list_begin_eq, Outcome.ok_bind, hpass, Outcome.ok_bind, Nat.zero_add]
      by_cases hmore : 1 < k
      · have hlen : l₁.length < n := by rwa [hk.keeps.perm.length_eq]
        obtain ⟨m', l', hrun, hlist', hkeeps, ho, hsame'⟩ :=
          ih hlist (by have := hk.descents_decrease hmore; omega) hlen
        refine ⟨m', l', (if_pos hmore).trans hrun, hlist', hk.keeps.trans hkeeps, ho, ?_⟩
        exact hsame.trans (hsame'.mono (nodes_perm list hk.keeps.perm).subset)
      · exact ⟨m₁, l₁, if_neg hmore, hlist, hk.keeps, hk.ordered (Nat.not_lt.mp hmore), hsame⟩

theorem descents_le (l : List ℕ) : descents less l ≤ l.length := by
  induction l with
  | nil => exact Nat.le_refl _
  | cons a l ih =>
      cases l with
      | nil => exact Nat.zero_le _
      | cons b l =>
          rw [descents, List.length_cons]
          split <;> omega

variable (less) in
/-- **`list_sort`** ends, and leaves the stable sort of the list. -/
theorem list_sort_spec [IsStrictWeakOrder ℕ less] (h : IsList m list l) (hn : l.length < n) :
    ∃ m' l', list_sort less n m list = .ok m' ∧ IsList m' list l' ∧ Keeps less l l'
      ∧ InOrder less l' ∧ SameElse (nodes list l) m m' := by
  obtain ⟨m', l', hrun, hlist, hkeeps, ho, hsame⟩ :=
    list_sort_loop_eq less h ((descents_le l).trans_lt hn) hn
  refine ⟨m', l', ?_, hlist, hkeeps, ho, hsame⟩
  have hwhole : IsList m' list ([] ++ (l' ++ [])) := by simpa using hlist
  have hlen : l'.length ≤ n := by
    rw [hkeeps.perm.length_eq]
    exact hn.le
  have hsorted := is_sorted_eq hwhole ho hlen
  rw [List.append_nil] at hsorted
  unfold list_sort
  rw [Outcome.assert_pos h.head_ne_zero, Outcome.ok_bind, hrun, Outcome.ok_bind,
    hlist.list_begin_eq, Outcome.ok_bind, hlist.list_end_eq, Outcome.ok_bind]
  show (is_sorted less n m' (cursor list l') (cursor list []) >>= _) = _
  rw [hsorted]
  rfl

/-! ## Inserting in order -/

variable (less) in
/-- The loop stops in front of the first element that the new one is less than. -/
theorem insert_ordered_loop_eq (elem : ℕ) (h : IsList m list (pre ++ l)) (hf : l.length < fuel) :
    ∃ l₁ l₂, l = l₁ ++ l₂ ∧ (∀ a ∈ l₁, ¬ less elem a) ∧ (∀ c ∈ l₂.head?, less elem c)
      ∧ insert_ordered_loop less m list elem fuel (cursor list l) = .ok (cursor list l₂) := by
  induction l generalizing pre fuel with
  | nil =>
      obtain ⟨fuel, rfl⟩ : ∃ k, fuel = k + 1 := ⟨fuel - 1, by omega⟩
      refine ⟨[], [], rfl, by simp, by simp, ?_⟩
      rw [insert_ordered_loop, h.list_end_eq, Outcome.ok_bind]
      exact if_pos rfl
  | cons a l ih =>
      obtain ⟨fuel, rfl⟩ : ∃ k, fuel = k + 1 := ⟨fuel - 1, by omega⟩
      have ha : cursor list (a :: l) ≠ tail list :=
        h.ne_tail (List.mem_append_right _ (List.mem_cons_self ..))
      have hnext := h.list_next_eq
      rw [insert_ordered_loop, h.list_end_eq, Outcome.ok_bind, if_neg ha]
      by_cases hless : less elem a
      · refine ⟨[], a :: l, rfl, by simp, ?_, if_pos hless⟩
        intro c hc
        obtain rfl := Option.some.inj hc
        exact hless
      · rw [List.append_cons] at h
        obtain ⟨l₁, l₂, rfl, hbefore, hend, hrun⟩ := ih h (Nat.lt_of_succ_lt_succ hf)
        refine ⟨a :: l₁, l₂, rfl, ?_, hend, ?_⟩
        · intro b hb
          rcases List.mem_cons.mp hb with rfl | hb
          · exact hless
          · exact hbefore b hb
        · have hcursor : cursor list (a :: (l₁ ++ l₂)) = a := rfl
          rw [hcursor, if_neg hless, hnext]
          exact hrun

variable (less) in
/-- **`list_insert_ordered`**, into any list. -/
theorem list_insert_ordered_eq {elem : ℕ} (h : IsList m list l)
    (he : Placed (elem :: nodes list l)) (hn : l.length < n) :
    ∃ m' l₁ l₂, l = l₁ ++ l₂ ∧ (∀ a ∈ l₁, ¬ less elem a) ∧ (∀ c ∈ l₂.head?, less elem c)
      ∧ list_insert_ordered less n m list elem = .ok m' ∧ IsList m' list (l₁ ++ elem :: l₂)
      ∧ SameElse (elem :: nodes list l) m m' := by
  obtain ⟨l₁, l₂, rfl, hbefore, hend, hrun⟩ :=
    insert_ordered_loop_eq less elem (show IsList m list ([] ++ l) from h) hn
  obtain ⟨m', hinsert, hlist, hsame⟩ := h.insert he
  refine ⟨m', l₁, l₂, rfl, hbefore, hend, ?_, hlist, hsame⟩
  unfold list_insert_ordered
  rw [Outcome.assert_pos h.head_ne_zero, Outcome.ok_bind,
    Outcome.assert_pos (he.ne_zero (List.mem_cons_self ..)), Outcome.ok_bind, h.list_begin_eq,
    Outcome.ok_bind, hrun]
  exact hinsert

variable (less) in
/-- **Ordering.** `list_sort` ends and leaves the elements in order, those that compare equal as
they stood; `list_insert_ordered` keeps a list in order, and puts the new element behind all that
compare equal to it. -/
theorem list_ordering [IsStrictWeakOrder ℕ less] (h : IsList m list l) (hn : l.length < n) :
    (∃ m' l', list_sort less n m list = .ok m' ∧ IsList m' list l' ∧ l'.Perm l ∧ InOrder less l'
      ∧ (∀ a b, ¬ less a b → ¬ less b a → [a, b].Sublist l → [a, b].Sublist l')
      ∧ SameElse (nodes list l) m m')
    ∧ ∀ elem, InOrder less l → Placed (elem :: nodes list l) →
      ∃ m' l₁ l₂, list_insert_ordered less n m list elem = .ok m' ∧ l = l₁ ++ l₂
        ∧ IsList m' list (l₁ ++ elem :: l₂) ∧ InOrder less (l₁ ++ elem :: l₂)
        ∧ (∀ a ∈ l, ¬ less a elem → ¬ less elem a → a ∈ l₁)
        ∧ SameElse (elem :: nodes list l) m m' := by
  constructor
  · obtain ⟨m', l', hrun, hlist, hkeeps, ho, hsame⟩ := list_sort_spec less h hn
    exact ⟨m', l', hrun, hlist, hkeeps.perm, ho, fun a b _ hba hab => hkeeps.pairs hab hba, hsame⟩
  · intro elem ho he
    obtain ⟨m', l₁, l₂, rfl, hbefore, hend, hrun, hlist, hsame⟩ :=
      list_insert_ordered_eq less h he hn
    have hbehind := InOrder.less_all (List.pairwise_append.mp ho).2.1 hend
    refine ⟨m', l₁, l₂, hrun, rfl, hlist, InOrder.insert ho hbefore hbehind, ?_, hsame⟩
    intro a ha _ hea
    exact (List.mem_append.mp ha).resolve_right fun ha => hea (hbehind a ha)

/-- A list of two elements: head and tail at 16, the elements at 96 and at 64. -/
def two_elements : words := fun w =>
  if w = 24 then 96 else if w = 96 then 16 else if w = 104 then 64 else if w = 64 then 96
  else if w = 72 then 32 else if w = 32 then 64 else 0

theorem two_elements_list : IsList two_elements 16 [96, 64] := by
  refine ⟨?_, rfl, rfl, ⟨by decide, by decide, by decide⟩⟩
  refine .cons_cons ⟨rfl, rfl⟩ (.cons_cons ⟨rfl, rfl⟩ (.cons_cons ⟨rfl, rfl⟩ (.singleton _)))

/-- By their addresses, the second comes first. -/
theorem two_elements_sorted : ∃ m', list_sort (· < ·) 3 two_elements 16 = .ok m'
    ∧ IsList m' 16 [64, 96] := by
  have : IsStrictWeakOrder ℕ (· < ·) := isStrictWeakOrder_of_isOrderConnected
  have hlen : [96, 64].length < 3 := by decide
  obtain ⟨m', l', hrun, hlist, hperm, ho, -⟩ := (list_ordering (· < ·) two_elements_list hlen).1
  have hswap : [96, 64].Perm [64, 96] := .swap _ _ _
  have heq : l' = [64, 96] := by
    apply (hperm.trans hswap).eq_of_pairwise _ ho (by decide)
    intro a b _ _ hab hba
    exact Nat.le_antisymm (Nat.not_lt.mp hab) (Nat.not_lt.mp hba)
  exact ⟨m', hrun, heq ▸ hlist⟩

/-! ## The abstract functions

The scheduler's model sorts and inserts in Lean's lists; the links do the same. -/

/-- **`list_sort`** of the links is `list_sort` of the list. -/
theorem list_sort_refines [IsStrictWeakOrder ℕ less] (h : IsList m list l) (hn : l.length < n) :
    ∃ m', list_sort less n m list = .ok m' ∧ IsList m' list (Pintos.list_sort less l) := by
  obtain ⟨m', l', hrun, hlist, hkeeps, ho, -⟩ := list_sort_spec less h hn
  have heq : l' = Pintos.list_sort less l :=
    hkeeps.unique h.nodup (insertionSort_keeps l) ho (insertionSort_ordered l)
  exact ⟨m', hrun, heq ▸ hlist⟩

/-- **`list_insert_ordered`** of the links is that of the list. -/
theorem list_insert_ordered_refines {elem : ℕ} (h : IsList m list l)
    (he : Placed (elem :: nodes list l)) (hn : l.length < n) :
    ∃ m', list_insert_ordered less n m list elem = .ok m'
      ∧ IsList m' list (Pintos.list_insert_ordered less l elem) := by
  obtain ⟨m', l₁, l₂, rfl, hbefore, hend, hrun, hlist, -⟩ := list_insert_ordered_eq less h he hn
  refine ⟨m', hrun, ?_⟩
  have heq : Pintos.list_insert_ordered less (l₁ ++ l₂) elem = l₁ ++ elem :: l₂ := by
    clear h he hn hlist
    induction l₁ with
    | nil =>
        cases l₂ with
        | nil => rfl
        | cons c l₂ => exact if_pos (hend c rfl)
    | cons a l₁ ih =>
        have hrest := ih fun b hb => hbefore b (List.mem_cons_of_mem _ hb)
        unfold Pintos.list_insert_ordered at hrest ⊢
        rw [List.cons_append, List.orderedInsert_cons, if_neg (hbefore a (List.mem_cons_self ..)),
          hrest]
        rfl
  rw [heq]
  exact hlist

end Pintos.klib
