/-
The tokens of a list.

A list is read as separators, a token, separators, and so on. `tokens` are the
non-empty parts between separators. A tokenizer that works in place closes each
token by writing over the separator behind it; `close_tokens` is what it leaves.
Both are given by the same three cases: only separators, one last token, and a
token with a separator behind it (`token_cases`).
-/
import Mathlib.Data.List.TakeWhile
import Mathlib.Data.Nat.Init
import Mathlib.Tactic.Common

set_option autoImplicit false

namespace Pintos

universe u

variable {α : Type u} {sep : α → Bool} {sl t l : List α} {z d x : α}

/-- The non-empty parts between separators. -/
def tokens (sep : α → Bool) (l : List α) : List (List α) :=
  (l.splitOnP sep).filter fun t => !t.isEmpty

/-- The list with `z` for the first separator behind every token. -/
def close_tokens (sep : α → Bool) (z : α) : Bool → List α → List α
  | _, [] => []
  | in_token, c :: l =>
      if sep c then (if in_token then z else c) :: close_tokens sep z false l
      else c :: close_tokens sep z true l

/-- Only separators. -/
def Seps (sep : α → Bool) (l : List α) : Prop := ∀ c ∈ l, sep c = true

/-- A token: not empty, and no separator in it. -/
structure Token (sep : α → Bool) (t : List α) : Prop where
  ne_nil : t ≠ []
  no_sep : ∀ c ∈ t, sep c = false

/-! ## The three cases -/

/-- A list is a row of separators, or ends in a token, or goes on behind a token. -/
theorem token_cases (sep : α → Bool) (l : List α) :
    Seps sep l ∨ (∃ sl t, l = sl ++ t ∧ Seps sep sl ∧ Token sep t)
      ∨ ∃ sl t d r, l = sl ++ (t ++ d :: r) ∧ Seps sep sl ∧ Token sep t ∧ sep d = true := by
  have hsl : Seps sep (l.takeWhile sep) := fun c hc => List.mem_takeWhile_imp hc
  have hl : l = l.takeWhile sep ++ l.dropWhile sep := (List.takeWhile_append_dropWhile).symm
  rcases hrest : l.dropWhile sep with _ | ⟨c, m⟩
  · refine Or.inl ?_
    rw [hl, hrest, List.append_nil]
    exact hsl
  · -- the list behind the separators starts with a character of a token
    have hc : sep c = false := by
      have hhead := List.head_dropWhile_not sep (l := l) (by rw [hrest]; exact List.cons_ne_nil c m)
      simpa [hrest] using hhead
    have htok : Token sep ((c :: m).takeWhile fun x => !sep x) :=
      ⟨by simp [hc], fun x hx => by simpa using List.mem_takeWhile_imp hx⟩
    have hm : c :: m = _ ++ _ := (List.takeWhile_append_dropWhile (p := fun x => !sep x)).symm
    rcases hr : (c :: m).dropWhile fun x => !sep x with _ | ⟨d, r⟩
    · refine Or.inr (Or.inl ⟨_, _, ?_, hsl, htok⟩)
      rw [hr, List.append_nil] at hm
      rw [← hm, ← hrest]
      exact hl
    · refine Or.inr (Or.inr ⟨_, _, d, r, ?_, hsl, htok, ?_⟩)
      · rw [hr] at hm
        rw [← hm, ← hrest]
        exact hl
      · have hhead := List.head_dropWhile_not (fun x => !sep x) (l := c :: m)
          (by rw [hr]; exact List.cons_ne_nil d r)
        simpa [hr] using hhead

/-- Induction over the tokens of a list. -/
@[elab_as_elim]
theorem token_induction {motive : List α → Prop} (sep : α → Bool)
    (seps : ∀ sl, Seps sep sl → motive sl)
    (last : ∀ sl t, Seps sep sl → Token sep t → motive (sl ++ t))
    (more : ∀ sl t d l, Seps sep sl → Token sep t → sep d = true → motive l →
      motive (sl ++ (t ++ d :: l)))
    (l : List α) : motive l := by
  induction hn : l.length using Nat.strong_induction_on generalizing l with
  | _ n ih =>
      subst hn
      rcases token_cases sep l with h | ⟨sl, t, rfl, hsl, ht⟩ | ⟨sl, t, d, r, rfl, hsl, ht, hd⟩
      · exact seps l h
      · exact last sl t hsl ht
      · refine more sl t d r hsl ht hd (ih r.length ?_ r rfl)
        simp only [List.length_append, List.length_cons]
        omega

/-! ## What the tokens are -/

theorem tokens_cons_sep (hd : sep d = true) (l : List α) : tokens sep (d :: l) = tokens sep l := by
  unfold tokens
  have h : ([] ++ d :: l).splitOnP sep = [] :: l.splitOnP sep :=
    List.splitOnP_append_cons_of_forall_mem (fun _ hx => absurd hx List.not_mem_nil) d hd l
  rw [List.nil_append] at h
  rw [h]
  rfl

theorem tokens_seps_append (hsl : Seps sep sl) (l : List α) :
    tokens sep (sl ++ l) = tokens sep l := by
  induction sl with
  | nil => rfl
  | cons d sl ih =>
      rw [List.cons_append, tokens_cons_sep (hsl d List.mem_cons_self)]
      exact ih fun c hc => hsl c (List.mem_cons_of_mem d hc)

theorem tokens_seps (hsl : Seps sep sl) : tokens sep sl = [] := by
  rw [← List.append_nil sl, tokens_seps_append hsl]
  rfl

/-- A token is not left out. -/
theorem Token.filter_cons (ht : Token sep t) (r : List (List α)) :
    (t :: r).filter (fun t => !t.isEmpty) = t :: r.filter fun t => !t.isEmpty := by
  rw [List.filter_cons_of_pos]
  simpa using ht.ne_nil

theorem tokens_token (ht : Token sep t) : tokens sep t = [t] := by
  unfold tokens
  rw [List.splitOnP_eq_singleton ht.no_sep, ht.filter_cons]
  rfl

theorem tokens_token_sep (ht : Token sep t) (hd : sep d = true) (l : List α) :
    tokens sep (t ++ d :: l) = t :: tokens sep l := by
  unfold tokens
  rw [List.splitOnP_append_cons_of_forall_mem ht.no_sep d hd, ht.filter_cons]

/-- What is not in the list is in none of its parts. -/
theorem notMem_parts (hz : z ∉ sl ++ (t ++ d :: l)) : z ∉ sl ∧ z ∉ t ∧ d ≠ z ∧ z ∉ l := by
  simp only [List.mem_append, List.mem_cons, not_or] at hz
  exact ⟨hz.1, hz.2.1, hz.2.2.1 ∘ Eq.symm, hz.2.2.2⟩

/-- The part in front of the next token, when its separator has become `z`. -/
theorem closed_length (pre sl t : List α) (z : α) :
    (pre ++ (sl ++ (t ++ [z]))).length = pre.length + sl.length + t.length + 1 := by
  simp only [List.length_append, List.length_singleton]
  omega

theorem closed_append (pre sl t x : List α) (z : α) :
    pre ++ (sl ++ (t ++ [z])) ++ x = pre ++ (sl ++ (t ++ z :: x)) := by
  simp only [List.append_assoc, List.singleton_append]

/-- Every token has a character, and a separator in front of the next one. -/
theorem two_mul_length_tokens_le (sep : α → Bool) (l : List α) :
    2 * (tokens sep l).length ≤ l.length + 1 := by
  induction l using token_induction sep with
  | seps sl hsl => simp [tokens_seps hsl]
  | last sl t hsl ht =>
      have hpos := List.length_pos_iff.mpr ht.ne_nil
      rw [tokens_seps_append hsl, tokens_token ht]
      simp only [List.length_append, List.length_singleton]
      omega
  | more sl t d l hsl ht hd ih =>
      have hpos := List.length_pos_iff.mpr ht.ne_nil
      rw [tokens_seps_append hsl, tokens_token_sep ht hd]
      simp only [List.length_append, List.length_cons]
      omega

/-- Without tokens there are separators only. -/
theorem seps_of_tokens_eq_nil (h : tokens sep l = []) : Seps sep l := by
  rcases token_cases sep l with hsl | ⟨sl, t, rfl, hsl, ht⟩ | ⟨sl, t, d, r, rfl, hsl, ht, hd⟩
  · exact hsl
  · rw [tokens_seps_append hsl, tokens_token ht] at h
    cases h
  · rw [tokens_seps_append hsl, tokens_token_sep ht hd] at h
    cases h

/-! ## What closing the tokens leaves -/

@[simp] theorem close_tokens_nil (b : Bool) : close_tokens sep z b [] = [] := rfl

@[simp] theorem length_close_tokens (b : Bool) (l : List α) :
    (close_tokens sep z b l).length = l.length := by
  induction l generalizing b with
  | nil => rfl
  | cons c l ih =>
      rw [close_tokens]
      split
      · rw [List.length_cons, List.length_cons, ih]
      · rw [List.length_cons, List.length_cons, ih]

theorem close_tokens_seps_append (hsl : Seps sep sl) (l : List α) :
    close_tokens sep z false (sl ++ l) = sl ++ close_tokens sep z false l := by
  induction sl with
  | nil => rfl
  | cons d sl ih =>
      rw [List.cons_append, close_tokens, if_pos (hsl d List.mem_cons_self),
        ih fun c hc => hsl c (List.mem_cons_of_mem d hc)]
      rfl

/-- Characters of a token are passed over. -/
theorem close_tokens_chars_append (ht : ∀ c ∈ t, sep c = false) (l : List α) :
    close_tokens sep z true (t ++ l) = t ++ close_tokens sep z true l := by
  induction t with
  | nil => rfl
  | cons c t ih =>
      rw [List.cons_append, close_tokens,
        if_neg (by simp [ht c List.mem_cons_self]), ih fun x hx => ht x (List.mem_cons_of_mem c hx)]
      rfl

theorem close_tokens_token_append (ht : Token sep t) (b : Bool) (l : List α) :
    close_tokens sep z b (t ++ l) = t ++ close_tokens sep z true l := by
  obtain ⟨c, t, rfl⟩ := List.exists_cons_of_ne_nil ht.ne_nil
  rw [List.cons_append, close_tokens, if_neg (by simp [ht.no_sep c List.mem_cons_self]),
    close_tokens_chars_append fun x hx => ht.no_sep x (List.mem_cons_of_mem c hx)]
  rfl

theorem close_tokens_token (ht : Token sep t) (b : Bool) : close_tokens sep z b t = t := by
  have h := close_tokens_token_append (z := z) ht b []
  rwa [close_tokens_nil, List.append_nil] at h

theorem close_tokens_token_sep (ht : Token sep t) (hd : sep d = true) (b : Bool) (l : List α) :
    close_tokens sep z b (t ++ d :: l) = t ++ z :: close_tokens sep z false l := by
  rw [close_tokens_token_append ht, close_tokens, if_pos hd]
  rfl

/-- A row of separators stays. -/
theorem close_tokens_seps (hsl : Seps sep sl) : close_tokens sep z false sl = sl := by
  have h := close_tokens_seps_append (z := z) hsl []
  rwa [close_tokens_nil, List.append_nil] at h

/-- **The list stays as it was** exactly if no separator is behind a token. -/
theorem close_tokens_eq_self_iff (hz : sep z = false) (l : List α) :
    close_tokens sep z false l = l ↔ ∀ c ∈ l.dropWhile sep, sep c = false := by
  rcases token_cases sep l with h | ⟨sl, t, rfl, hsl, ht⟩ | ⟨sl, t, d, r, rfl, hsl, ht, hd⟩
  · have hdrop : l.dropWhile sep = [] := List.dropWhile_eq_nil_iff.mpr h
    rw [close_tokens_seps h, hdrop]
    simp
  · have hdrop : (sl ++ t).dropWhile sep = t := by
      obtain ⟨c, t, rfl⟩ := List.exists_cons_of_ne_nil ht.ne_nil
      rw [List.dropWhile_append_of_pos hsl, List.dropWhile_cons_of_neg]
      simp [ht.no_sep c List.mem_cons_self]
    rw [close_tokens_seps_append hsl, close_tokens_token ht, hdrop]
    exact ⟨fun _ => ht.no_sep, fun _ => rfl⟩
  · have hmem : d ∈ (sl ++ (t ++ d :: r)).dropWhile sep := by
      obtain ⟨c, t, rfl⟩ := List.exists_cons_of_ne_nil ht.ne_nil
      rw [List.dropWhile_append_of_pos hsl, List.cons_append, List.dropWhile_cons_of_neg]
      · simp
      · simp [ht.no_sep c List.mem_cons_self]
    rw [close_tokens_seps_append hsl, close_tokens_token_sep ht hd]
    constructor
    · intro heq
      -- the separator would have to be the mark itself
      have hzd : z = d := (List.cons.inj (List.append_cancel_left (List.append_cancel_left heq))).1
      rw [hzd, hd] at hz
      cases hz
    · intro h
      have hd' := h d hmem
      rw [hd] at hd'
      cases hd'

/-! ## Where the tokens are -/

/-- The part from `a` to `b` has no separator in it, and cannot be made longer. -/
structure MaximalRun (sep : α → Bool) (l : List α) (a b : ℕ) : Prop where
  lt : a < b
  le : b ≤ l.length
  inside : ∀ k, a ≤ k → k < b → l[k]?.map sep = some false
  left : ∀ k, k + 1 = a → l[k]?.map sep = some true
  right : b < l.length → l[b]?.map sep = some true

section Runs

variable {a b : ℕ}

theorem seps_getElem? (hsl : Seps sep sl) (l : List α) {k : ℕ} (hk : k < sl.length) :
    (sl ++ l)[k]?.map sep = some true := by
  rw [List.getElem?_append_left hk, List.getElem?_eq_getElem hk]
  exact congrArg some (hsl _ (List.getElem_mem hk))

theorem token_getElem? (ht : Token sep t) (sl l : List α) {k : ℕ} (hk : sl.length ≤ k)
    (hk' : k < sl.length + t.length) : (sl ++ (t ++ l))[k]?.map sep = some false := by
  have hlt : k - sl.length < t.length := by omega
  rw [List.getElem?_append_right hk, List.getElem?_append_left hlt, List.getElem?_eq_getElem hlt]
  exact congrArg some (ht.no_sep _ (List.getElem_mem hlt))

/-- There is no run in separators. -/
theorem not_maximalRun_seps (hsl : Seps sep sl) : ¬ MaximalRun sep sl a b := by
  intro h
  have hin := h.inside a le_rfl h.lt
  have hlt : a < sl.length := h.lt.trans_le h.le
  have hsep := seps_getElem? hsl [] hlt
  rw [List.append_nil, hin] at hsep
  cases hsep

theorem behind_token_getElem? (sl t l : List α) (k : ℕ) :
    (sl ++ (t ++ l))[sl.length + t.length + k]? = l[k]? := by
  rw [List.getElem?_append_right (by omega), List.getElem?_append_right (by omega)]
  congr 1
  omega

/-- The first token is a run. -/
theorem maximalRun_first (hsl : Seps sep sl) (ht : Token sep t)
    (hl : ∀ c, l[0]? = some c → sep c = true) :
    MaximalRun sep (sl ++ (t ++ l)) sl.length (sl.length + t.length) := by
  have hpos := List.length_pos_iff.mpr ht.ne_nil
  refine ⟨by omega, by simp, fun k hk hk' => token_getElem? ht sl l hk hk', ?_, ?_⟩
  · intro k hk
    exact seps_getElem? hsl _ (by omega)
  · intro hlt
    have hbehind := behind_token_getElem? sl t l 0
    rw [Nat.add_zero] at hbehind
    rw [hbehind]
    have hne : l ≠ [] := by
      rintro rfl
      simp at hlt
    obtain ⟨c, l, rfl⟩ := List.exists_cons_of_ne_nil hne
    simp [hl c rfl]

/-- A run that starts before the end of the first token is that token. -/
theorem MaximalRun.eq_first (h : MaximalRun sep (sl ++ (t ++ l)) a b) (hsl : Seps sep sl)
    (ht : Token sep t) (hl : ∀ c, l[0]? = some c → sep c = true) (ha : a < sl.length + t.length) :
    a = sl.length ∧ b = sl.length + t.length := by
  have hlt := h.lt
  have hle := h.le
  simp only [List.length_append] at hle
  have hstart : sl.length ≤ a := by
    by_contra hlow
    have hin := h.inside a le_rfl h.lt
    rw [seps_getElem? hsl _ (by omega)] at hin
    cases hin
  have hfirst : a = sl.length := by
    by_contra hne
    have hleft := h.left (a - 1) (by omega)
    rw [token_getElem? ht sl l (by omega) (by omega)] at hleft
    cases hleft
  refine ⟨hfirst, le_antisymm ?_ ?_⟩
  · by_contra hlong
    have hin := h.inside (sl.length + t.length) (by omega) (by omega)
    have hbehind := behind_token_getElem? sl t l 0
    rw [Nat.add_zero] at hbehind
    rw [hbehind] at hin
    cases hc : l[0]? with
    | none =>
        rw [hc] at hin
        cases hin
    | some c =>
        rw [hc, Option.map_some, hl c hc] at hin
        cases hin
  · by_contra hshort
    have hright := h.right (by simp only [List.length_append]; omega)
    rw [token_getElem? ht sl l (by omega) (by omega)] at hright
    cases hright

/-- The only run is the token at the end. -/
theorem maximalRun_last (hsl : Seps sep sl) (ht : Token sep t) :
    MaximalRun sep (sl ++ t) a b ↔ a = sl.length ∧ b = sl.length + t.length := by
  have hnil : sl ++ t = sl ++ (t ++ []) := by rw [List.append_nil]
  rw [hnil]
  constructor
  · intro h
    have hend := h.lt.trans_le h.le
    simp only [List.length_append, List.length_nil, Nat.add_zero] at hend
    exact h.eq_first hsl ht (by simp) hend
  · rintro ⟨rfl, rfl⟩
    exact maximalRun_first hsl ht (by simp)

/-- The runs are the first token and those behind its separator. -/
theorem maximalRun_more (hsl : Seps sep sl) (ht : Token sep t) (hd : sep d = true) :
    MaximalRun sep (sl ++ (t ++ d :: l)) a b ↔ (a = sl.length ∧ b = sl.length + t.length)
      ∨ ∃ a' b', a = sl.length + t.length + 1 + a' ∧ b = sl.length + t.length + 1 + b'
        ∧ MaximalRun sep l a' b' := by
  have hhead : ∀ c, (d :: l)[0]? = some c → sep c = true := by
    intro c hc
    rw [← Option.some.inj hc]
    exact hd
  have hsame : ∀ k, (sl ++ (t ++ d :: l))[sl.length + t.length + 1 + k]? = l[k]? := by
    intro k
    rw [Nat.add_assoc _ 1 k, behind_token_getElem? sl t (d :: l) (1 + k), Nat.add_comm 1 k,
      List.getElem?_cons_succ]
  have hsep : (sl ++ (t ++ d :: l))[sl.length + t.length]?.map sep = some true := by
    have hbehind := behind_token_getElem? sl t (d :: l) 0
    rw [Nat.add_zero] at hbehind
    rw [hbehind, List.getElem?_cons_zero, Option.map_some, hd]
  constructor
  · intro h
    by_cases ha : a < sl.length + t.length
    · exact .inl (h.eq_first hsl ht hhead ha)
    · right
      have hne : a ≠ sl.length + t.length := by
        rintro rfl
        have hin := h.inside _ le_rfl h.lt
        rw [hsep] at hin
        cases hin
      have hlt := h.lt
      have hle := h.le
      simp only [List.length_append, List.length_cons] at hle
      obtain ⟨a', rfl⟩ : ∃ k, a = sl.length + t.length + 1 + k :=
        ⟨a - (sl.length + t.length + 1), by omega⟩
      obtain ⟨b', rfl⟩ : ∃ k, b = sl.length + t.length + 1 + k :=
        ⟨b - (sl.length + t.length + 1), by omega⟩
      refine ⟨a', b', rfl, rfl, by omega, by omega, ?_, ?_, ?_⟩
      · intro k hk hk'
        rw [← hsame]
        exact h.inside _ (by omega) (by omega)
      · intro k hk
        rw [← hsame]
        exact h.left _ (by omega)
      · intro hk
        rw [← hsame]
        exact h.right (by simp only [List.length_append, List.length_cons]; omega)
  · rintro (⟨rfl, rfl⟩ | ⟨a', b', rfl, rfl, h⟩)
    · exact maximalRun_first hsl ht hhead
    · have hlt := h.lt
      have hle := h.le
      refine ⟨by omega, by simp only [List.length_append, List.length_cons]; omega, ?_, ?_, ?_⟩
      · intro k hk hk'
        obtain ⟨k, rfl⟩ : ∃ j, k = sl.length + t.length + 1 + j :=
          ⟨k - (sl.length + t.length + 1), by omega⟩
        rw [hsame]
        exact h.inside k (by omega) (by omega)
      · intro k hk
        by_cases hfirst : k = sl.length + t.length
        · rw [hfirst]
          exact hsep
        · obtain ⟨k, rfl⟩ : ∃ j, k = sl.length + t.length + 1 + j :=
            ⟨k - (sl.length + t.length + 1), by omega⟩
          rw [hsame]
          exact h.left k (by omega)
      · intro hk
        simp only [List.length_append, List.length_cons] at hk
        rw [hsame]
        exact h.right (by omega)

end Runs

end Pintos
