/-
Finite maps kept in a row of slots.

A slot is free, or holds a key and a value. A new key goes into the first free slot, or
behind the last one; removing a key frees its slot. So a slot keeps its place: what is in
one changes only when its own key is removed or when it is filled again. From that come the
laws of a map (`lookup_slot_store`, `lookup_slot_erase`) and what a walk along the slots sees
while the table is changed under it (`Walk.Seen`): every key that stays is seen once, in the
order of the slots.
-/
import Mathlib.Data.List.Nodup
import Mathlib.Data.List.ReduceOption
import Mathlib.Logic.Function.Basic
import Mathlib.Tactic.Common

set_option autoImplicit false

namespace Pintos

universe u v

/-- A free slot, or a key with its value. -/
abbrev Slot (κ : Type u) (ν : Type v) := Option (κ × ν)

section SlotTable

variable {κ : Type u} {ν : Type v} {t : List (Slot κ ν)} {k k' : κ} {x y : ν} {i j : ℕ}

/-- The slot holds this key. -/
def keyed [DecidableEq κ] (k : κ) : Slot κ ν → Bool
  | none => false
  | some e => e.1 = k

/-- The value of a key. -/
def lookup_slot [DecidableEq κ] (t : List (Slot κ ν)) (k : κ) : Option ν :=
    (t.find? (keyed k)).join.map Prod.snd

/-- Where the next key goes. -/
def free_slot (t : List (Slot κ ν)) : ℕ := t.findIdx Option.isNone

/-- A key is stored: in the first free slot, or behind the last one. -/
def store_slot (t : List (Slot κ ν)) (e : κ × ν) : List (Slot κ ν) :=
  if free_slot t < t.length then t.set (free_slot t) (some e) else t ++ [some e]

/-- The slot of a key is freed. -/
def erase_slot [DecidableEq κ] (t : List (Slot κ ν)) (k : κ) : List (Slot κ ν) :=
    t.set (t.findIdx (keyed k)) none

/-- No key has two slots. -/
def KeysDistinct (t : List (Slot κ ν)) : Prop :=
  ∀ (i j : ℕ) (k : κ) (x y : ν), t[i]? = some (some (k, x)) → t[j]? = some (some (k, y)) → i = j

theorem keyed_some [DecidableEq κ] {e : κ × ν} : keyed k (some e) = true ↔ e.1 = k := by
  simp [keyed]

theorem free_slot_le : free_slot t ≤ t.length := List.findIdx_le_length

/-- The slot a key is stored in was free, or there was none. -/
theorem getElem?_free_slot : t[free_slot t]?.join = none := by
  by_cases h : free_slot t < t.length
  · have hfree := List.findIdx_getElem (w := h)
    rw [Option.isNone_iff_eq_none] at hfree
    rw [List.getElem?_eq_getElem h]
    exact hfree
  · rw [List.getElem?_eq_none (Nat.le_of_not_lt h)]
    rfl

/-! ## Every slot keeps its place -/

theorem getElem?_store_slot (e : κ × ν) (i : ℕ) :
    (store_slot t e)[i]? = if i = free_slot t then some (some e) else t[i]? := by
  have hle := free_slot_le (t := t)
  unfold store_slot
  split
  · rename_i hlt
    rw [List.getElem?_set]
    by_cases hi : i = free_slot t
    · rw [if_pos hi, if_pos hi.symm, if_pos (hi ▸ hlt)]
    · rw [if_neg hi, if_neg fun h => hi h.symm]
  · have heq : free_slot t = t.length := by omega
    rw [heq]
    rcases Nat.lt_trichotomy i t.length with hlt | rfl | hgt
    · rw [List.getElem?_append_left hlt, if_neg (Nat.ne_of_lt hlt)]
    · rw [List.getElem?_concat_length, if_pos rfl]
    · rw [if_neg (Nat.ne_of_gt hgt), List.getElem?_eq_none,
        List.getElem?_eq_none (Nat.le_of_lt hgt)]
      rw [List.length_append, List.length_singleton]
      exact hgt

section Erase

variable [DecidableEq κ]

theorem getElem?_erase_slot (k : κ) (i : ℕ) : (erase_slot t k)[i]?
    = if i = t.findIdx (keyed k) then t[i]?.map fun _ => none else t[i]? := by
  unfold erase_slot
  rw [List.getElem?_set]
  by_cases hi : i = t.findIdx (keyed k)
  · rw [if_pos hi.symm, if_pos hi, ← hi]
    by_cases hlt : i < t.length
    · rw [if_pos hlt, List.getElem?_eq_getElem hlt]
      rfl
    · rw [if_neg hlt, List.getElem?_eq_none (Nat.le_of_not_lt hlt)]
      rfl
  · rw [if_neg hi, if_neg fun h => hi h.symm]

/-- What is still there after a key has been removed. -/
theorem erase_slot_kept {e : κ × ν} : (erase_slot t k)[i]? = some (some e)
    ↔ i ≠ t.findIdx (keyed k) ∧ t[i]? = some (some e) := by
  rw [getElem?_erase_slot]
  by_cases hi : i = t.findIdx (keyed k)
  · rw [if_pos hi]
    cases h : t[i]? with
    | none => simp [hi]
    | some s => simp [hi]
  · rw [if_neg hi]
    exact ⟨fun h => ⟨hi, h⟩, fun h => h.2⟩

theorem erase_slot_length : (erase_slot t k).length = t.length := List.length_set

end Erase

theorem length_le_store_slot (e : κ × ν) : t.length ≤ (store_slot t e).length := by
  unfold store_slot
  split
  · exact Nat.le_of_eq List.length_set.symm
  · rw [List.length_append]
    exact Nat.le_add_right _ _

/-! ## The map -/

variable [DecidableEq κ]

/-- A key has a value when it is in a slot. -/
theorem lookup_slot_eq_some (hd : KeysDistinct t) :
    lookup_slot t k = some x ↔ ∃ i : ℕ, t[i]? = some (some (k, x)) := by
  unfold lookup_slot
  constructor
  · intro h
    cases hf : t.find? (keyed k) with
    | none =>
        rw [hf] at h
        cases h
    | some s =>
        rw [hf] at h
        cases s with
        | none => cases h
        | some e =>
            have hk := keyed_some.mp (List.find?_some hf)
            obtain ⟨i, hi⟩ := List.mem_iff_getElem?.mp (List.mem_of_find?_eq_some hf)
            have hx : e.2 = x := Option.some.inj h
            exact ⟨i, by rw [hi, ← hk, ← hx]⟩
  · rintro ⟨i, hi⟩
    have hmem : some (k, x) ∈ t := List.mem_iff_getElem?.mpr ⟨i, hi⟩
    have hsome : (t.find? (keyed k)).isSome := List.find?_isSome.mpr ⟨_, hmem, keyed_some.mpr rfl⟩
    obtain ⟨s, hs⟩ := Option.isSome_iff_exists.mp hsome
    cases s with
    | none => exact absurd (List.find?_some hs) (by simp [keyed])
    | some e =>
        have hk := keyed_some.mp (List.find?_some hs)
        obtain ⟨j, hj⟩ := List.mem_iff_getElem?.mp (List.mem_of_find?_eq_some hs)
        have hij : j = i := hd j i k e.2 x (by rw [hj, ← hk]) hi
        rw [hij, hi] at hj
        rw [hs, ← Option.some.inj hj]
        rfl

theorem lookup_slot_eq_none (hd : KeysDistinct t) :
    lookup_slot t k = none ↔ ∀ (i : ℕ) (x : ν), t[i]? ≠ some (some (k, x)) := by
  constructor
  · intro h i x hi
    rw [(lookup_slot_eq_some hd).mpr ⟨i, hi⟩] at h
    cases h
  · intro h
    rw [Option.eq_none_iff_forall_ne_some]
    intro x hx
    obtain ⟨i, hi⟩ := (lookup_slot_eq_some hd).mp hx
    exact h i x hi

/-- The slot that is freed is the key's. -/
theorem findIdx_keyed (hd : KeysDistinct t) (hi : t[i]? = some (some (k, x))) :
    t.findIdx (keyed k) = i := by
  have hmem : some (k, x) ∈ t := List.mem_iff_getElem?.mpr ⟨i, hi⟩
  have hlt : t.findIdx (keyed k) < t.length :=
    List.findIdx_lt_length_of_exists ⟨_, hmem, keyed_some.mpr rfl⟩
  have hkey := List.findIdx_getElem (w := hlt)
  cases hs : t[t.findIdx (keyed k)] with
  | none =>
      rw [hs] at hkey
      cases hkey
  | some e =>
      rw [hs] at hkey
      apply hd _ i k e.2 x _ hi
      rw [List.getElem?_eq_getElem hlt, hs, ← keyed_some.mp hkey]

theorem KeysDistinct.store (hd : KeysDistinct t) (hnew : lookup_slot t k = none) :
    KeysDistinct (store_slot t (k, x)) := by
  have hno := (lookup_slot_eq_none hd).mp hnew
  intro i j k' y z hi hj
  rw [getElem?_store_slot] at hi hj
  split at hi
  · rename_i hif
    split at hj
    · rename_i hjf
      rw [hif, hjf]
    · obtain ⟨rfl, -⟩ := Prod.mk.inj (Option.some.inj (Option.some.inj hi))
      exact absurd hj (hno j z)
  · split at hj
    · obtain ⟨rfl, -⟩ := Prod.mk.inj (Option.some.inj (Option.some.inj hj))
      exact absurd hi (hno i y)
    · exact hd i j k' y z hi hj

theorem KeysDistinct.erase (hd : KeysDistinct t) (k : κ) : KeysDistinct (erase_slot t k) :=
  fun i j k' x y hi hj => hd i j k' x y (erase_slot_kept.mp hi).2 (erase_slot_kept.mp hj).2

/-- **Storing a new key.** -/
theorem lookup_slot_store (hd : KeysDistinct t) (hnew : lookup_slot t k = none) :
    lookup_slot (store_slot t (k, x)) = Function.update (lookup_slot t) k (some x) := by
  have hd' := hd.store (x := x) hnew
  funext k'
  by_cases hk : k' = k
  · rw [hk, Function.update_self, lookup_slot_eq_some hd']
    exact ⟨free_slot t, by rw [getElem?_store_slot, if_pos rfl]⟩
  · rw [Function.update_of_ne hk]
    apply Option.ext
    intro y
    rw [lookup_slot_eq_some hd', lookup_slot_eq_some hd]
    constructor
    · rintro ⟨i, hi⟩
      rw [getElem?_store_slot] at hi
      split at hi
      · exact absurd (Prod.mk.inj (Option.some.inj (Option.some.inj hi))).1.symm hk
      · exact ⟨i, hi⟩
    · rintro ⟨i, hi⟩
      refine ⟨i, ?_⟩
      rw [getElem?_store_slot, if_neg, hi]
      -- the slot stored into was free
      rintro rfl
      have hfree := getElem?_free_slot (t := t)
      rw [hi] at hfree
      cases hfree

/-- **Removing a key.** -/
theorem lookup_slot_erase (hd : KeysDistinct t) (k : κ) :
    lookup_slot (erase_slot t k) = Function.update (lookup_slot t) k none := by
  have hd' := hd.erase k
  funext k'
  by_cases hk : k' = k
  · rw [hk, Function.update_self, lookup_slot_eq_none hd']
    intro i x hi
    obtain ⟨hne, hold⟩ := erase_slot_kept.mp hi
    exact hne (findIdx_keyed hd hold).symm
  · rw [Function.update_of_ne hk]
    apply Option.ext
    intro y
    rw [lookup_slot_eq_some hd', lookup_slot_eq_some hd]
    constructor
    · rintro ⟨i, hi⟩
      exact ⟨i, (erase_slot_kept.mp hi).2⟩
    · rintro ⟨i, hi⟩
      refine ⟨i, erase_slot_kept.mpr ⟨?_, hi⟩⟩
      -- the slot that is freed has another key
      rintro rfl
      obtain ⟨hlt, hval⟩ := List.getElem?_eq_some_iff.mp hi
      have hkey := List.findIdx_getElem (w := hlt)
      rw [hval, keyed_some] at hkey
      exact hk hkey

end SlotTable

/-! ## The keys in the order of their slots -/

section Keys

variable {κ : Type u} {ν : Type v} {t : List (Slot κ ν)} {k : κ} {x : ν} {P : κ → Bool} {i n : ℕ}

/-- The keys of a table. -/
def slot_keys (t : List (Slot κ ν)) : List κ := t.reduceOption.map Prod.fst

/-- A slot, for somebody who looks for the keys of `P` alone. -/
def only (P : κ → Bool) (s : Slot κ ν) : Slot κ ν := s.filter fun e => P e.1

theorem mem_slot_keys : k ∈ slot_keys t ↔ ∃ (i : ℕ) (x : ν), t[i]? = some (some (k, x)) := by
  unfold slot_keys
  rw [List.mem_map]
  constructor
  · rintro ⟨⟨k, x⟩, he, rfl⟩
    obtain ⟨i, hi⟩ := List.mem_iff_getElem?.mp (List.reduceOption_mem_iff.mp he)
    exact ⟨i, x, hi⟩
  · rintro ⟨i, x, hi⟩
    exact ⟨(k, x), List.reduceOption_mem_iff.mpr (List.mem_iff_getElem?.mpr ⟨i, hi⟩), rfl⟩

theorem slot_keys_append (t t' : List (Slot κ ν)) :
    slot_keys (t ++ t') = slot_keys t ++ slot_keys t' := by
  unfold slot_keys
  rw [List.reduceOption_append, List.map_append]

/-- Some of the keys, in the order they have. -/
theorem slot_keys_filter (P : κ → Bool) (t : List (Slot κ ν)) :
    (slot_keys t).filter P = slot_keys (t.map (only P)) := by
  induction t with
  | nil => rfl
  | cons s t ih =>
      cases s with
      | none => exact ih
      | some e =>
          have hl : slot_keys (some e :: t) = e.1 :: slot_keys t := rfl
          rw [hl, List.filter_cons, List.map_cons]
          by_cases hP : P e.1
          · have hs : only P (some e) = some e := Option.filter_some_pos hP
            rw [if_pos hP, hs, ih]
            rfl
          · have hs : only P (some e) = none := Option.filter_some_neg (by simpa using hP)
            rw [if_neg hP, hs, ih]
            rfl

/-- The keys are distinct as a list. -/
theorem KeysDistinct.nodup (hd : KeysDistinct t) : (slot_keys t).Nodup := by
  induction t with
  | nil => exact List.nodup_nil
  | cons s t ih =>
      have htail : KeysDistinct t := fun i j k x y hi hj =>
        Nat.succ.inj (hd (i + 1) (j + 1) k x y hi hj)
      cases s with
      | none => exact ih htail
      | some e =>
          apply List.nodup_cons.mpr ⟨?_, ih htail⟩
          intro hmem
          obtain ⟨i, x, hi⟩ := mem_slot_keys.mp hmem
          have := hd 0 (i + 1) e.1 e.2 x rfl hi
          omega

/-- A slot is changed, and neither before nor after it holds a key of `P`. -/
theorem filter_keys_set {s : Slot κ ν} (hs : only P s = none)
    (hold : ∀ e, t[i]? = some (some e) → P e.1 = false) (n : ℕ) :
    (slot_keys ((t.set i s).take n)).filter P = (slot_keys (t.take n)).filter P := by
  have hsame : (t.set i s).map (only P) = t.map (only P) := by
    apply List.ext_getElem?
    intro j
    rw [List.getElem?_map, List.getElem?_map, List.getElem?_set]
    by_cases hij : i = j
    · rw [if_pos hij]
      by_cases hlt : i < t.length
      · rw [if_pos hlt, ← hij, List.getElem?_eq_getElem hlt]
        simp only [Option.map_some, hs]
        cases hti : t[i] with
        | none => rfl
        | some e =>
            have hP := hold e (by rw [List.getElem?_eq_getElem hlt, hti])
            have hgone : only P (some e) = none := Option.filter_some_neg hP
            rw [hgone]
      · rw [if_neg hlt, List.getElem?_eq_none (by omega)]
    · rw [if_neg hij]
  rw [slot_keys_filter, slot_keys_filter, List.map_take, List.map_take, hsame]

theorem filter_keys_store (hP : P k = false) (hn : n ≤ t.length) :
    (slot_keys ((store_slot t (k, x)).take n)).filter P = (slot_keys (t.take n)).filter P := by
  unfold store_slot
  split
  · apply filter_keys_set (Option.filter_some_neg hP)
    intro e he
    have hfree := getElem?_free_slot (t := t)
    rw [he] at hfree
    cases hfree
  · rw [List.take_append_of_le_length hn]

theorem filter_keys_erase [DecidableEq κ] (hP : P k = false) (n : ℕ) :
    (slot_keys ((erase_slot t k).take n)).filter P = (slot_keys (t.take n)).filter P := by
  apply filter_keys_set rfl
  intro e he
  obtain ⟨hlt, hval⟩ := List.getElem?_eq_some_iff.mp he
  have hkey := List.findIdx_getElem (w := hlt)
  rw [hval, keyed_some] at hkey
  rw [hkey, hP]

end Keys

/-! ## Walking along the slots -/

section Walk

variable {κ : Type u} {ν : Type v} {t : List (Slot κ ν)} {P : κ → Bool}

/-- Where the next key is, from `pos` on. -/
def next_key (t : List (Slot κ ν)) (pos : ℕ) : ℕ := pos + (t.drop pos).findIdx Option.isSome

/-- What has been seen of the keys of `P` is what lies in front of the position. -/
structure Walk.Seen (P : κ → Bool) (t : List (Slot κ ν)) (pos : ℕ) (seen : List κ) : Prop where
  pos_le : pos ≤ t.length
  seen_eq : seen.filter P = (slot_keys (t.take pos)).filter P

theorem next_key_le {pos : ℕ} (hpos : pos ≤ t.length) : next_key t pos ≤ t.length := by
  have hle : (t.drop pos).findIdx Option.isSome ≤ (t.drop pos).length := List.findIdx_le_length
  rw [List.length_drop] at hle
  unfold next_key
  omega

/-- Between the position and the next key the slots are free. -/
theorem slot_keys_take_next (pos : ℕ) :
    slot_keys (t.take (next_key t pos)) = slot_keys (t.take pos) := by
  have hfree : slot_keys ((t.drop pos).take ((t.drop pos).findIdx Option.isSome)) = [] := by
    rw [List.eq_nil_iff_forall_not_mem]
    intro k hk
    obtain ⟨i, x, hi⟩ := mem_slot_keys.mp hk
    rw [List.getElem?_take] at hi
    split at hi
    · rename_i hlt
      obtain ⟨hin, hval⟩ := List.getElem?_eq_some_iff.mp hi
      have := List.not_of_lt_findIdx hlt
      rw [hval] at this
      cases this
    · cases hi
  rw [next_key, List.take_add, slot_keys_append, hfree, List.append_nil]

namespace Walk.Seen

variable {pos : ℕ} {seen : List κ}

theorem start (P : κ → Bool) (t : List (Slot κ ν)) : Seen P t 0 [] where
  pos_le := Nat.zero_le _
  seen_eq := rfl

/-- Past free slots. -/
theorem skip (h : Seen P t pos seen) : Seen P t (next_key t pos) seen where
  pos_le := next_key_le h.pos_le
  seen_eq := by rw [h.seen_eq, slot_keys_take_next]

/-- One key further. -/
theorem next {k : κ} {x : ν} (h : Seen P t pos seen)
    (hk : t[next_key t pos]? = some (some (k, x))) :
    Seen P t (next_key t pos + 1) (seen ++ [k]) := by
  obtain ⟨hlt, hval⟩ := List.getElem?_eq_some_iff.mp hk
  refine ⟨hlt, ?_⟩
  rw [List.take_add_one, hk, slot_keys_append, slot_keys_take_next, List.filter_append,
    List.filter_append, h.seen_eq]
  rfl

/-- A key is stored that is none of `P`. -/
theorem store {k : κ} {x : ν} (h : Seen P t pos seen) (hP : P k = false) :
    Seen P (store_slot t (k, x)) pos seen where
  pos_le := Nat.le_trans h.pos_le (length_le_store_slot _)
  seen_eq := by rw [h.seen_eq, filter_keys_store hP h.pos_le]

theorem erase [DecidableEq κ] {k : κ} (h : Seen P t pos seen) (hP : P k = false) :
    Seen P (erase_slot t k) pos seen where
  pos_le := by rw [erase_slot_length]; exact h.pos_le
  seen_eq := by rw [h.seen_eq, filter_keys_erase hP]

/-- **At the end** all keys of `P` have been seen, in the order of their slots. -/
theorem complete (h : Seen P t pos seen) (hend : t.length ≤ next_key t pos) :
    seen.filter P = (slot_keys t).filter P := by
  rw [h.seen_eq, ← slot_keys_take_next, List.take_of_length_le hend]

/-- Each of them once. -/
theorem count_eq_one [BEq κ] [LawfulBEq κ] {k : κ} (h : Seen P t pos seen) (hd : KeysDistinct t)
    (hend : t.length ≤ next_key t pos) (hP : P k = true) (hk : k ∈ slot_keys t) :
    seen.count k = 1 := by
  rw [← List.count_filter hP, h.complete hend, List.count_filter hP]
  exact List.count_eq_one_of_mem hd.nodup hk

end Walk.Seen

end Walk

end Pintos
