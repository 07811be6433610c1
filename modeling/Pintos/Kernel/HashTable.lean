/-
A hash table is a finite map.

What a table holds is a set of elements of which no two compare equal; each is in the bucket
that its hash, masked, names. Growing and shrinking move every element to the bucket that the
new mask names, and keep the set.
-/
import Pintos.Kernel.Hash
import Mathlib.Data.Finset.Card
import Mathlib.Data.Nat.Bitwise
import Mathlib.Data.Nat.Log
import Mathlib.Order.RelClasses

set_option autoImplicit false

namespace Pintos.klib

open Buckets

/-! ## Powers of two -/

section Power

variable {k x fuel : ℕ}

theorem turn_off_two_pow (k : ℕ) : turn_off_least_1bit (2 ^ k) = 0 := by
  unfold turn_off_least_1bit
  rw [Nat.and_two_pow_sub_one_eq_mod, Nat.mod_self]

/-- Another bit than the highest is turned off. -/
theorem le_turn_off (hlo : 2 ^ k < x) (hhi : x < 2 ^ (k + 1)) :
    2 ^ k ≤ turn_off_least_1bit x ∧ turn_off_least_1bit x < x := by
  have hbit : ∀ {y}, 2 ^ k ≤ y → y < 2 ^ (k + 1) → y.testBit k = true := by
    intro y h₁ h₂
    rw [Nat.testBit_eq_decide_div_mod_eq, decide_eq_true_eq]
    have hdiv : y / 2 ^ k = 1 := by
      rw [Nat.div_eq_iff (Nat.two_pow_pos k)]
      rw [pow_succ] at h₂
      omega
    rw [hdiv]
  constructor
  · apply Nat.ge_two_pow_of_testBit
    unfold turn_off_least_1bit
    rw [Nat.testBit_and, hbit hlo.le hhi, hbit (by omega) (by omega)]
    rfl
  · have hle : turn_off_least_1bit x ≤ x - 1 := Nat.and_le_right
    omega

/-- **The loop** ends at the highest bit. -/
theorem round_to_power_eq (hlo : 2 ^ k ≤ x) (hhi : x < 2 ^ (k + 1)) (hf : x < fuel) :
    round_to_power fuel x = .ok (2 ^ k) := by
  induction fuel generalizing x with
  | zero => omega
  | succ fuel ih =>
      rw [round_to_power]
      rcases Nat.eq_or_lt_of_le hlo with rfl | hlt
      · rw [if_neg (not_not.mpr ⟨(Nat.two_pow_pos k).ne', turn_off_two_pow k⟩)]
        rfl
      · obtain ⟨hle, hdown⟩ := le_turn_off hlt hhi
        have hpos : 0 < 2 ^ k := Nat.two_pow_pos k
        rw [if_pos (fun h => by have := h.2; omega)]
        exact ih hle (by omega) (by omega)

end Power

/-! ## Tables -/

section Table

variable {α : Type} {hash_func : α → UInt64} {less : α → α → Prop} [DecidableRel less]
  {h h' : hash α} {S : Finset α} {memory : Bool} {e x y : α}

/-- The elements of a table. -/
def hash.elems (h : hash α) : List α := all h.buckets h.bucket_cnt

variable (less) in
/-- Neither is less. -/
def Alike (x y : α) : Prop := ¬ less x y ∧ ¬ less y x

variable (hash_func) in
/-- There are enough buckets, and each element is in the bucket that its hash names. -/
structure Hashed (h : hash α) : Prop where
  power : ∃ k, 2 ≤ k ∧ h.bucket_cnt = 2 ^ k
  bucket : ∀ i < h.bucket_cnt, ∀ e ∈ h.buckets i, find_bucket hash_func h e = i

variable (hash_func less) in
/-- The table holds the elements of `S`. -/
structure Holds (h : hash α) (S : Finset α) : Prop where
  hashed : Hashed hash_func h
  nodup : h.elems.Nodup
  mem : ∀ x, x ∈ h.elems ↔ x ∈ S
  apart : ∀ x ∈ S, ∀ y ∈ S, Alike less x y → x = y
  count : h.elem_cnt = S.card

variable (less) in
/-- The only element of `S` that is like `e`, or that there is none. -/
def Reports (S : Finset α) (e : α) : Option α → Prop
  | none => ∀ z ∈ S, ¬ Alike less z e
  | some y => y ∈ S ∧ ∀ z ∈ S, Alike less z e ↔ z = y

theorem find_elem_spec (less : α → α → Prop) [DecidableRel less] (e : α) (l : List α) :
    (find_elem less e l = none ∧ ∀ y ∈ l, ¬ Alike less y e)
      ∨ ∃ y ∈ l, find_elem less e l = some y ∧ Alike less y e := by
  induction l with
  | nil => exact .inl ⟨rfl, by simp⟩
  | cons hi l ih =>
      unfold find_elem
      by_cases hlike : ¬ less hi e ∧ ¬ less e hi
      · exact .inr ⟨hi, List.mem_cons_self .., if_pos hlike, hlike⟩
      · rw [if_neg hlike]
        rcases ih with ⟨hnone, hno⟩ | ⟨y, hy, hsome, hlike'⟩
        · refine .inl ⟨hnone, fun y hy => ?_⟩
          rcases List.mem_cons.mp hy with rfl | hy
          · exact hlike
          · exact hno y hy
        · exact .inr ⟨y, List.mem_cons_of_mem _ hy, hsome, hlike'⟩

theorem find_bucket_eq {k : ℕ} (hk : h.bucket_cnt = 2 ^ k) :
    find_bucket hash_func h e = (hash_func e).toNat % 2 ^ k := by
  unfold find_bucket
  rw [hk, Nat.and_two_pow_sub_one_eq_mod]

theorem Hashed.find_bucket_lt (hs : Hashed hash_func h) :
    find_bucket hash_func h e < h.bucket_cnt := by
  obtain ⟨k, -, hk⟩ := hs.power
  rw [find_bucket_eq hk, hk]
  exact Nat.mod_lt _ (Nat.two_pow_pos k)

theorem Hashed.bucket_eq (hs : Hashed hash_func h) : h.bucket (find_bucket hash_func h e)
    = .ok (h.buckets (find_bucket hash_func h e)) := if_pos hs.find_bucket_lt

/-- A stored element is in the bucket that its hash names, and in no other. -/
theorem Hashed.mem_elems (hs : Hashed hash_func h) :
    e ∈ h.elems ↔ e ∈ h.buckets (find_bucket hash_func h e) := by
  unfold hash.elems
  rw [mem_all]
  constructor
  · rintro ⟨i, hi, he⟩
    rwa [hs.bucket i hi e he]
  · exact fun he => ⟨_, hs.find_bucket_lt, he⟩

/-! ## Changing the number of buckets -/

/-- **`list_push_front`** into the bucket that the hash names. -/
theorem Hashed.push_front (hs : Hashed hash_func h) (e : α) :
    ∃ h', h.push_front (find_bucket hash_func h e) e = .ok h' ∧ Hashed hash_func h'
      ∧ h'.bucket_cnt = h.bucket_cnt ∧ h'.elem_cnt = h.elem_cnt ∧ h'.elems.Perm (e :: h.elems) := by
  let i := find_bucket hash_func h e
  let h' : hash α := { h with buckets := Function.update h.buckets i (e :: h.buckets i) }
  have hsame : ∀ x, find_bucket hash_func h' x = find_bucket hash_func h x := fun _ => rfl
  refine ⟨h', ?_, ⟨hs.power, fun j hj x hx => ?_⟩, rfl, rfl, all_push hs.find_bucket_lt⟩
  · unfold hash.push_front
    rw [hs.bucket_eq]
    rfl
  · rw [hsame]
    by_cases hji : j = i
    · subst hji
      have hx : x ∈ Function.update h.buckets i (e :: h.buckets i) i := hx
      rw [Function.update_self] at hx
      rcases List.mem_cons.mp hx with rfl | hx
      · rfl
      · exact hs.bucket i hj x hx
    · have hx : x ∈ Function.update h.buckets i (e :: h.buckets i) j := hx
      rw [Function.update_of_ne hji] at hx
      exact hs.bucket j hj x hx

theorem move_elems_eq (hs : Hashed hash_func h) (l : List α) :
    ∃ h', move_elems hash_func l h = .ok h' ∧ Hashed hash_func h' ∧ h'.bucket_cnt = h.bucket_cnt
      ∧ h'.elem_cnt = h.elem_cnt ∧ h'.elems.Perm (l ++ h.elems) := by
  induction l generalizing h with
  | nil => exact ⟨h, rfl, hs, rfl, rfl, .refl _⟩
  | cons e l ih =>
      obtain ⟨h₁, hpush, hs₁, hcnt₁, helem₁, hperm₁⟩ := hs.push_front e
      obtain ⟨h', hmove, hs', hcnt, helem, hperm⟩ := ih hs₁
      refine ⟨h', ?_, hs', hcnt.trans hcnt₁, helem.trans helem₁, ?_⟩
      · rw [move_elems, hpush]
        exact hmove
      · exact hperm.trans ((hperm₁.append_left l).trans List.perm_middle)

theorem move_buckets_eq (hs : Hashed hash_func h) (old : ℕ → List α) (n i : ℕ) :
    ∃ h', move_buckets hash_func old n i h = .ok h' ∧ Hashed hash_func h'
      ∧ h'.bucket_cnt = h.bucket_cnt ∧ h'.elem_cnt = h.elem_cnt
      ∧ (all old i ++ h'.elems).Perm (all old (i + n) ++ h.elems) := by
  induction n generalizing h i with
  | zero => exact ⟨h, rfl, hs, rfl, rfl, .refl _⟩
  | succ n ih =>
      obtain ⟨h₁, hmove₁, hs₁, hcnt₁, helem₁, hperm₁⟩ := move_elems_eq hs (old i)
      obtain ⟨h', hmove, hs', hcnt, helem, hperm⟩ := ih hs₁ (i + 1)
      refine ⟨h', ?_, hs', hcnt.trans hcnt₁, helem.trans helem₁, ?_⟩
      · rw [move_buckets, hmove₁]
        exact hmove
      · have hsum : i + 1 + n = i + (n + 1) := by omega
        rw [hsum, all_succ, List.append_assoc] at hperm
        -- the elements of bucket `i` are on both sides
        have hboth := hperm.trans (hperm₁.append_left _)
        apply (List.perm_append_left_iff (old i)).mp
        exact (List.perm_append_comm_assoc _ _ _).trans
          (hboth.trans (List.perm_append_comm_assoc _ _ _))

omit [DecidableRel less] in
/-- **`rehash`** keeps what the table holds. -/
theorem Holds.rehashed (hh : Holds hash_func less h S) (memory : Bool) :
    ∃ h', rehash hash_func memory h = .ok h' ∧ Holds hash_func less h' S := by
  let x := if h.elem_cnt / BEST_ELEMS_PER_BUCKET < 4 then 4 else h.elem_cnt / BEST_ELEMS_PER_BUCKET
  have hx : 4 ≤ x := by
    show 4 ≤ if h.elem_cnt / 2 < 4 then 4 else h.elem_cnt / 2
    split <;> omega
  have hlo : 2 ^ x.log2 ≤ x := Nat.log2_self_le (by omega)
  have hround : round_to_power (x + 1) x = .ok (2 ^ x.log2) :=
    round_to_power_eq hlo Nat.lt_log2_self (Nat.lt_succ_self x)
  have hk : 2 ≤ x.log2 := (Nat.le_log2 (by omega)).mpr hx
  unfold rehash
  show ∃ h', (round_to_power (x + 1) x >>= _) = _ ∧ _
  rw [hround, Outcome.ok_bind]
  by_cases hsame : 2 ^ x.log2 = h.bucket_cnt
  · exact ⟨h, if_pos hsame, hh⟩
  · rw [if_neg hsame]
    by_cases hnone : memory = false ∨ 32 * 2 ^ x.log2 % 2 ^ 64 = 0
    · exact ⟨h, if_pos hnone, hh⟩
    · rw [if_neg hnone]
      let fresh : hash α := { h with bucket_cnt := 2 ^ x.log2, buckets := fun _ => [] }
      have hfresh : Hashed hash_func fresh := ⟨⟨x.log2, hk, rfl⟩, fun _ _ e he => by cases he⟩
      obtain ⟨h', hrun, hs', hcnt, helem, hperm⟩ := move_buckets_eq hfresh h.buckets h.bucket_cnt 0
      have hempty : fresh.elems = [] := all_nil _
      rw [hempty, List.append_nil, Nat.zero_add] at hperm
      have hperm : h'.elems.Perm h.elems := hperm
      refine ⟨h', hrun, hs', hperm.nodup_iff.mpr hh.nodup, fun y => ?_, hh.apart, ?_⟩
      · rw [hperm.mem_iff]
        exact hh.mem y
      · exact helem.trans hh.count

/-! ## Adding and removing -/

variable [DecidableEq α]

omit [DecidableRel less] in
/-- **`insert_elem`** of an element that is like none. -/
theorem Holds.inserted (hh : Holds hash_func less h S) (hno : ∀ y ∈ S, ¬ Alike less y e)
    (hself : Alike less e e) :
    ∃ h', insert_elem h (find_bucket hash_func h e) e = .ok h'
      ∧ Holds hash_func less h' (insert e S) := by
  let h₁ : hash α := { h with elem_cnt := h.elem_cnt + 1 }
  have hs₁ : Hashed hash_func h₁ := ⟨hh.hashed.power, hh.hashed.bucket⟩
  obtain ⟨h', hrun, hs', hcnt, helem, hperm⟩ := hs₁.push_front e
  have hperm : h'.elems.Perm (e :: h.elems) := hperm
  have hnot : e ∉ S := fun he => hno e he hself
  refine ⟨h', hrun, hs', ?_, fun y => ?_, fun y hy z hz hlike => ?_, ?_⟩
  · rw [hperm.nodup_iff]
    exact List.nodup_cons.mpr ⟨fun he => hnot ((hh.mem e).mp he), hh.nodup⟩
  · rw [hperm.mem_iff, List.mem_cons, Finset.mem_insert, hh.mem]
  · rcases Finset.mem_insert.mp hy with rfl | hy'
    · rcases Finset.mem_insert.mp hz with rfl | hz'
      · rfl
      · exact absurd hlike.symm (hno z hz')
    · rcases Finset.mem_insert.mp hz with rfl | hz'
      · exact absurd hlike (hno y hy')
      · exact hh.apart y hy' z hz' hlike
  · rw [helem, Finset.card_insert_of_notMem hnot]
    show h.elem_cnt + 1 = _
    rw [hh.count]

omit [DecidableRel less] in
/-- **`remove_elem`** of a stored element. -/
theorem Holds.removed (hh : Holds hash_func less h S) (he : e ∈ S) :
    Holds hash_func less (remove_elem h e) (S.erase e) := by
  have hin := hh.hashed.mem_elems.mp ((hh.mem e).mpr he)
  have hperm : (e :: (remove_elem h e).elems).Perm h.elems :=
    all_erase hh.hashed.find_bucket_lt hin fun j hj hej => (hh.hashed.bucket j hj e hej).symm
  have hnd := hperm.nodup_iff.mpr hh.nodup
  obtain ⟨hnot, hnd⟩ := List.nodup_cons.mp hnd
  refine ⟨⟨hh.hashed.power, fun i hi y hy => ?_⟩, hnd, fun y => ?_, fun y hy z hz hlike => ?_, ?_⟩
  · exact hh.hashed.bucket i hi y (List.mem_of_mem_erase hy)
  · rw [Finset.mem_erase, ← hh.mem, ← hperm.mem_iff, List.mem_cons]
    constructor
    · intro hy
      refine ⟨?_, .inr hy⟩
      rintro rfl
      exact hnot hy
    · rintro ⟨hne, rfl | hy⟩
      · exact absurd rfl hne
      · exact hy
  · exact hh.apart y (Finset.mem_of_mem_erase hy) z (Finset.mem_of_mem_erase hz) hlike
  · rw [Finset.card_erase_of_mem he, ← hh.count]
    rfl

/-! ## The calls -/

section Calls

variable [IsStrictWeakOrder α less] (hcompat : ∀ a b, Alike less a b → hash_func a = hash_func b)

omit [DecidableRel less] [DecidableEq α] in
theorem alike_self (e : α) : Alike less e e := ⟨irrefl_of less e, irrefl_of less e⟩

omit [DecidableRel less] [DecidableEq α] in
/-- Two that are like a third are alike. -/
theorem Alike.trans_symm {z : α} (hxz : Alike less x z) (hyz : Alike less y z) : Alike less x y :=
  IsStrictWeakOrder.incomp_trans x z y hxz hyz.symm

include hcompat

omit [DecidableEq α] in
/-- **Searching a bucket** finds what is stored. -/
theorem Holds.find (hh : Holds hash_func less h S) (e : α) :
    Reports less S e (find_elem less e (h.buckets (find_bucket hash_func h e))) := by
  rcases find_elem_spec less e (h.buckets (find_bucket hash_func h e))
    with ⟨hnone, hno⟩ | ⟨y, hy, hsome, hlike⟩
  · rw [hnone]
    intro y hy hlike
    have hy := hh.hashed.mem_elems.mp ((hh.mem y).mpr hy)
    have hsame : find_bucket hash_func h y = find_bucket hash_func h e := by
      unfold find_bucket
      rw [hcompat y e hlike]
    rw [hsame] at hy
    exact hno y hy hlike
  · have hin : y ∈ S := (hh.mem y).mp (mem_all.mpr ⟨_, hh.hashed.find_bucket_lt, hy⟩)
    rw [hsome]
    refine ⟨hin, fun z hz => ⟨fun hlike' => ?_, ?_⟩⟩
    · exact hh.apart z hz y hin (hlike'.trans_symm hlike)
    · rintro rfl
      exact hlike

omit [DecidableEq α] in
/-- **`hash_find`.** -/
theorem Holds.hash_find_eq (hh : Holds hash_func less h S) (e : α) :
    ∃ r, hash_find hash_func less h e = .ok r ∧ Reports less S e r := by
  refine ⟨_, ?_, hh.find hcompat e⟩
  unfold hash_find
  rw [hh.hashed.bucket_eq]
  rfl

/-- **`hash_insert`** reports the element that is like the new one, or stores the new one. -/
theorem Holds.hash_insert_eq (hh : Holds hash_func less h S) (memory : Bool) (new : α) :
    ∃ h' r, hash_insert hash_func less memory h new = .ok (h', r) ∧ Reports less S new r
      ∧ Holds hash_func less h' (match r with | some _ => S | none => insert new S) := by
  have hr := hh.find hcompat new
  unfold hash_insert
  simp only [hh.hashed.bucket_eq, Outcome.ok_bind]
  generalize find_elem less new (h.buckets (find_bucket hash_func h new)) = r at hr
  cases r with
  | none =>
      obtain ⟨h₁, hinsert, hh₁⟩ := hh.inserted hr (alike_self new)
      obtain ⟨h', hrehash, hh'⟩ := hh₁.rehashed memory
      refine ⟨h', none, ?_, hr, hh'⟩
      rw [if_pos rfl, hinsert, Outcome.ok_bind, hrehash]
      rfl
  | some old =>
      obtain ⟨h', hrehash, hh'⟩ := hh.rehashed memory
      refine ⟨h', some old, ?_, hr, hh'⟩
      rw [if_neg (Option.some_ne_none old), hrehash]
      rfl

/-- **`hash_replace`** stores the new element in place of the one that is like it. -/
theorem Holds.hash_replace_eq (hh : Holds hash_func less h S) (memory : Bool) (new : α) :
    ∃ h' r, hash_replace hash_func less memory h new = .ok (h', r) ∧ Reports less S new r
      ∧ Holds hash_func less h' (insert new
        (match r with | some old => S.erase old | none => S)) := by
  have hr := hh.find hcompat new
  unfold hash_replace
  simp only [hh.hashed.bucket_eq, Outcome.ok_bind]
  generalize find_elem less new (h.buckets (find_bucket hash_func h new)) = r at hr
  cases r with
  | none =>
      obtain ⟨h₁, hinsert, hh₁⟩ := hh.inserted hr (alike_self new)
      obtain ⟨h', hrehash, hh'⟩ := hh₁.rehashed memory
      refine ⟨h', none, ?_, hr, hh'⟩
      show (insert_elem h (find_bucket hash_func h new) new >>= _) = _
      rw [hinsert, Outcome.ok_bind, hrehash]
      rfl
  | some old =>
      have hremoved := hh.removed hr.1
      have hno : ∀ y ∈ S.erase old, ¬ Alike less y new := by
        intro y hy hlike
        exact Finset.ne_of_mem_erase hy ((hr.2 y (Finset.mem_of_mem_erase hy)).mp hlike)
      obtain ⟨h₁, hinsert, hh₁⟩ := hremoved.inserted hno (alike_self new)
      obtain ⟨h', hrehash, hh'⟩ := hh₁.rehashed memory
      refine ⟨h', some old, ?_, hr, hh'⟩
      -- the bucket was looked up before the old element left
      have hsame : find_bucket hash_func (remove_elem h old) new
          = find_bucket hash_func h new := rfl
      rw [hsame] at hinsert
      show (insert_elem (remove_elem h old) (find_bucket hash_func h new) new >>= _) = _
      rw [hinsert, Outcome.ok_bind, hrehash]
      rfl

/-- **`hash_delete`** takes out the element that is like its argument. -/
theorem Holds.hash_delete_eq (hh : Holds hash_func less h S) (memory : Bool) (e : α) :
    ∃ h' r, hash_delete hash_func less memory h e = .ok (h', r) ∧ Reports less S e r
      ∧ Holds hash_func less h' (match r with | some found => S.erase found | none => S) := by
  have hr := hh.find hcompat e
  unfold hash_delete
  simp only [hh.hashed.bucket_eq, Outcome.ok_bind]
  generalize find_elem less e (h.buckets (find_bucket hash_func h e)) = r at hr
  cases r with
  | none => exact ⟨h, none, rfl, hr, hh⟩
  | some found =>
      obtain ⟨h', hrehash, hh'⟩ := (hh.removed hr.1).rehashed memory
      refine ⟨h', some found, ?_, hr, hh'⟩
      show (rehash hash_func memory (remove_elem h found) >>= _) = _
      rw [hrehash]
      rfl

end Calls

end Table

end Pintos.klib
