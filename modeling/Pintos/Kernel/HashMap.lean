/-
Every history of a hash table.

A history is a list of insertions, replacements and deletions, each with or without memory
for `rehash`. What is stored and what is reported is what the same history does to a finite
set of which no two elements compare equal.
-/
import Pintos.Kernel.HashTable

set_option autoImplicit false

namespace Pintos.klib

open Buckets

/-! ## Iteration -/

section Iteration

variable {α : Type} [DecidableEq α] {h : hash α} {i : hash_iterator α} {l suf rest : List α} {e : α}

/-- What is behind an element of a list. -/
theorem dropWhile_ne_drop {pre : List α} (he : e ∉ pre) :
    (((pre ++ e :: suf).dropWhile fun x => decide (x ≠ e)).drop 1) = suf := by
  induction pre with
  | nil => simp
  | cons x pre ih =>
      obtain ⟨hx, he⟩ := not_or.mp (mt List.mem_cons.mpr he)
      have hne : decide (x ≠ e) = true := decide_eq_true (Ne.symm hx)
      rw [List.cons_append, List.dropWhile_cons, if_pos hne]
      exact ih he

/-- The buckets from `i` on, one behind the other. -/
def hash.rows (h : hash α) (i : ℕ) : List α :=
  (List.range' i (h.bucket_cnt - i)).flatMap h.buckets

omit [DecidableEq α] in
theorem rows_zero (h : hash α) : h.rows 0 = h.elems := by
  unfold hash.rows hash.elems all
  rw [Nat.sub_zero, ← List.range_eq_range']

omit [DecidableEq α] in
theorem rows_lt {b : ℕ} (hb : b < h.bucket_cnt) : h.rows b = h.buckets b ++ h.rows (b + 1) := by
  unfold hash.rows
  have hn : h.bucket_cnt - b = h.bucket_cnt - (b + 1) + 1 := by omega
  rw [hn, List.range'_succ, List.flatMap_cons]

omit [DecidableEq α] in
theorem rows_end {b : ℕ} (hb : h.bucket_cnt ≤ b) : h.rows b = [] := by
  unfold hash.rows
  rw [Nat.sub_eq_zero_of_le hb]
  rfl

variable (h) in
/-- The iterator stands in one of the buckets, and `rest` is still to come. -/
inductive Stands (i : hash_iterator α) (rest : List α) : Prop
  | mk (suf : List α) (lt : i.bucket < h.bucket_cnt) (next : iterator_next h i = .ok suf.head?)
      (suffix : suf <:+ h.buckets i.bucket) (rest_eq : rest = suf ++ h.rows (i.bucket + 1))

/-- Standing at an element. -/
theorem stands_elem {b : ℕ} (hb : b < h.bucket_cnt) (hnd : (h.buckets b).Nodup)
    (hsuf : e :: suf <:+ h.buckets b) :
    Stands h { bucket := b, elem := .elem e } (suf ++ h.rows (b + 1)) := by
  refine ⟨suf, hb, ?_, (List.suffix_cons e suf).trans hsuf, rfl⟩
  obtain ⟨pre, hpre⟩ := hsuf
  have he : e ∉ pre := by
    rw [← hpre] at hnd
    intro hmem
    exact (List.nodup_append.mp hnd).2.2 e hmem e (List.mem_cons_self ..) rfl
  show (h.bucket b >>= _) = _
  unfold hash.bucket
  rw [if_pos hb, Outcome.ok_bind, ← hpre, dropWhile_ne_drop he]
  rfl

/-- **The loop of `hash_next`** stops at the first element that is still to come. -/
theorem next_loop_eq {b fuel : ℕ} (hnd : ∀ b < h.bucket_cnt, (h.buckets b).Nodup)
    (hb : b < h.bucket_cnt) (hsuf : suf <:+ h.buckets b) (hf : h.bucket_cnt ≤ b + fuel) :
    (suf ++ h.rows (b + 1) = []
        ∧ ∃ b', next_loop h fuel b suf.head? = .ok { bucket := b', elem := .null })
      ∨ ∃ e rest b', suf ++ h.rows (b + 1) = e :: rest
        ∧ next_loop h fuel b suf.head? = .ok { bucket := b', elem := .elem e }
        ∧ Stands h { bucket := b', elem := .elem e } rest := by
  induction fuel generalizing b suf with
  | zero => omega
  | succ fuel ih =>
      cases suf with
      | cons e suf => exact .inr ⟨e, _, b, rfl, by rw [List.head?_cons, next_loop]; rfl,
          stands_elem hb (hnd b hb) hsuf⟩
      | nil =>
          rw [List.head?_nil, next_loop, List.nil_append]
          by_cases hend : b + 1 ≥ h.bucket_cnt
          · rw [if_pos hend]
            exact .inl ⟨rows_end hend, b + 1, rfl⟩
          · have hlt : b + 1 < h.bucket_cnt := Nat.lt_of_not_le hend
            rw [if_neg hend]
            unfold hash.bucket
            rw [if_pos hlt, Outcome.ok_bind, rows_lt hlt]
            exact ih hlt List.suffix_rfl (by omega)

/-- **Iterating** comes by what is still to come. -/
theorem visit_eq (hnd : ∀ b < h.bucket_cnt, (h.buckets b).Nodup) {fuel : ℕ}
    (hi : Stands h i rest) (hf : rest.length < fuel) : visit h fuel i = .ok rest := by
  induction fuel generalizing i rest with
  | zero => omega
  | succ fuel ih =>
      obtain ⟨suf, hlt, hnext, hsuf, hrest⟩ := hi
      rw [visit, hash_next, hnext, Outcome.ok_bind]
      have henough : h.bucket_cnt ≤ i.bucket + (h.bucket_cnt + 1) := by omega
      rcases next_loop_eq hnd hlt hsuf henough
        with ⟨hnone, b', hloop⟩ | ⟨e, rest', b', hsome, hloop, hstands⟩
      · rw [hloop, hrest, hnone]
        rfl
      · rw [hsome] at hrest
        subst hrest
        rw [hloop, Outcome.ok_bind]
        show (visit h fuel _ >>= _) = _
        rw [ih hstands (by simpa using hf)]
        rfl

/-- **From `hash_first` on** every element is visited once. -/
theorem visit_first {fuel : ℕ} (hpos : 0 < h.bucket_cnt) (hnd : h.elems.Nodup)
    (hf : h.elems.length < fuel) : visit h fuel hash_first = .ok h.elems := by
  refine visit_eq (fun b hb => ?_) ⟨h.buckets 0, hpos, ?_, List.suffix_rfl, ?_⟩ hf
  · exact (List.nodup_flatMap.mp hnd).1 b (List.mem_range.mpr hb)
  · show (h.bucket 0 >>= _) = _
    unfold hash.bucket
    rw [if_pos hpos]
    rfl
  · rw [← rows_zero, rows_lt hpos]
    rfl

end Iteration

/-! ## Histories -/

section History

/-- A call that changes the table. -/
inductive hash_op (α : Type) : Type
  | insert (new : α)
  | replace (new : α)
  | delete (e : α)

variable {α : Type} (hash_func : α → UInt64) (less : α → α → Prop) [DecidableRel less]
  [DecidableEq α]

/-- One call. -/
def hash_op.call (h : hash α) (memory : Bool) : hash_op α → Outcome (hash α × Option α)
  | insert new => hash_insert hash_func less memory h new
  | replace new => hash_replace hash_func less memory h new
  | delete e => hash_delete hash_func less memory h e

/-- One call after the other: the table afterwards, and what they returned. -/
def hash_run : List (hash_op α × Bool) → hash α → Outcome (hash α × List (Option α))
  | [], h => return (h, [])
  | (op, memory) :: ops, h => do
    let (h, r) ← op.call hash_func less h memory
    let (h, rs) ← hash_run ops h
    return (h, r :: rs)

/-- The element that a call is about. -/
def hash_op.subject : hash_op α → α
  | insert new | replace new => new
  | delete e => e

/-- What a call that reports `r` makes of the stored elements. -/
def stored_after (S : Finset α) (r : Option α) : hash_op α → Finset α
  | .insert new => match r with
    | some _ => S
    | none => insert new S
  | .replace new => insert new (match r with
    | some old => S.erase old
    | none => S)
  | .delete _ => match r with
    | some found => S.erase found
    | none => S

/-- The history of a finite set: every call reports what is like its element. -/
inductive History : Finset α → List (hash_op α × Bool) → List (Option α) → Finset α → Prop
  | done (S : Finset α) : History S [] [] S
  | call {S T : Finset α} {op : hash_op α} {memory : Bool} {r : Option α}
      {ops : List (hash_op α × Bool)} {rs : List (Option α)} (report : Reports less S op.subject r)
      (rest : History (stored_after S r op) ops rs T) : History S ((op, memory) :: ops) (r :: rs) T

variable {hash_func less} {h : hash α} {S : Finset α} [IsStrictWeakOrder α less]
  (hcompat : ∀ a b, Alike less a b → hash_func a = hash_func b)

omit [DecidableRel less] [DecidableEq α] [IsStrictWeakOrder α less] in
theorem hash_init_holds : Holds hash_func less (hash_init : hash α) ∅ where
  hashed := ⟨⟨2, le_rfl, rfl⟩, fun _ _ _ he => absurd he List.not_mem_nil⟩
  nodup := List.nodup_nil
  mem := fun x => iff_of_false List.not_mem_nil (Finset.notMem_empty x)
  apart := fun x hx => absurd hx (Finset.notMem_empty x)
  count := rfl

include hcompat

/-- **A call** reports right, and does to the table what it does to the set. -/
theorem Holds.call_eq (hh : Holds hash_func less h S) (op : hash_op α) (memory : Bool) :
    ∃ h' r, op.call hash_func less h memory = .ok (h', r) ∧ Reports less S op.subject r
      ∧ Holds hash_func less h' (stored_after S r op) := by
  cases op with
  | insert new => exact hh.hash_insert_eq hcompat memory new
  | replace new => exact hh.hash_replace_eq hcompat memory new
  | delete e => exact hh.hash_delete_eq hcompat memory e

/-- **A run**, by induction on its calls. -/
theorem Holds.run_eq (hh : Holds hash_func less h S) (ops : List (hash_op α × Bool)) :
    ∃ h' rs T, hash_run hash_func less ops h = .ok (h', rs) ∧ History less S ops rs T
      ∧ Holds hash_func less h' T := by
  induction ops generalizing h S with
  | nil => exact ⟨h, [], S, rfl, .done S, hh⟩
  | cons call ops ih =>
      obtain ⟨op, memory⟩ := call
      obtain ⟨h₁, r, hcall, hreport, hh₁⟩ := hh.call_eq hcompat op memory
      obtain ⟨h', rs, T, hrun, hrest, hh'⟩ := ih hh₁
      refine ⟨h', r :: rs, T, ?_, .call hreport hrest, hh'⟩
      rw [hash_run, hcall, Outcome.ok_bind]
      show (hash_run hash_func less ops h₁ >>= _) = _
      rw [hrun]
      rfl

/-- **The hash table is a finite map.** Whatever calls were made, and however many of them
found no memory for `rehash`: they reported what the same calls on a set `S` report, searching
finds what is in `S`, and so does iterating, once each. -/
theorem hash_is_map (ops : List (hash_op α × Bool)) :
    ∃ h rs S, hash_run hash_func less ops hash_init = .ok (h, rs) ∧ History less ∅ ops rs S
      ∧ (∀ x ∈ S, ∀ y ∈ S, Alike less x y → x = y)
      ∧ (∀ e, ∃ r, hash_find hash_func less h e = .ok r ∧ Reports less S e r)
      ∧ h.elem_cnt = S.card ∧ (∃ k, 2 ≤ k ∧ h.bucket_cnt = 2 ^ k)
      ∧ ∀ fuel, S.card < fuel →
        ∃ l, visit h fuel hash_first = .ok l ∧ l.Nodup ∧ ∀ x, x ∈ l ↔ x ∈ S := by
  obtain ⟨h, rs, S, hrun, hhist, hh⟩ := hash_init_holds.run_eq hcompat ops
  refine ⟨h, rs, S, hrun, hhist, hh.apart, hh.hash_find_eq hcompat, hh.count, hh.hashed.power,
    fun fuel hf => ⟨h.elems, visit_first ?_ hh.nodup ?_, hh.nodup, hh.mem⟩⟩
  · obtain ⟨k, -, hk⟩ := hh.hashed.power
    rw [hk]
    exact Nat.two_pow_pos k
  · have hset : h.elems.toFinset = S := Finset.ext fun x => by rw [List.mem_toFinset, hh.mem]
    rwa [← List.toFinset_card_of_nodup hh.nodup, hset]

end History

/-- Numbers that are compared by their tens. -/
theorem tens_strict : IsStrictWeakOrder ℕ (fun a b => a / 10 < b / 10) where
  irrefl := fun _ => Nat.lt_irrefl _
  trans := fun _ _ _ => Nat.lt_trans
  incomp_trans := fun _ _ _ => by omega

/-- Twenty numbers go in, the last one without memory for `rehash`; 7 takes the place of 0, and 3
stands for it in a deletion. -/
def tens : List (hash_op ℕ × Bool) :=
  (List.range 20).map (fun k => (.insert (10 * k), decide (k < 19)))
    ++ [(.replace 7, true), (.delete 3, true)]

/-- The table has grown from 4 buckets to 8. -/
theorem tens_deleted : ∃ h rs S,
    hash_run (fun a => UInt64.ofNat (a / 10)) (fun a b => a / 10 < b / 10) tens hash_init
      = .ok (h, rs) ∧ h.bucket_cnt = 8
      ∧ History (fun a b => a / 10 < b / 10) ∅ tens rs S
      ∧ (∀ e, ∃ r, hash_find (fun a => UInt64.ofNat (a / 10)) (fun a b => a / 10 < b / 10) h e
          = .ok r ∧ Reports (fun a b => a / 10 < b / 10) S e r)
      ∧ ∀ fuel, S.card < fuel →
        ∃ l, visit h fuel hash_first = .ok l ∧ l.Nodup ∧ ∀ x, x ∈ l ↔ x ∈ S := by
  have := tens_strict
  have hcompat : ∀ a b, Alike (fun a b : ℕ => a / 10 < b / 10) a b →
      UInt64.ofNat (a / 10) = UInt64.ofNat (b / 10) := by
    intro a b hlike
    rw [Nat.le_antisymm (Nat.not_lt.mp hlike.2) (Nat.not_lt.mp hlike.1)]
  have hgrown : (hash_run (fun a => UInt64.ofNat (a / 10)) (fun a b => a / 10 < b / 10) tens
      hash_init).satisfies (fun r => decide (r.1.bucket_cnt = 8)) = true := by
    decide +kernel
  obtain ⟨h, rs, S, hrun, hhist, -, hfind, -, -, hvisit⟩ := hash_is_map hcompat tens
  obtain ⟨r, hr, h8⟩ := Outcome.satisfies_iff.mp hgrown
  obtain rfl := Outcome.ok.inj (hrun.symm.trans hr)
  exact ⟨h, rs, S, hrun, of_decide_eq_true h8, hhist, hfind, hvisit⟩

end Pintos.klib
