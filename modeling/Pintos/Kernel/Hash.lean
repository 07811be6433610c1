/-
`lib/kernel/hash.c`: hash tables.

A bucket is the list of the elements that it links, front first; that the links are such a
list, and what the list operations do to it, is said of `lib/kernel/list.c`. Taking an
element out unlinks it wherever it is. The hash and the comparison are those of the table;
`aux` is part of them.

Elements are objects in memory, so there are fewer than 2^64 and `elem_cnt` does not wrap.
Whether `malloc` finds memory for new buckets is left open; a request of no bytes, which is
what too many buckets wrap to, gets none.
-/
import Pintos.Lib.Buckets
import Pintos.Lib.Outcome
import Mathlib.Algebra.Group.Nat.Defs
import Mathlib.Order.Defs.Unbundled

set_option autoImplicit false

namespace Pintos.klib

/-- `struct hash`. -/
structure hash (α : Type) where
  elem_cnt : ℕ
  bucket_cnt : ℕ
  buckets : ℕ → List α

section Model

variable {α : Type} (hash_func : α → UInt64) (less : α → α → Prop) [DecidableRel less]

/-- `hash_init`, when `malloc` finds memory. -/
def hash_init : hash α := { elem_cnt := 0, bucket_cnt := 4, buckets := fun _ => [] }

/-- The bucket at an index; behind the last one is somebody else's memory. -/
def hash.bucket (h : hash α) (i : ℕ) : Outcome (List α) :=
  if i < h.bucket_cnt then .ok (h.buckets i) else .undefined

/-- `find_bucket`, as an index. -/
def find_bucket (h : hash α) (e : α) : ℕ := (hash_func e).toNat &&& (h.bucket_cnt - 1)

/-- `find_elem`, in the elements of a bucket. -/
def find_elem (e : α) : List α → Option α
  | [] => none
  | hi :: bucket => if ¬ less hi e ∧ ¬ less e hi then some hi else find_elem e bucket

/-- `turn_off_least_1bit`; at 0 the difference does not matter. -/
def turn_off_least_1bit (x : ℕ) : ℕ := x &&& (x - 1)

/-- `is_power_of_2`. -/
def is_power_of_2 (x : ℕ) : Prop := x ≠ 0 ∧ turn_off_least_1bit x = 0

instance (x : ℕ) : Decidable (is_power_of_2 x) := inferInstanceAs (Decidable (_ ∧ _))

/-- `BEST_ELEMS_PER_BUCKET`. -/
def BEST_ELEMS_PER_BUCKET : ℕ := 2

/-- The loop of `rehash` that looks for a power of two. Every turn makes the number smaller. -/
def round_to_power : ℕ → ℕ → Outcome ℕ
  | 0, _ => .diverge
  | fuel + 1, new_bucket_cnt =>
    if ¬ is_power_of_2 new_bucket_cnt then round_to_power fuel (turn_off_least_1bit new_bucket_cnt)
    else return new_bucket_cnt

/-- `list_push_front` on a bucket. -/
def hash.push_front (h : hash α) (bucket : ℕ) (e : α) : Outcome (hash α) := do
  let l ← h.bucket bucket
  return { h with buckets := Function.update h.buckets bucket (e :: l) }

/-- The inner loop of `rehash`: the elements of an old bucket, one after the other. -/
def move_elems : List α → hash α → Outcome (hash α)
  | [], h => return h
  | e :: old_bucket, h => do
    let h ← h.push_front (find_bucket hash_func h e) e
    move_elems old_bucket h

/-- The outer loop of `rehash`, with `n` old buckets to go. -/
def move_buckets (old_buckets : ℕ → List α) : ℕ → ℕ → hash α → Outcome (hash α)
  | 0, _, h => return h
  | n + 1, i, h => do
    let h ← move_elems hash_func (old_buckets i) h
    move_buckets old_buckets n (i + 1) h

/-- `rehash`. `memory` says whether there is memory for `malloc`. -/
def rehash (memory : Bool) (h : hash α) : Outcome (hash α) := do
  let new_bucket_cnt := h.elem_cnt / BEST_ELEMS_PER_BUCKET
  let new_bucket_cnt := if new_bucket_cnt < 4 then 4 else new_bucket_cnt
  let new_bucket_cnt ← round_to_power (new_bucket_cnt + 1) new_bucket_cnt
  if new_bucket_cnt = h.bucket_cnt then return h
  else if memory = false ∨ 32 * new_bucket_cnt % 2 ^ 64 = 0 then return h
  else
    move_buckets hash_func h.buckets h.bucket_cnt 0
      { h with bucket_cnt := new_bucket_cnt, buckets := fun _ => [] }

/-- `insert_elem`. -/
def insert_elem (h : hash α) (bucket : ℕ) (e : α) : Outcome (hash α) :=
  { h with elem_cnt := h.elem_cnt + 1 }.push_front bucket e

/-- `remove_elem`. -/
def remove_elem [DecidableEq α] (h : hash α) (e : α) : hash α :=
  { h with elem_cnt := h.elem_cnt - 1, buckets := fun i => (h.buckets i).erase e }

/-- `hash_insert`: the table afterwards, and what is returned. -/
def hash_insert (memory : Bool) (h : hash α) (new : α) : Outcome (hash α × Option α) := do
  let bucket := find_bucket hash_func h new
  let old := find_elem less new (← h.bucket bucket)
  let h ← if old = none then insert_elem h bucket new else .ok h
  let h ← rehash hash_func memory h
  return (h, old)

/-- `hash_replace`. -/
def hash_replace [DecidableEq α] (memory : Bool) (h : hash α) (new : α) :
    Outcome (hash α × Option α) := do
  let bucket := find_bucket hash_func h new
  let old := find_elem less new (← h.bucket bucket)
  let h := match old with
    | some old => remove_elem h old
    | none => h
  let h ← insert_elem h bucket new
  let h ← rehash hash_func memory h
  return (h, old)

/-- `hash_find`. -/
def hash_find (h : hash α) (e : α) : Outcome (Option α) := do
  return find_elem less e (← h.bucket (find_bucket hash_func h e))

/-- `hash_delete`. -/
def hash_delete [DecidableEq α] (memory : Bool) (h : hash α) (e : α) :
    Outcome (hash α × Option α) := do
  match find_elem less e (← h.bucket (find_bucket hash_func h e)) with
  | some found =>
    let h ← rehash hash_func memory (remove_elem h found)
    return (h, some found)
  | none => return (h, none)

/-! ## Iteration -/

/-- Where an iterator stands: at the head of its bucket, at an element of it, or nowhere. -/
inductive iterator_elem (α : Type) : Type
  | head
  | elem (e : α)
  | null

/-- `struct hash_iterator`. -/
structure hash_iterator (α : Type) where
  bucket : ℕ
  elem : iterator_elem α

/-- `hash_first`. -/
def hash_first : hash_iterator α := { bucket := 0, elem := .head }

/-- `list_next` from where the iterator stands; behind the last element is the tail. -/
def iterator_next [DecidableEq α] (h : hash α) (i : hash_iterator α) : Outcome (Option α) :=
  match i.elem with
  | .head => do
    let l ← h.bucket i.bucket
    return l.head?
  | .elem e => do
    let l ← h.bucket i.bucket
    return ((l.dropWhile fun x => decide (x ≠ e)).drop 1).head?
  | .null => .panic

/-- The loop of `hash_next`, from the element or the tail that it stands at. -/
def next_loop (h : hash α) : ℕ → ℕ → Option α → Outcome (hash_iterator α)
  | _, bucket, some e => return { bucket, elem := .elem e }
  | 0, _, none => .diverge
  | fuel + 1, bucket, none =>
    if bucket + 1 ≥ h.bucket_cnt then return { bucket := bucket + 1, elem := .null }
    else do
      let l ← h.bucket (bucket + 1)
      next_loop h fuel (bucket + 1) l.head?

/-- `hash_next`. It returns what the iterator then stands at. -/
def hash_next [DecidableEq α] (h : hash α) (i : hash_iterator α) : Outcome (hash_iterator α) := do
  let e ← iterator_next h i
  next_loop h (h.bucket_cnt + 1) i.bucket e

/-- `while (hash_next (&i))`, with the elements it comes by. -/
def visit [DecidableEq α] (h : hash α) : ℕ → hash_iterator α → Outcome (List α)
  | 0, _ => .diverge
  | fuel + 1, i => do
    let i ← hash_next h i
    match i.elem with
    | .elem e => do
      let l ← visit h fuel i
      return e :: l
    | _ => return []

end Model

end Pintos.klib
