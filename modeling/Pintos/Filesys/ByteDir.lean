/-
`filesys/directory.c` over an array of bytes.

The functions are those of `Directory.lean`, with the directory's inode taken as an array
that grows when it is written to: a read is a `slice`, a write a `splice`. Whatever is on
the stack where a function has its `struct dir_entry` is a parameter of it.

The array is a row of slots (`Lays`), and the functions do on the row what a finite map
kept in slots does: `add` stores into the first free slot or appends one, `remove` frees
one. From that every history of them is a map (`directory_is_map`).
-/
import Pintos.Filesys.ByteFile
import Pintos.Filesys.DirTable
import Pintos.Lib.Runs
import Pintos.Lib.SlotTable

set_option autoImplicit false

namespace Pintos

namespace byte_dir

/-! ## The code -/

/-- `inode_read_at (dir->inode, &e, sizeof e, ofs)`: how much there is to read, and the entry. -/
def read_entry (a : List UInt8) (e : Bytes) (ofs : ℕ) : ℤ × Bytes :=
  let b := slice a ofs DIR_ENTRY_SIZE
  (b.length, memcpy e 0 (fun k => b.getD k 0) b.length)

theorem read_entry_byte (a : List UInt8) (e : Bytes) (ofs k : ℕ) : (read_entry a e ofs).2 k
    = if k < (slice a ofs DIR_ENTRY_SIZE).length then (slice a ofs DIR_ENTRY_SIZE).getD k 0
    else e k := by
  unfold read_entry memcpy
  simp only [Nat.zero_le, true_and, Nat.zero_add, Nat.sub_zero]

/-- `inode_write_at (dir->inode, &e, sizeof e, ofs)`, which writes all of it. -/
def write_entry (a : List UInt8) (e : Bytes) (ofs : ℕ) : List UInt8 :=
  splice 0 a ofs (buffer_bytes e DIR_ENTRY_SIZE)

/-- A scan from `ofs` on. -/
def scan (a : List UInt8) (p : Bytes → Bool) (ofs : ℕ) (e : Bytes) : Outcome dir_scan_end :=
  scan_with (fun e ofs => .ok (read_entry a e ofs)) p (a.length / DIR_ENTRY_SIZE + 2) ofs e

/-- `lookup`. -/
def lookup (a : List UInt8) (name : c_string) (e : Bytes) : Outcome (Option (ℕ × Bytes)) := do
  let r ← scan a (fun e => dir_entry.in_use e && dir_entry.has_name e name) 0 e
  return if r.found then some (r.ofs, r.e) else none

/-- `dir_add`; `e` is the entry of `lookup` and `e'` its own. -/
def dir_add (a : List UInt8) (name : c_string) (inode_sector : ℕ) (e e' : Bytes) :
    Outcome (Bool × List UInt8) := do
  if name = [] ∨ NAME_MAX < name.length then return (false, a)
  else
    let entry ← lookup a name e
    if entry.isSome then return (false, a)
    else
      let r ← scan a (fun e => !dir_entry.in_use e) 0 e'
      return (true, write_entry a (dir_entry.fill r.e name inode_sector) r.ofs)

/-- `dir_remove`, without what it does to the inode of the entry. -/
def dir_remove (a : List UInt8) (name : c_string) (e : Bytes) : Outcome (Bool × List UInt8) := do
  let entry ← lookup a name e
  match entry with
  | none => return (false, a)
  | some (ofs, e) => return (true, write_entry a (dir_entry.clear e) ofs)

/-- `dir_readdir` at `pos`: the name, or none at the end, and the new position. -/
def dir_readdir (a : List UInt8) (pos : ℕ) (e : Bytes) : Outcome (Option c_string × ℕ) := do
  let r ← scan a dir_entry.in_use pos e
  if r.found then return (some (dir_entry.name r.e), r.ofs + DIR_ENTRY_SIZE)
  else return (none, r.ofs)

end byte_dir

/-! ## Slots -/

/-- Entry number `i`. -/
def dir_entry_at (a : List UInt8) (i : ℕ) : Bytes := fun k => a.getD (20 * i + k) 0

/-- The array is this row of slots. -/
structure Lays (a : List UInt8) (slots : List dir_slot) : Prop where
  length : a.length = 20 * slots.length
  slot : ∀ (i : ℕ) (x : dir_slot), slots[i]? = some x → SlotIs (dir_entry_at a i) x

theorem named_eq_keyed (name : c_string) : named name = keyed name := by
  funext x
  cases x with
  | none => rfl
  | some e => rfl

/-- A string that is read up to its terminator, or up to the end of a field that holds it. -/
theorem takeWhile_c_string {f : ℕ → UInt8} {n : ℕ} {name : c_string} (hlen : name.length ≤ n)
    (hbytes : ∀ i ≤ name.length, f i = name.getD i 0) (hnz : ∀ ch ∈ name, ch ≠ 0) :
    ((List.range n).map f).takeWhile (· ≠ 0) = name := by
  have hsplit : (List.range n).map f
      = name ++ (List.range (n - name.length)).map fun i => f (name.length + i) := by
    have hchars : (List.range name.length).map f = name := by
      apply List.ext_getElem (by simp)
      intro i hi hi'
      rw [List.getElem_map, List.getElem_range, hbytes i (Nat.le_of_lt hi'),
        List.getD_eq_getElem _ _ hi']
    nth_rewrite 1 [← Nat.add_sub_cancel' hlen, List.range_add, List.map_append,
      hchars, List.map_map]
    rfl
  rw [hsplit, List.takeWhile_append_of_pos (by simpa using hnz)]
  cases hrest : n - name.length with
  | zero => simp
  | succ n =>
      have hend := hbytes name.length le_rfl
      rw [List.getD_eq_default _ _ le_rfl] at hend
      rw [List.range_succ_eq_map]
      simp [hend]

/-- The name that is read out of a slot. -/
theorem SlotIs.name_eq {b : Bytes} {name : c_string} {sector : ℕ}
    (hx : SlotIs b (some (name, sector))) : dir_entry.name b = name := by
  obtain ⟨-, hbytes, -, hok⟩ := hx
  exact takeWhile_c_string hok.length_le hbytes hok.nonzero

/-- All zero, all free. -/
theorem lays_zeros (n : ℕ) : Lays (List.replicate (20 * n) 0) (List.replicate n none) where
  length := by rw [List.length_replicate, List.length_replicate]
  slot i x hx := by
    rw [List.getElem?_replicate] at hx
    split at hx
    · obtain rfl := Option.some.inj hx
      simp [SlotIs, dir_entry_at]
    · cases hx

namespace Lays

variable {a : List UInt8} {slots : List dir_slot} {name : c_string} {sector i : ℕ} {e : Bytes}
  {x : dir_slot}

theorem entry_byte (h : Lays a slots) (hi : i < slots.length) {k : ℕ} (hk : k < 20) :
    a[20 * i + k]? = some (dir_entry_at a i k) := by
  have hlen := h.length
  rw [dir_entry_at, List.getD_eq_getElem _ _ (by omega), List.getElem?_eq_getElem (by omega)]

/-- The entries that are read are the slots. -/
theorem reads_slots (h : Lays a slots) :
    ReadsSlots (fun e ofs => .ok (byte_dir.read_entry a e ofs)) slots where
  slot i x hx e := by
    obtain ⟨hi, -⟩ := List.getElem?_eq_some_iff.mp hx
    have hlen := h.length
    have hcount : (slice a (20 * i) DIR_ENTRY_SIZE).length = DIR_ENTRY_SIZE := by
      rw [slice_length]
      unfold DIR_ENTRY_SIZE
      omega
    have hfst : (byte_dir.read_entry a e (20 * i)).1 = (DIR_ENTRY_SIZE : ℤ) :=
      congrArg Nat.cast hcount
    refine ⟨(byte_dir.read_entry a e (20 * i)).2, by rw [← hfst], ?_⟩
    apply (h.slot i x hx).congr
    intro k hk
    have hk' : k < DIR_ENTRY_SIZE := hk
    rw [byte_dir.read_entry_byte, if_pos (by rw [hcount]; exact hk'), List.getD_eq_getElem?_getD,
      getElem?_slice, if_pos hk', h.entry_byte hi hk, Option.getD_some]
  stop e := by
    have hnone : slice a (20 * slots.length) DIR_ENTRY_SIZE = [] := by
      apply List.eq_nil_of_length_eq_zero
      rw [slice_length, h.length]
      omega
    have hsame : (byte_dir.read_entry a e (20 * slots.length)).2 = e := by
      funext k
      rw [byte_dir.read_entry_byte, hnone]
      exact if_neg (Nat.not_lt_zero k)
    have hfst : (byte_dir.read_entry a e (20 * slots.length)).1 = 0 := by
      rw [byte_dir.read_entry, hnone]
      rfl
    exact congrArg Outcome.ok (Prod.ext hfst hsame)

/-- A scan from slot `i` on. -/
theorem scan (h : Lays a slots) {p : Bytes → Bool} {q : dir_slot → Bool}
    (hpq : ∀ b x, SlotIs b x → p b = q x) (hi : i ≤ slots.length) (e : Bytes) :
    ∃ r, byte_dir.scan a p (20 * i) e = .ok r ∧ r.ofs = 20 * (i + (slots.drop i).findIdx q)
      ∧ r.found = (slots.drop i).any q ∧ ∀ x, (slots.drop i).find? q = some x → SlotIs r.e x := by
  have hlen := h.length
  apply h.reads_slots.scan hpq _ _ _ _ rfl hi
  rw [List.length_drop]
  unfold DIR_ENTRY_SIZE
  omega

/-! ## Writing -/

/-- An entry is written over a slot, or behind the last one. -/
theorem write (h : Lays a slots) (hx : SlotIs e x) (hi : i ≤ slots.length) :
    Lays (byte_dir.write_entry a e (20 * i))
      (if i < slots.length then slots.set i x else slots ++ [x]) := by
  have hlen := h.length
  have hb : (buffer_bytes e DIR_ENTRY_SIZE).length = 20 := buffer_bytes_length
  constructor
  · rw [byte_dir.write_entry, splice_length, hb]
    split <;> simp <;> omega
  · intro j y hj
    rcases stored_slot hi hj with ⟨rfl, rfl⟩ | ⟨hji, hj⟩
    · apply hx.congr
      intro k hk
      rw [dir_entry_at, List.getD_eq_getElem?_getD, byte_dir.write_entry,
        getElem?_splice_mid (by omega) (by omega), getElem?_buffer_bytes, Nat.add_sub_cancel_left]
      exact congrArg (fun y : Option UInt8 => y.getD 0) (if_pos hk)
    · obtain ⟨hlt, -⟩ := List.getElem?_eq_some_iff.mp hj
      apply (h.slot j y hj).congr
      intro k hk
      rw [dir_entry_at, List.getD_eq_getElem?_getD, byte_dir.write_entry]
      have hold : (splice 0 a (20 * i) (buffer_bytes e DIR_ENTRY_SIZE))[20 * j + k]?
          = a[20 * j + k]? := by
        rcases Nat.lt_or_gt_of_ne hji with hbelow | habove
        · exact getElem?_splice_old (by omega) (by omega)
        · exact getElem?_splice_high (by omega)
      rw [hold, h.entry_byte hlt hk, Option.getD_some]

/-- The bytes of the others. -/
theorem write_frame (h : Lays a slots) {j : ℕ} (hj : j < slots.length) (hji : j ≠ i) (e : Bytes) :
    slice (byte_dir.write_entry a e (20 * i))
      (20 * j) DIR_ENTRY_SIZE = slice a (20 * j) DIR_ENTRY_SIZE := by
  have hlen := h.length
  apply slice_splice_apart
  · rw [buffer_bytes_length]
    unfold DIR_ENTRY_SIZE
    omega
  · unfold DIR_ENTRY_SIZE
    omega

/-! ## The functions on the row -/

/-- **`lookup`** is the lookup in the row. -/
theorem lookup_eq (h : Lays a slots) (hname : ∀ ch ∈ name, ch ≠ 0) (e : Bytes) :
    ∃ r, byte_dir.lookup a name e = .ok r
      ∧ r.map (fun entry => dir_entry.inode_sector entry.2) = lookup_slot slots name
      ∧ (∀ entry, r = some entry → entry.1 = 20 * slots.findIdx (keyed name)
        ∧ slots.findIdx (keyed name) < slots.length) := by
  obtain ⟨r, hr, hofs, hfound, hbytes⟩ := h.scan (q := keyed name)
    (fun b x hx => (hx.named_eq hname).trans (congrFun (named_eq_keyed name) x)) (Nat.zero_le _) e
  rw [List.drop_zero, Nat.zero_add] at hofs
  rw [List.drop_zero] at hfound hbytes
  unfold byte_dir.lookup
  rw [hr, Outcome.ok_bind, hfound]
  cases hany : slots.any (keyed name) with
  | false =>
      refine ⟨none, rfl, ?_, fun _ h => by cases h⟩
      have hno : slots.find? (keyed name) = none := by
        rw [List.find?_eq_none]
        exact fun x hx hk => by simpa [hk] using List.any_eq_false.mp hany x hx
      rw [lookup_slot, hno]
      rfl
  | true =>
      refine ⟨some (r.ofs, r.e), rfl, ?_, ?_⟩
      · obtain ⟨x, hx⟩ := Option.isSome_iff_exists.mp
          (by rwa [List.find?_isSome, ← List.any_eq_true])
        have hxn := List.find?_some hx
        cases x with
        | none => cases hxn
        | some e =>
            have hsector : wordAt r.e 0 = e.2 := (hbytes _ hx).2.2.1
            rw [lookup_slot, hx, Option.map_some, dir_entry.inode_sector, hsector]
            rfl
      · intro entry hentry
        rw [← Option.some.inj hentry]
        exact ⟨hofs, List.findIdx_lt_length_of_exists (List.any_eq_true.mp hany)⟩

/-- **`dir_add`** of a name that is there, or that is none. -/
theorem dir_add_refused (h : Lays a slots) (hname : ∀ ch ∈ name, ch ≠ 0) (e e' : Bytes)
    (hbad : name = [] ∨ NAME_MAX < name.length ∨ lookup_slot slots name ≠ none) :
    byte_dir.dir_add a name sector e e' = .ok (false, a) := by
  obtain ⟨r, hr, hmap, -⟩ := h.lookup_eq hname e
  unfold byte_dir.dir_add
  split
  · rfl
  · rename_i hok
    have hthere : r.isSome := by
      rw [← Option.isSome_map (f := fun entry : ℕ × Bytes => dir_entry.inode_sector entry.2), hmap,
        Option.isSome_iff_ne_none]
      tauto
    rw [hr, Outcome.ok_bind, if_pos hthere]
    rfl

/-- **`dir_add`** of a new name stores it. -/
theorem dir_add_new (h : Lays a slots) (hname : NameOk name) (hsector : sector < 2 ^ 32)
    (hnew : lookup_slot slots name = none) (e e' : Bytes) :
    ∃ b, byte_dir.dir_add a name sector e e'
        = .ok (true, byte_dir.write_entry a b (20 * free_slot slots))
      ∧ Lays (byte_dir.write_entry a b (20 * free_slot slots))
      (store_slot slots (name, sector)) := by
  obtain ⟨entry, hentry, hmap, -⟩ := h.lookup_eq hname.nonzero e
  obtain ⟨r, hr, hofs, -⟩ := h.scan (p := fun e => !dir_entry.in_use e) (q := Option.isNone)
    (fun b x hx => by rw [hx.in_use, Option.not_isSome]) (Nat.zero_le _) e'
  rw [List.drop_zero, Nat.zero_add] at hofs
  have hnone : entry.isSome = false := by
    rw [← Option.isSome_map (f := fun entry : ℕ × Bytes =>
      dir_entry.inode_sector entry.2), hmap, hnew]
    rfl
  have hlen := hname.length_le
  refine ⟨dir_entry.fill r.e name sector, ?_, ?_⟩
  · unfold byte_dir.dir_add
    rw [if_neg (by rintro (hnil | hlong); exact hname.ne_nil hnil; omega), hentry,
      Outcome.ok_bind, hnone]
    simp only [Bool.false_eq_true, if_false, hr, Outcome.ok_bind, Outcome.pure_eq, hofs]
    rfl
  · exact h.write (slotIs_fill r.e hname hsector) free_slot_le

/-- **`dir_remove`** frees the slot of the name. -/
theorem dir_remove_eq (h : Lays a slots) (hname : ∀ ch ∈ name, ch ≠ 0) (e : Bytes) :
    (lookup_slot slots name = none ∧ byte_dir.dir_remove a name e = .ok (false, a))
      ∨ ∃ b, lookup_slot slots name ≠ none ∧ byte_dir.dir_remove a name e
            = .ok (true, byte_dir.write_entry a b (20 * slots.findIdx (keyed name)))
          ∧ Lays (byte_dir.write_entry a b (20 * slots.findIdx (keyed name)))
          (erase_slot slots name) := by
  obtain ⟨r, hr, hmap, hofs⟩ := h.lookup_eq hname e
  unfold byte_dir.dir_remove
  rw [hr, Outcome.ok_bind]
  cases r with
  | none => exact .inl ⟨hmap.symm, rfl⟩
  | some entry =>
      obtain ⟨hentry, hlt⟩ := hofs entry rfl
      refine .inr ⟨dir_entry.clear entry.2, ?_, ?_, ?_⟩
      · rw [← hmap]
        exact Option.some_ne_none _
      · rw [← hentry]
        rfl
      · have hclear : SlotIs (dir_entry.clear entry.2) none := Function.update_self 19 0 entry.2
        have hw := h.write hclear (Nat.le_of_lt hlt)
        rwa [if_pos hlt] at hw

end Lays

/-! ## Histories -/

/-- A call, with what is on its stack. -/
inductive dir_call
  | add (name : c_string) (inode_sector : ℕ) (e e' : Bytes)
  | remove (name : c_string) (e : Bytes)

namespace dir_call

/-- The name it is about. -/
def name : dir_call → c_string
  | add name _ _ _ => name
  | remove name _ => name

/-- The name is a string, and the sector number has 32 bits. -/
def Typed : dir_call → Prop
  | add name inode_sector _ _ => (∀ ch ∈ name, ch ≠ 0) ∧ inode_sector < 2 ^ 32
  | remove name _ => ∀ ch ∈ name, ch ≠ 0

/-- The call is made. -/
def exec (a : List UInt8) : dir_call → Outcome (Bool × List UInt8)
  | add name inode_sector e e' => byte_dir.dir_add a name inode_sector e e'
  | remove name e => byte_dir.dir_remove a name e

/-- What `dir_add` takes, and what `dir_remove` finds, in a directory that is the map `m`. -/
def Succeeds (m : c_string → Option ℕ) : dir_call → Prop
  | add name _ _ _ => name ≠ [] ∧ name.length ≤ NAME_MAX ∧ m name = none
  | remove name _ => m name ≠ none

instance (m : c_string → Option ℕ) (c : dir_call) : Decidable (c.Succeeds m) := by
  cases c <;> unfold Succeeds <;> infer_instance

/-- The map after the call. -/
def after (m : c_string → Option ℕ) (c : dir_call) : c_string → Option ℕ :=
  if c.Succeeds m then
    match c with
    | add name inode_sector _ _ => Function.update m name (some inode_sector)
    | remove name _ => Function.update m name none
  else m

end dir_call

/-- One call, for its effect on the directory. -/
def byte_dir.advance (a : List UInt8) (c : dir_call) : Option (List UInt8) :=
  (c.exec a).toOption.map Prod.snd

/-- A directory: its entries are whole, and those in use have proper names, which are distinct. -/
structure DirOk (a : List UInt8) : Prop where
  whole : DIR_ENTRY_SIZE ∣ a.length
  name_ok : ∀ i, 20 * i < a.length → dir_entry.in_use (dir_entry_at a i) = true →
    NameOk (dir_entry.name (dir_entry_at a i))
      ∧ dir_entry.has_name (dir_entry_at a i) (dir_entry.name (dir_entry_at a i)) = true
  distinct : ∀ i j, 20 * i < a.length → 20 * j < a.length
    → dir_entry.in_use (dir_entry_at a i) = true → dir_entry.in_use (dir_entry_at a j) = true →
    dir_entry.name (dir_entry_at a i) = dir_entry.name (dir_entry_at a j) → i = j

/-- **The directory is the map `m`** from names to sectors: `lookup` finds what is in the map. -/
structure IsMap (a : List UInt8) (m : c_string → Option ℕ) : Prop extends DirOk a where
  lookup : ∀ name, (∀ ch ∈ name, ch ≠ 0) → ∀ e, ∃ r, byte_dir.lookup a name e = .ok r
    ∧ r.map (fun entry => dir_entry.inode_sector entry.2) = m name

/-- **The call does what it does to a map**: it succeeds when it is to succeed, leaves the
directory the map it is to be, and the bytes of every entry in use under another name. -/
structure ActsOnMap (a : List UInt8) (m : c_string → Option ℕ) (c : dir_call) (done : Bool)
    (a' : List UInt8) : Prop where
  returns : c.exec a = .ok (done, a')
  succeeds : done = true ↔ c.Succeeds m
  map : IsMap a' (c.after m)
  refused : done = false → a' = a
  others : ∀ i, 20 * i < a.length → dir_entry.in_use (dir_entry_at a i) = true →
    dir_entry.name (dir_entry_at a i) ≠ c.name →
    slice a' (20 * i) DIR_ENTRY_SIZE = slice a (20 * i) DIR_ENTRY_SIZE

/-- What slot `i` holds. -/
def slot_at (a : List UInt8) (i : ℕ) : dir_slot :=
  if dir_entry.in_use (dir_entry_at a i) then
    some (dir_entry.name (dir_entry_at a i), dir_entry.inode_sector (dir_entry_at a i))
  else none

theorem slot_at_eq_some {a : List UInt8} {i : ℕ} {name : c_string} {sector : ℕ}
    (h : slot_at a i = some (name, sector)) :
    dir_entry.in_use (dir_entry_at a i) = true ∧ dir_entry.name (dir_entry_at a i) = name := by
  unfold slot_at at h
  split at h
  · rename_i huse
    exact ⟨huse, (Prod.mk.inj (Option.some.inj h)).1⟩
  · cases h

namespace Lays

variable {a : List UInt8} {slots : List dir_slot} {i : ℕ}

/-- An entry in use is a slot with its name. -/
theorem slot_in_use (h : Lays a slots) (hi : 20 * i < a.length)
    (huse : dir_entry.in_use (dir_entry_at a i) = true) : ∃ name sector,
      slots[i]? = some (some (name, sector)) ∧ dir_entry.name (dir_entry_at a i) = name
        ∧ SlotIs (dir_entry_at a i) (some (name, sector)) := by
  have hlen := h.length
  have hx := List.getElem?_eq_getElem (show i < slots.length by omega)
  have hslot := h.slot i _ hx
  cases hval : slots[i] with
  | none =>
      rw [hval] at hslot
      rw [hslot.in_use] at huse
      cases huse
  | some e =>
      rw [hval] at hslot hx
      exact ⟨e.1, e.2, hx, hslot.name_eq, hslot⟩

theorem dir_ok (h : Lays a slots) (hd : KeysDistinct slots) : DirOk a where
  whole := ⟨slots.length, h.length⟩
  name_ok i hi huse := by
    obtain ⟨name, sector, -, hname, hslot⟩ := h.slot_in_use hi huse
    have hok := hslot.2.2.2
    rw [hname]
    exact ⟨hok, (hslot.has_name hok.nonzero).mpr rfl⟩
  distinct i j hi hj hui huj hsame := by
    obtain ⟨name, sector, hsi, hni, -⟩ := h.slot_in_use hi hui
    obtain ⟨name', sector', hsj, hnj, -⟩ := h.slot_in_use hj huj
    rw [hni, hnj] at hsame
    rw [← hsame] at hsj
    exact hd i j name sector sector' hsi hsj

/-- **A row of slots is a map.** -/
theorem is_map (h : Lays a slots) (hd : KeysDistinct slots) : IsMap a (lookup_slot slots) where
  toDirOk := h.dir_ok hd
  lookup name hname e := by
    obtain ⟨r, hr, hmap, -⟩ := h.lookup_eq hname e
    exact ⟨r, hr, hmap⟩

/-- The bytes of the other entries. -/
theorem others_kept (h : Lays a slots) {name : c_string} {j : ℕ} (e : Bytes)
    (hj : ∀ x, slots[j]? = some (some x) → x.1 = name) (hi : 20 * i < a.length)
    (huse : dir_entry.in_use (dir_entry_at a i) = true)
    (hother : dir_entry.name (dir_entry_at a i) ≠ name) :
    slice (byte_dir.write_entry a e (20 * j)) (20 * i) DIR_ENTRY_SIZE
      = slice a (20 * i) DIR_ENTRY_SIZE := by
  obtain ⟨n, sector, hslot, hname, -⟩ := h.slot_in_use hi huse
  have hlen := h.length
  apply h.write_frame (by omega)
  rintro rfl
  exact hother (hname.trans (hj _ hslot))

/-- **Every call** is one on the map, and leaves a row of slots. -/
theorem acts_on_map (h : Lays a slots) (hd : KeysDistinct slots) {c : dir_call} (hc : c.Typed) :
    ∃ done a' slots', ActsOnMap a (lookup_slot slots) c done a' ∧ Lays a' slots'
      ∧ KeysDistinct slots' ∧ lookup_slot slots' = c.after (lookup_slot slots) := by
  cases c with
  | add name inode_sector e e' =>
      by_cases hok : (dir_call.add name inode_sector e e').Succeeds (lookup_slot slots)
      · obtain ⟨b, hrun, hlays⟩ := h.dir_add_new ⟨hok.1, hok.2.1, hc.1⟩ hc.2 hok.2.2 e e'
        have hd' := hd.store (x := inode_sector) hok.2.2
        have hmap : lookup_slot (store_slot slots (name, inode_sector))
            = (dir_call.add name inode_sector e e').after (lookup_slot slots) := by
          rw [dir_call.after, if_pos hok, lookup_slot_store hd hok.2.2]
        refine ⟨true, _, _, ⟨hrun, iff_of_true rfl hok, ?_, (fun h => by cases h), ?_⟩,
          hlays, hd', hmap⟩
        · rw [← hmap]
          exact hlays.is_map hd'
        · intro i hi huse hother
          apply h.others_kept b _ hi huse hother
          -- the slot stored into was free
          intro x hx
          have hfree := getElem?_free_slot (t := slots)
          rw [hx] at hfree
          cases hfree
      · have hmap : (dir_call.add name inode_sector e e').after (lookup_slot slots)
          = lookup_slot slots :=
          if_neg hok
        have hbad : name = [] ∨ NAME_MAX < name.length ∨ lookup_slot slots name ≠ none := by
          by_contra hno
          push Not at hno
          exact hok ⟨hno.1, hno.2.1, hno.2.2⟩
        have hrun : byte_dir.dir_add a name inode_sector e e' = .ok (false, a) :=
          h.dir_add_refused hc.1 e e' hbad
        refine ⟨false, a, slots, ⟨hrun, iff_of_false (by decide) hok, ?_, fun _ => rfl,
          fun _ _ _ _ => rfl⟩, h, hd, hmap.symm⟩
        rw [hmap]
        exact h.is_map hd
  | remove name e =>
      rcases h.dir_remove_eq hc e with ⟨hno, hrun⟩ | ⟨b, hin, hrun, hlays⟩
      · have hfail : ¬ (dir_call.remove name e).Succeeds (lookup_slot slots) := fun h => h hno
        have hmap : (dir_call.remove name e).after (lookup_slot slots)
            = lookup_slot slots := if_neg hfail
        refine ⟨false, a, slots, ⟨hrun, iff_of_false (by decide) hfail, ?_, fun _ => rfl,
          fun _ _ _ _ => rfl⟩, h, hd, hmap.symm⟩
        rw [hmap]
        exact h.is_map hd
      · have hok : (dir_call.remove name e).Succeeds (lookup_slot slots) := hin
        have hd' := hd.erase name
        have hmap : lookup_slot (erase_slot slots name)
            = (dir_call.remove name e).after (lookup_slot slots) := by
          rw [dir_call.after, if_pos hok, lookup_slot_erase hd]
        refine ⟨true, _, _, ⟨hrun, iff_of_true rfl hok, ?_, (fun h => by cases h), ?_⟩,
          hlays, hd', hmap⟩
        · rw [← hmap]
          exact hlays.is_map hd'
        · intro i hi huse hother
          apply h.others_kept b _ hi huse hother
          intro x hx
          obtain ⟨hlt, hval⟩ := List.getElem?_eq_some_iff.mp hx
          have hkey := List.findIdx_getElem (w := hlt)
          rw [hval] at hkey
          exact keyed_some.mp hkey

end Lays

/-- A directory is a row of slots. -/
theorem DirOk.lays {a : List UInt8} (h : DirOk a) :
    ∃ slots : List dir_slot, Lays a slots ∧ KeysDistinct slots := by
  obtain ⟨n, hn⟩ := h.whole
  unfold DIR_ENTRY_SIZE at hn
  have hslot : ∀ i x, ((List.range n).map (slot_at a))[i]? = some x → i < n ∧ slot_at a i = x := by
    intro i x hx
    rw [List.getElem?_map] at hx
    obtain ⟨j, hj, rfl⟩ := Option.map_eq_some_iff.mp hx
    obtain ⟨hlt, hval⟩ := List.getElem?_eq_some_iff.mp hj
    rw [List.getElem_range] at hval
    rw [List.length_range] at hlt
    exact ⟨hlt, by rw [hval]⟩
  refine ⟨(List.range n).map (slot_at a), ⟨?_, fun i x hx => ?_⟩, fun i j name x y hi hj => ?_⟩
  · rw [List.length_map, List.length_range, hn]
  · obtain ⟨hlt, rfl⟩ := hslot i x hx
    unfold slot_at
    cases huse : dir_entry.in_use (dir_entry_at a i) with
    | false => simpa [SlotIs, dir_entry.in_use] using huse
    | true =>
        obtain ⟨hok, hname⟩ := h.name_ok i (by omega) huse
        refine ⟨by simpa [dir_entry.in_use] using huse, fun k hk => ?_, rfl, hok⟩
        have hch := List.all_eq_true.mp hname k (List.mem_range.mpr (Nat.lt_succ_of_le hk))
        simpa using hch
  · obtain ⟨hi, hxi⟩ := hslot i _ hi
    obtain ⟨hj, hxj⟩ := hslot j _ hj
    obtain ⟨hui, hni⟩ := slot_at_eq_some hxi
    obtain ⟨huj, hnj⟩ := slot_at_eq_some hxj
    exact h.distinct i j (by omega) (by omega) hui huj (hni.trans hnj.symm)

/-- Every history is one of the map. -/
theorem lays_after {a : List UInt8} {slots : List dir_slot} (h : Lays a slots)
    (hd : KeysDistinct slots) {calls : List dir_call} (htyped : ∀ c ∈ calls, c.Typed) :
    ∃ a' slots', Runs.run byte_dir.advance calls a = some a' ∧ Lays a' slots' ∧ KeysDistinct slots'
      ∧ lookup_slot slots' = calls.foldl dir_call.after (lookup_slot slots) := by
  induction calls generalizing a slots with
  | nil => exact ⟨a, slots, rfl, h, hd, rfl⟩
  | cons c calls ih =>
      obtain ⟨done, a₁, slots₁, hact, h₁, hd₁, hmap₁⟩ :=
        h.acts_on_map hd (htyped c List.mem_cons_self)
      obtain ⟨a', slots', hrun, h', hd', hmap'⟩ := ih h₁ hd₁ fun c' hc' =>
        htyped c' (List.mem_cons_of_mem c hc')
      refine ⟨a', slots', Runs.run_cons.mpr ⟨a₁, ?_, hrun⟩, h', hd', ?_⟩
      · rw [byte_dir.advance, hact.returns]
        rfl
      · rw [hmap', hmap₁, List.foldl_cons]

theorem keysDistinct_free (n : ℕ) : KeysDistinct (List.replicate n (none : dir_slot)) := by
  intro i j k x y hi hj
  rw [List.getElem?_replicate] at hi
  split at hi <;> cases hi

theorem lookup_slot_free (n : ℕ) : lookup_slot (List.replicate n (none : dir_slot))
    = fun _ => none := by
  funext name
  rw [lookup_slot_eq_none (keysDistinct_free n)]
  intro i x hi
  rw [List.getElem?_replicate] at hi
  split at hi <;> cases hi

/-- **A directory is a finite map**: after every history of `dir_add` and `dir_remove` that starts
from an all-zero directory of whole entries, it is the map that the history has built, and every
further call acts on it as on that map. -/
theorem directory_is_map (n : ℕ) (calls : List dir_call) (htyped : ∀ c ∈ calls, c.Typed) :
    ∃ a, Runs.run byte_dir.advance calls (List.replicate (20 * n) 0) = some a
      ∧ IsMap a (calls.foldl dir_call.after fun _ => none)
      ∧ ∀ c : dir_call, c.Typed → ∃ done a',
          ActsOnMap a (calls.foldl dir_call.after fun _ => none) c done a' := by
  obtain ⟨a, slots, hrun, h, hd, hmap⟩ := lays_after (lays_zeros n) (keysDistinct_free n) htyped
  rw [lookup_slot_free] at hmap
  rw [← hmap]
  refine ⟨a, hrun, h.is_map hd, fun c hc => ?_⟩
  obtain ⟨done, a', -, hact, -⟩ := h.acts_on_map hd hc
  exact ⟨done, a', hact⟩

/-- `a` and `b` are added to two free slots, `a` is removed, and `c` takes its slot. -/
theorem reused_slot_is_map :
    ∃ a, Runs.run byte_dir.advance [.add [97] 5 zeros zeros, .add [98] 6 zeros zeros,
        .remove [97] zeros, .add [99] 7 zeros zeros] (List.replicate (20 * 2) 0) = some a
      ∧ IsMap a (Function.update (Function.update (Function.update (Function.update (fun _ => none)
          [97] (some 5)) [98] (some 6)) [97] none) [99] (some 7)) := by
  obtain ⟨a, hrun, hmap, -⟩ := directory_is_map 2 [.add [97] 5 zeros zeros, .add [98] 6 zeros zeros,
    .remove [97] zeros, .add [99] 7 zeros zeros] (by simp [dir_call.Typed])
  exact ⟨a, hrun, hmap⟩

end Pintos
