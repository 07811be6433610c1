/-
Directories as tables of slots.

A directory file is a row of 20-byte slots, each of them free or taken by a name
and the sector of its inode. `Holds` says that the bytes of an open directory are
those of a list of slots; under it, a scan of the file is a search in the list
(`ReadsSlots.scan`), `lookup` finds the slot of a name, and writing an entry stores
into the list or appends to it (`Holds.write_slot`). How the file grows for an
append differs between the root and the other directories, so it is left open here.
-/
import Pintos.Filesys.Directory
import Pintos.Filesys.InodeGrow
import Mathlib.Data.List.ReduceOption

set_option autoImplicit false

namespace Pintos

/-! ## Slots -/

/-- A slot of a directory: free, or a name with the sector of its inode. -/
abbrev dir_slot := Option (c_string × ℕ)

/-- A name that `dir_add` takes: not empty, at most `NAME_MAX` characters, none of them
the terminator. -/
structure NameOk (name : c_string) : Prop where
  ne_nil : name ≠ []
  length_le : name.length ≤ NAME_MAX
  nonzero : ∀ ch ∈ name, ch ≠ 0

/-- The bytes of a slot. -/
def SlotIs (b : Bytes) : dir_slot → Prop
  | none => b 19 = 0
  | some (name, sector) => b 19 ≠ 0 ∧ (∀ i ≤ name.length, b (4 + i) = name.getD i 0)
      ∧ wordAt b 0 = sector ∧ NameOk name

/-- The slot has this name. -/
def named (name : c_string) : dir_slot → Bool
  | none => false
  | some (n, _) => n = name

section Slot

variable {b b' : Bytes} {x : dir_slot} {name n : c_string} {sector : ℕ}

/-- A slot is its first twenty bytes. -/
theorem SlotIs.congr (h : ∀ k < 20, b' k = b k) (hx : SlotIs b x) : SlotIs b' x := by
  cases x with
  | none => exact (h 19 (by decide)).trans hx
  | some e =>
      obtain ⟨name, sector⟩ := e
      obtain ⟨huse, hname, hsector, hok⟩ := hx
      have hlen := hok.length_le
      unfold NAME_MAX at hlen
      refine ⟨by rw [h 19 (by decide)]; exact huse, fun i hi => ?_, ?_, hok⟩
      · rw [h _ (by omega)]
        exact hname i hi
      · rw [← hsector]
        apply wordAt_congr
        intro i hi
        exact h _ (by omega)

theorem SlotIs.in_use (hx : SlotIs b x) : dir_entry.in_use b = x.isSome := by
  cases x with
  | none =>
      have h0 : b 19 = 0 := hx
      simp [dir_entry.in_use, h0]
  | some e =>
      have h0 : b 19 ≠ 0 := hx.1
      simp [dir_entry.in_use, h0]

/-- Characters that agree up to and with the terminator are the same name. -/
theorem eq_of_getD {s t : c_string} (hs : ∀ ch ∈ s, ch ≠ 0) (ht : ∀ ch ∈ t, ch ≠ 0)
    (h : ∀ i ≤ t.length, s.getD i 0 = t.getD i 0) : s = t := by
  induction t generalizing s with
  | nil =>
      cases s with
      | nil => rfl
      | cons a s => exact absurd (h 0 le_rfl) (hs a List.mem_cons_self)
  | cons c t ih =>
      cases s with
      | nil => exact absurd (h 0 (Nat.zero_le _)).symm (ht c List.mem_cons_self)
      | cons a s =>
          have hac : a = c := h 0 (Nat.zero_le _)
          have hrest : s = t := by
            apply ih (fun ch hch => hs ch (List.mem_cons_of_mem _ hch))
              (fun ch hch => ht ch (List.mem_cons_of_mem _ hch))
            intro i hi
            exact h (i + 1) (by simpa using hi)
          rw [hac, hrest]

/-- `strcmp` against the name of a slot, which any string may be compared with. -/
theorem SlotIs.has_name (hx : SlotIs b (some (n, sector))) (hname : ∀ ch ∈ name, ch ≠ 0) :
    dir_entry.has_name b name = true ↔ n = name := by
  obtain ⟨-, hbytes, -, hok⟩ := hx
  unfold dir_entry.has_name
  rw [List.all_eq_true]
  constructor
  · intro h
    have hb : ∀ i ≤ name.length, b (4 + i) = name.getD i 0 := fun i hi => by
      simpa using h i (List.mem_range.mpr (by omega))
    -- the shorter one of the two ends the comparison, and the other one with it
    rcases Nat.le_total name.length n.length with hle | hle
    · exact eq_of_getD hok.nonzero hname fun i hi => by
        rw [← hbytes i (by omega), hb i hi]
    · exact (eq_of_getD hname hok.nonzero fun i hi => by
        rw [← hbytes i hi, hb i (by omega)]).symm
  · rintro rfl i hi
    have hi' := List.mem_range.mp hi
    simpa using hbytes i (by omega)

/-- The test of `lookup`. -/
theorem SlotIs.named_eq (hx : SlotIs b x) (hname : ∀ ch ∈ name, ch ≠ 0) :
    (dir_entry.in_use b && dir_entry.has_name b name) = named name x := by
  rw [hx.in_use]
  cases x with
  | none => rfl
  | some e =>
      obtain ⟨n, sector⟩ := e
      by_cases hn : n = name
      · simp [named, hn, (hx.has_name hname).mpr hn]
      · have : dir_entry.has_name b name = false := by
          rw [← Bool.not_eq_true]
          exact fun h => hn ((hx.has_name hname).mp h)
        simp [named, hn, this]

/-- The entry that `dir_add` writes. -/
theorem slotIs_fill (b : Bytes) (hname : NameOk name) (hsector : sector < 2 ^ 32) :
    SlotIs (dir_entry.fill b name sector) (some (name, sector)) := by
  have hlen := hname.length_le
  unfold NAME_MAX at hlen
  refine ⟨?_, fun i hi => ?_, ?_, hname⟩
  · simp [dir_entry.fill]
  · have h4 : ¬ 4 + i < 4 := by omega
    have hin : 4 + i < 4 + name.length + 1 ∧ 4 + i < 19 := by omega
    simp [dir_entry.fill, h4, hin]
  · apply wordAt_of_bytes hsector
    intro i hi
    simp [dir_entry.fill, hi]

end Slot

/-! ## Storing into the list -/

/-- `dir_add`, on the list: into the first free slot, or behind the last one. -/
def add_slot (slots : List dir_slot) (e : c_string × ℕ) : List dir_slot :=
  if slots.findIdx Option.isNone < slots.length then slots.set
    (slots.findIdx Option.isNone) (some e)
  else slots ++ [some e]

/-- The entries of a list of slots. -/
def slot_entries (slots : List dir_slot) : List (c_string × ℕ) := slots.reduceOption

theorem mem_slot_entries {slots : List dir_slot} {e : c_string × ℕ} :
    e ∈ slot_entries slots ↔ some e ∈ slots := List.reduceOption_mem_iff

/-- Storing into a free slot. -/
theorem slot_entries_set {slots : List dir_slot} {j : ℕ} (e : c_string × ℕ)
    (hj : slots[j]? = some none) :
    (slot_entries (slots.set j (some e))).Perm (e :: slot_entries slots) := by
  obtain ⟨hlt, hfree⟩ := List.getElem?_eq_some_iff.mp hj
  have hslots : slots = slots.take j ++ none :: slots.drop (j + 1) := by
    rw [← hfree, ← List.drop_eq_getElem_cons hlt, List.take_append_drop]
  have hset : slots.set j (some e) = slots.take j ++ some e :: slots.drop (j + 1) := by
    rw [List.set_eq_take_append_cons_drop, if_pos hlt]
  have hold : slot_entries slots
      = (slots.take j).reduceOption ++ (slots.drop (j + 1)).reduceOption := by
    nth_rewrite 1 [hslots]
    rw [slot_entries, List.reduceOption_append, List.reduceOption_cons_of_none]
  rw [hold, hset, slot_entries, List.reduceOption_append, List.reduceOption_cons_of_some]
  exact List.perm_middle

/-- **Adding a slot** adds its entry, and takes none away. -/
theorem slot_entries_add (slots : List dir_slot) (e : c_string × ℕ) :
    (slot_entries (add_slot slots e)).Perm (e :: slot_entries slots) := by
  unfold add_slot
  split
  · rename_i hlt
    apply slot_entries_set
    have hfree := List.findIdx_getElem (w := hlt)
    rw [Option.isNone_iff_eq_none] at hfree
    rw [List.getElem?_eq_getElem hlt, hfree]
  · rw [slot_entries, List.reduceOption_append]
    exact List.perm_append_comm

/-- What is in a slot after one was stored, over another or behind the last. -/
theorem stored_slot {slots : List dir_slot} {x y : dir_slot} {i j : ℕ} (hj : j ≤ slots.length)
    (hi : (if j < slots.length then slots.set j x else slots ++ [x])[i]? = some y) :
    (i = j ∧ y = x) ∨ (i ≠ j ∧ slots[i]? = some y) := by
  split at hi
  · rw [List.getElem?_set] at hi
    split at hi
    · rename_i hji
      exact .inl ⟨hji.symm, (Option.some.inj hi).symm⟩
    · rename_i hji
      exact .inr ⟨fun he => hji he.symm, hi⟩
  · have hend : j = slots.length := by omega
    rcases Nat.lt_trichotomy i slots.length with hlt | heq | hgt
    · rw [List.getElem?_append_left hlt] at hi
      exact .inr ⟨by omega, hi⟩
    · rw [heq, List.getElem?_concat_length] at hi
      exact .inl ⟨by omega, (Option.some.inj hi).symm⟩
    · rw [List.getElem?_eq_none (by simp; omega)] at hi
      cases hi

/-- How many slots there are after adding one. -/
theorem add_slot_length (slots : List dir_slot) (e : c_string × ℕ) :
    (add_slot slots e).length
      = if slots.findIdx Option.isNone < slots.length then slots.length else slots.length + 1 := by
  unfold add_slot
  split
  · exact List.length_set
  · simp

/-! ## Scanning

The loops of `lookup`, `dir_add` and `dir_readdir`, for whatever the entries are read from. -/

/-- `dir_scan`, with its way to read an entry left open. -/
def scan_with (read : Bytes → ℕ → Outcome (ℤ × Bytes)) (p : Bytes → Bool) :
    ℕ → ℕ → Bytes → Outcome dir_scan_end
  | 0, _, _ => .diverge
  | fuel + 1, ofs, e => do
      let (n, e) ← read e ofs
      if n ≠ DIR_ENTRY_SIZE then return { found := false, ofs, e }
      else if p e then return { found := true, ofs, e }
      else scan_with read p fuel (ofs + DIR_ENTRY_SIZE) e

theorem dir_scan_eq (s : filesys) (ino : inode) (p : Bytes → Bool) (fuel ofs : ℕ) (e : Bytes) :
    dir_scan s ino p fuel ofs e = scan_with
      (fun e ofs => inode_read_at s.disk s.fat ino e DIR_ENTRY_SIZE (ofs : ℕ)) p fuel ofs e := by
  induction fuel generalizing ofs e with
  | zero => rfl
  | succ fuel ih =>
      rw [dir_scan, scan_with]
      apply Outcome.bind_congr
      intro r _
      simp only [ih]

/-- The entries that are read are those of the slots, and behind the last one there is nothing. -/
structure ReadsSlots (read : Bytes → ℕ → Outcome (ℤ × Bytes)) (slots : List dir_slot) : Prop where
  slot : ∀ (i : ℕ) (x : dir_slot), slots[i]? = some x → ∀ e, ∃ e',
    read e (20 * i) = .ok ((DIR_ENTRY_SIZE : ℤ), e') ∧ SlotIs e' x
  stop : ∀ e, read e (20 * slots.length) = .ok (0, e)

/-- **A scan** looks for the first slot with a property that shows in its bytes. -/
theorem ReadsSlots.scan {read : Bytes → ℕ → Outcome (ℤ × Bytes)} {slots : List dir_slot}
    (h : ReadsSlots read slots) {p : Bytes → Bool} {q : dir_slot → Bool}
    (hpq : ∀ b x, SlotIs b x → p b = q x) (rest : List dir_slot) :
    ∀ (i fuel : ℕ) (e : Bytes), slots.drop i = rest → i ≤ slots.length → rest.length < fuel →
      ∃ r, scan_with read p fuel (20 * i) e = .ok r ∧ r.ofs = 20 * (i + rest.findIdx q)
        ∧ r.found = rest.any q ∧ ∀ x, rest.find? q = some x → SlotIs r.e x := by
  induction rest with
  | nil =>
      intro i fuel e hdrop hi hf
      obtain ⟨fuel, rfl⟩ : ∃ m, fuel = m + 1 := ⟨fuel - 1, by simp at hf; omega⟩
      have hend : i = slots.length := by
        have := List.drop_eq_nil_iff.mp hdrop
        omega
      rw [scan_with, hend, h.stop e]
      simp only [Outcome.ok_bind]
      rw [if_pos (by decide)]
      exact ⟨_, rfl, rfl, rfl, fun x hx => by cases hx⟩
  | cons x rest ih =>
      intro i fuel e hdrop hi hf
      obtain ⟨fuel, rfl⟩ : ∃ m, fuel = m + 1 := ⟨fuel - 1, by omega⟩
      have hx : slots[i]? = some x := by
        rw [← List.head?_drop, hdrop]
        rfl
      have hnext : slots.drop (i + 1) = rest := by
        rw [← List.drop_drop, hdrop]
        rfl
      obtain ⟨hlt, -⟩ := List.getElem?_eq_some_iff.mp hx
      obtain ⟨e', hread, hslot⟩ := h.slot i x hx e
      rw [scan_with, hread]
      simp only [Outcome.ok_bind, ne_eq, not_true_eq_false, if_false]
      rw [hpq e' x hslot, List.findIdx_cons, List.any_cons, List.find?_cons]
      cases hq : q x with
      | true =>
          refine ⟨_, rfl, rfl, rfl, fun y hy => ?_⟩
          obtain rfl := Option.some.inj hy
          exact hslot
      | false =>
          obtain ⟨r, hr, hofs, hfound, hbytes⟩ := ih (i + 1) fuel e' hnext hlt (by simpa using hf)
          refine ⟨r, hr, ?_, hfound, hbytes⟩
          rw [hofs]
          simp only [cond_false]
          omega

/-! ## The bytes of a directory -/

/-- The open directory `dir` with inode `ino` and clusters `l` holds these slots. There is a
cluster for the position behind the last one, where a scan ends. -/
structure Holds (s : filesys) (dir : ℕ) (ino : inode) (l : List ℕ) (slots : List dir_slot) :
    Prop where
  is_open : s.inode dir = some ino
  wf : s.fat.Wf
  extent : Extent s.disk s.fat ino.data.start l
  length : ino.data.length = (20 * slots.length : ℕ)
  room : 20 * slots.length / 512 < l.length
  slot : ∀ i x, slots[i]? = some x → SlotIs (fun k => file_byte s.disk s.fat l (20 * i + k)) x

namespace Holds

variable {s : filesys} {dir : ℕ} {ino : inode} {l : List ℕ} {slots : List dir_slot}
  {name : c_string} {sector : ℕ}

theorem get_inode (h : Holds s dir ino l slots) : s.get_inode dir = .ok ino :=
  filesys.get_inode_eq_ok.mpr h.is_open

/-- Reading a slot. -/
theorem read_slot (h : Holds s dir ino l slots) {i : ℕ} {x : dir_slot} (hi : slots[i]? = some x)
    (e : Bytes) : ∃ e', inode_read_at s.disk s.fat ino e DIR_ENTRY_SIZE ((20 * i : ℕ) : ℤ)
        = .ok ((DIR_ENTRY_SIZE : ℤ), e') ∧ SlotIs e' x := by
  obtain ⟨hlt, -⟩ := List.getElem?_eq_some_iff.mp hi
  have hroom := h.room
  have hlen := h.length
  obtain ⟨e', hread, hbytes⟩ := inode_read_at_spec h.wf.toGeometry h.extent e
    (show ((20 * i : ℕ) : ℤ) + (DIR_ENTRY_SIZE : ℤ) ≤ inode_length ino by
      unfold DIR_ENTRY_SIZE inode_length
      omega)
    (by unfold DIR_ENTRY_SIZE; omega)
  refine ⟨e', hread, (h.slot i x hi).congr fun k hk => ?_⟩
  exact (hbytes k).trans (if_pos hk)

/-- Reading behind the last slot. -/
theorem read_end (h : Holds s dir ino l slots) (e : Bytes) :
    inode_read_at s.disk s.fat ino e DIR_ENTRY_SIZE ((20 * slots.length : ℕ) : ℤ) = .ok (0, e) := by
  have hlen := h.length
  have hsec := byte_to_sector_eq h.wf.toGeometry h.extent (20 * slots.length) (by omega) h.room
  unfold inode_read_at
  rw [inode_read_at_loop, if_neg (by decide), hsec]
  have hleft : inode_length ino - ((20 * slots.length : ℕ) : ℤ) = 0 := by
    unfold inode_length
    omega
  simp only [Outcome.ok_bind, tmod_512, hleft, DIR_ENTRY_SIZE]
  rw [if_pos]
  · rfl
  · split_ifs <;> omega

/-- Its entries are those of the slots. -/
theorem reads_slots (h : Holds s dir ino l slots) :
    ReadsSlots (fun e ofs => inode_read_at s.disk s.fat ino e DIR_ENTRY_SIZE (ofs : ℕ)) slots where
  slot _ _ hi e := h.read_slot hi e
  stop e := h.read_end e

/-- A scan from the beginning. -/
theorem find (h : Holds s dir ino l slots) {p : Bytes → Bool} {q : dir_slot → Bool}
    (hpq : ∀ b x, SlotIs b x → p b = q x) :
    ∃ r, dir_find s dir p = .ok r ∧ r.ofs = 20 * slots.findIdx q ∧ r.found = slots.any q
      ∧ ∀ x, slots.find? q = some x → SlotIs r.e x := by
  have hfuel : slots.length < ino.data.length.toNat / DIR_ENTRY_SIZE + 2 := by
    rw [h.length, Int.toNat_natCast]
    unfold DIR_ENTRY_SIZE
    omega
  obtain ⟨r, hr, hofs, hrest⟩ := h.reads_slots.scan hpq slots 0 _ zeros rfl (Nat.zero_le _) hfuel
  refine ⟨r, ?_, by rw [hofs, Nat.zero_add], hrest⟩
  rw [dir_find, h.get_inode]
  exact (dir_scan_eq s ino p _ 0 zeros).trans hr

/-- **`lookup`** of a name that is not there. -/
theorem lookup_none (h : Holds s dir ino l slots) (hname : NameOk name)
    (hno : ∀ sector, (name, sector) ∉ slot_entries slots) : lookup s dir name = .ok none := by
  obtain ⟨r, hr, -, hfound, -⟩ := h.find (q := named name) fun b x hx => hx.named_eq hname.nonzero
  have hnot : slots.any (named name) = false := by
    rw [List.any_eq_false]
    intro x hx hn
    cases x with
    | none => cases hn
    | some e =>
        obtain ⟨n, sector⟩ := e
        obtain rfl : n = name := by simpa [named] using hn
        exact hno sector (mem_slot_entries.mpr hx)
  rw [lookup, hr]
  simp [hfound, hnot]

/-- **`lookup`** of a name that is there once. -/
theorem lookup_some (h : Holds s dir ino l slots) (hname : NameOk name)
    (hin : (name, sector) ∈ slot_entries slots)
    (huniq : ∀ sector', (name, sector') ∈ slot_entries slots → sector' = sector) :
    ∃ ofs e, lookup s dir name = .ok (some (ofs, e)) ∧ dir_entry.inode_sector e = sector := by
  obtain ⟨r, hr, -, hfound, hbytes⟩ := h.find (q := named name) fun b x hx =>
    hx.named_eq hname.nonzero
  have hmem := mem_slot_entries.mp hin
  have hany : slots.any (named name) = true :=
    List.any_eq_true.mpr ⟨_, hmem, by simp [named]⟩
  obtain ⟨x, hx⟩ := Option.isSome_iff_exists.mp (by rwa [List.find?_isSome, ← List.any_eq_true])
  have hxn := List.find?_some hx
  cases x with
  | none => cases hxn
  | some e =>
      obtain ⟨n, sector'⟩ := e
      obtain rfl : n = name := by simpa [named] using hxn
      have hs' := huniq sector' (mem_slot_entries.mpr (List.mem_of_find?_eq_some hx))
      refine ⟨r.ofs, r.e, ?_, (hbytes _ hx).2.2.1.trans hs'⟩
      rw [lookup, hr]
      simp [hfound, hany]

/-! ## Writing an entry -/

/-- The copy loop and the flush behind it, once the file reaches to the end of slot `j`: the
slots of the old file are kept, and slot `j` is what was written. -/
theorem write_slot (h : Holds s dir ino l slots) {d₁ : disk} {fs₁ : fat_fs} {ino₁ : inode}
    {l₁ : List ℕ} {j m : ℕ} {e : Bytes} {x : dir_slot} (hx : SlotIs e x) (hwf : fs₁.Wf)
    (hext : Extent d₁ fs₁ ino₁.data.start l₁) (hsel : select_sector d₁ ino₁.sector)
    (hapart : ∀ k ∈ l₁, cluster_to_sector fs₁ k ≠ ino₁.sector)
    (hlen : ino₁.data.length = (20 * m : ℕ)) (hroom : 20 * m / 512 < l₁.length) (hj : j < m)
    (hm : m = if j < slots.length then slots.length else slots.length + 1)
    (hj' : j ≤ slots.length)
    (hkeep : ∀ p < 20 * slots.length, file_byte d₁ fs₁ l₁ p = file_byte s.disk s.fat l p) :
    ∃ d', (do
        let (bytes_written, d) ← inode_write_at_loop fs₁ ino₁ e (DIR_ENTRY_SIZE + 1) d₁
          DIR_ENTRY_SIZE ((20 * j : ℕ) : ℤ) 0
        let d ← inode_flush d ino₁
        return (bytes_written, d, fs₁, ino₁)) = .ok ((DIR_ENTRY_SIZE : ℤ), d', fs₁, ino₁)
      ∧ d'.capacity = d₁.capacity
      ∧ Holds (s.write_back dir d' fs₁ ino₁) dir ino₁ l₁
          (if j < slots.length then slots.set j x else slots ++ [x]) := by
  obtain ⟨d₂, hloop, hw⟩ := inode_write_at_loop_spec hwf.toGeometry e (DIR_ENTRY_SIZE + 1)
    DIR_ENTRY_SIZE (20 * j) 0 hext (by omega)
    (by unfold inode_length DIR_ENTRY_SIZE; omega) (by unfold DIR_ENTRY_SIZE; omega)
  have hsel₂ := select_sector_congr hw.capacity hsel
  refine ⟨d₂.put ino₁.sector ino₁.data.encode, ?_, hw.capacity, ?_⟩
  · rw [Nat.zero_add, Nat.cast_zero] at hloop
    rw [hloop]
    simp only [Outcome.ok_bind, inode_flush, disk_write_ok hsel₂, Outcome.pure_eq]
  · -- the flush does not touch the data
    have hbyte : ∀ p < 512 * l₁.length,
        file_byte (d₂.put ino₁.sector ino₁.data.encode) fs₁ l₁ p
          = if 20 * j ≤ p ∧ p < 20 * j + 20 then e (p - 20 * j) else file_byte d₁ fs₁ l₁ p := by
      intro p hp
      have hq : p / 512 < l₁.length := by omega
      have hne : cluster_to_sector fs₁ (l₁.getD (p / 512) 0) ≠ ino₁.sector := by
        rw [List.getD_eq_getElem _ _ hq]
        exact hapart _ (List.getElem_mem hq)
      have hb := hw.bytes p hp
      simp only [Nat.zero_add] at hb
      rw [file_byte, disk.put_sectors_of_ne hne]
      exact hb
    have hcap : (d₂.put ino₁.sector ino₁.data.encode).capacity = d₁.capacity := hw.capacity
    refine ⟨?_, hwf, hext.disk_congr hcap, ?_, ?_, ?_⟩
    · exact Function.update_self _ _ _
    · rw [hlen, hm]
      split <;> simp
    · have : (if j < slots.length then slots.set j x else slots ++ [x]).length = m := by
        rw [hm]
        split <;> simp
      rw [this]
      exact hroom
    · intro i y hi
      rcases stored_slot hj' hi with ⟨rfl, rfl⟩ | ⟨hij, hi⟩
      · refine hx.congr fun k hk => ?_
        show file_byte (d₂.put ino₁.sector ino₁.data.encode) fs₁ l₁ (20 * i + k) = e k
        rw [hbyte _ (by omega), if_pos (by omega)]
        congr 1
        omega
      · obtain ⟨hlt, -⟩ := List.getElem?_eq_some_iff.mp hi
        refine (h.slot i y hi).congr fun k hk => ?_
        show file_byte (d₂.put ino₁.sector ino₁.data.encode) fs₁ l₁ (20 * i + k) = _
        have hle : slots.length ≤ m := by
          rw [hm]
          split <;> omega
        rw [hbyte _ (by omega), if_neg (by omega)]
        exact hkeep _ (by omega)

end Holds

end Pintos
