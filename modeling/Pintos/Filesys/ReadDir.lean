/-
`dir_readdir` while the directory changes.

The position of a `struct dir` is an offset into a file whose slots are freed, filled again
and appended to between two calls. A slot never moves, so what is in front of the position has
been returned and what is behind it has not: the names that stay in the directory come out once
each, in the order of their slots (`dir_readdir_enumerates`).
-/
import Pintos.Filesys.ByteDir

set_option autoImplicit false

namespace Pintos

/-! ## The names of a directory -/

/-- The names in use, slot by slot. -/
def dir_names (a : List UInt8) : List c_string :=
  slot_keys ((List.range (a.length / DIR_ENTRY_SIZE)).map (slot_at a))

section Names

variable {a : List UInt8} {slots : List dir_slot} {name : c_string}

/-- A slot is what is read out of it. -/
theorem SlotIs.slot_at_eq {i : ℕ} {x : dir_slot} (hx : SlotIs (dir_entry_at a i) x) :
    slot_at a i = x := by
  unfold slot_at
  rw [hx.in_use]
  cases x with
  | none => rfl
  | some e =>
      have hsector : dir_entry.inode_sector (dir_entry_at a i) = e.2 := hx.2.2.1
      rw [hsector, hx.name_eq]
      rfl

/-- The row is determined by its bytes. -/
theorem Lays.slots_eq (h : Lays a slots) :
    slots = (List.range (a.length / DIR_ENTRY_SIZE)).map (slot_at a) := by
  have hcount : a.length / DIR_ENTRY_SIZE = slots.length := by
    rw [h.length]
    exact Nat.mul_div_cancel_left _ (by decide)
  rw [hcount]
  apply List.ext_getElem (by simp)
  intro i hi hi'
  rw [List.getElem_map, List.getElem_range]
  exact (h.slot i _ (List.getElem?_eq_getElem hi)).slot_at_eq.symm

/-- The names are the keys of the row. -/
theorem Lays.dir_names_eq (h : Lays a slots) : dir_names a = slot_keys slots :=
  congrArg slot_keys h.slots_eq.symm

end Names

/-- **One `dir_readdir`**: the next name, or the end. -/
theorem Lays.dir_readdir_eq {a : List UInt8} {slots : List dir_slot} (h : Lays a slots) {i : ℕ}
    (hi : i ≤ slots.length) (e : Bytes) :
    (∃ name sector, slots[next_key slots i]? = some (some (name, sector))
        ∧ byte_dir.dir_readdir a (20 * i) e = .ok (some name, 20 * (next_key slots i + 1)))
      ∨ (slots.length ≤ next_key slots i
        ∧ byte_dir.dir_readdir a (20 * i) e = .ok (none, 20 * next_key slots i)) := by
  obtain ⟨r, hr, hofs, hfound, hbytes⟩ := h.scan (p := dir_entry.in_use) (q := Option.isSome)
    (fun b x hx => hx.in_use) hi e
  have hnext : i + (slots.drop i).findIdx Option.isSome = next_key slots i := rfl
  rw [hnext] at hofs
  unfold byte_dir.dir_readdir
  rw [hr, Outcome.ok_bind, hfound]
  cases hany : (slots.drop i).any Option.isSome with
  | false =>
      right
      have hend : (slots.drop i).findIdx Option.isSome = (slots.drop i).length :=
        List.findIdx_eq_length_of_false (by simpa using hany)
      rw [List.length_drop] at hend
      refine ⟨by rw [← hnext]; omega, ?_⟩
      rw [hofs]
      rfl
  | true =>
      left
      obtain ⟨x, hx⟩ := Option.isSome_iff_exists.mp (by rwa [List.find?_isSome, ← List.any_eq_true])
      have hxn := List.find?_some hx
      cases x with
      | none => cases hxn
      | some entry =>
          have hslot : slots[next_key slots i]? = some (some entry) := by
            rw [List.find?_eq_getElem?_findIdx, List.getElem?_drop] at hx
            exact hx
          refine ⟨entry.1, entry.2, hslot, ?_⟩
          rw [hofs, (hbytes _ hx).name_eq]
          rfl

/-! ## Listing -/

/-- A directory and a `struct dir` on it, with the names that have been returned. -/
structure listing where
  dir : List UInt8
  pos : ℕ
  returned : List c_string

/-- What happens to them. -/
inductive dir_event
  /-- `dir_add` or `dir_remove`. -/
  | call (c : dir_call)
  /-- `dir_readdir`, with what is on its stack. -/
  | readdir (e : Bytes)

namespace listing

/-- One event. -/
def step (s : listing) : dir_event → Option listing
  | .call c => (byte_dir.advance s.dir c).map fun a => { s with dir := a }
  | .readdir e => (byte_dir.dir_readdir s.dir s.pos e).toOption.map fun r =>
      { s with pos := r.2, returned := s.returned ++ r.1.toList }

/-- A `struct dir` just opened. -/
def start (a : List UInt8) : listing := { dir := a, pos := 0, returned := [] }

/-- The directory is a row of slots, and of the names of `P` those in front of the position have
been returned. -/
structure Inv (P : c_string → Bool) (s : listing) (slots : List dir_slot) (i : ℕ) : Prop where
  lays : Lays s.dir slots
  distinct : KeysDistinct slots
  pos : s.pos = 20 * i
  seen : Walk.Seen P slots i s.returned

/-- All names of `P` are in the directory. -/
def Has (P : c_string → Bool) (s : listing) : Prop := ∀ name, P name = true → name ∈ dir_names s.dir

section Step

variable {P : c_string → Bool} {s s' : listing} {slots : List dir_slot} {i : ℕ}

theorem Inv.start {a : List UInt8} (h : Lays a slots) (hd : KeysDistinct slots)
    (P : c_string → Bool) : Inv P (start a) slots 0 where
  lays := h
  distinct := hd
  pos := rfl
  seen := Walk.Seen.start P slots

/-- A name of `P` is a key. -/
theorem Inv.mem_iff (h : Inv P s slots i) {name : c_string} :
    name ∈ dir_names s.dir ↔ lookup_slot slots name ≠ none := by
  rw [h.lays.dir_names_eq, mem_slot_keys, Option.ne_none_iff_exists']
  constructor
  · rintro ⟨i, sector, hi⟩
    exact ⟨sector, (lookup_slot_eq_some h.distinct).mpr ⟨i, hi⟩⟩
  · rintro ⟨sector, hs⟩
    obtain ⟨i, hi⟩ := (lookup_slot_eq_some h.distinct).mp hs
    exact ⟨i, sector, hi⟩

/-- **A `dir_readdir`.** -/
theorem Inv.readdir (h : Inv P s slots i) (e : Bytes) : ∃ s' i',
    step s (.readdir e) = some s' ∧ Inv P s' slots i' := by
  have hpos := h.pos
  rcases h.lays.dir_readdir_eq h.seen.pos_le e with ⟨name, sector, hslot, hrun⟩ | ⟨hend, hrun⟩
  · rw [← hpos] at hrun
    refine ⟨{ s with pos := 20 * (next_key slots i + 1), returned := s.returned ++ [name] }, _, ?_,
      h.lays, h.distinct, rfl, h.seen.next hslot⟩
    rw [step, hrun]
    rfl
  · rw [← hpos] at hrun
    refine ⟨{ s with pos := 20 * next_key slots i, returned := s.returned ++ [] }, _, ?_, h.lays,
      h.distinct, rfl, ?_⟩
    · rw [step, hrun]
      rfl
    · rw [List.append_nil]
      exact h.seen.skip

/-- **A `dir_add` or `dir_remove`** that leaves the names of `P` in the directory. -/
theorem Inv.call (h : Inv P s slots i) {c : dir_call} (hc : c.Typed) :
    ∃ s' slots', step s (.call c) = some s' ∧ Lays s'.dir slots' ∧ KeysDistinct slots'
      ∧ (Has P s → Has P s' → Inv P s' slots' i) := by
  cases c with
  | add name inode_sector e e' =>
      by_cases hbad : name = [] ∨ NAME_MAX < name.length ∨ lookup_slot slots name ≠ none
      · have hrun : byte_dir.dir_add s.dir name inode_sector e e' = .ok (false, s.dir) :=
          h.lays.dir_add_refused hc.1 e e' hbad
        refine ⟨s, slots, ?_, h.lays, h.distinct, fun _ _ => h⟩
        rw [step, byte_dir.advance, dir_call.exec, hrun]
        rfl
      · push Not at hbad
        obtain ⟨b, hrun, hlays⟩ := h.lays.dir_add_new ⟨hbad.1, hbad.2.1, hc.1⟩ hc.2 hbad.2.2 e e'
        have hd := h.distinct.store (x := inode_sector) hbad.2.2
        refine ⟨{ s with dir := _ }, _, ?_, hlays, hd,
          fun hhas _ => ⟨hlays, hd, h.pos, h.seen.store ?_⟩⟩
        · rw [step, byte_dir.advance, dir_call.exec, hrun]
          rfl
        · -- a name of `P` is there already, and is not added
          rw [← Bool.not_eq_true]
          exact fun hP => h.mem_iff.mp (hhas name hP) hbad.2.2
  | remove name e =>
      rcases h.lays.dir_remove_eq hc e with ⟨-, hrun⟩ | ⟨b, -, hrun, hlays⟩
      · refine ⟨s, slots, ?_, h.lays, h.distinct, fun _ _ => h⟩
        rw [step, byte_dir.advance, dir_call.exec, hrun]
        rfl
      · have hd := h.distinct.erase name
        refine ⟨{ s with dir := byte_dir.write_entry s.dir b _ }, _, ?_, hlays, hd,
          fun _ hhas => ⟨hlays, hd, h.pos, h.seen.erase ?_⟩⟩
        · rw [step, byte_dir.advance, dir_call.exec, hrun]
          rfl
        · -- a name of `P` is still there, and is not the one removed
          rw [← Bool.not_eq_true]
          intro hP
          have hin : name ∈ slot_keys (erase_slot slots name) := by
            rw [← hlays.dir_names_eq]
            exact hhas name hP
          obtain ⟨j, x, hj⟩ := mem_slot_keys.mp hin
          have hgone := lookup_slot_erase h.distinct name
          have hfound := (lookup_slot_eq_some hd).mpr ⟨j, hj⟩
          rw [hgone, Function.update_self] at hfound
          cases hfound

end Step

end listing

/-- The events are calls with typed arguments. -/
def dir_event.Typed : dir_event → Prop
  | .call c => c.Typed
  | .readdir _ => True

/-- The names of `P` are in the directory from the beginning to the end. -/
def Stay (P : c_string → Bool) (events : List dir_event) (s : listing) : Prop :=
  ∀ before after t, events = before ++ after → Runs.run listing.step before s = some t → t.Has P

/-- **The listing after every run**, for names that stay. -/
theorem listing_after {P : c_string → Bool} {s : listing} {slots : List dir_slot} {i : ℕ}
    (h : listing.Inv P s slots i) {events : List dir_event} (htyped : ∀ e ∈ events, e.Typed)
    (hstay : Stay P events s) :
    ∃ s' slots' i', Runs.run listing.step events s = some s' ∧ listing.Inv P s' slots' i' := by
  induction events generalizing s slots i with
  | nil => exact ⟨s, slots, i, rfl, h⟩
  | cons e events ih =>
      have hnow : s.Has P := hstay [] (e :: events) s rfl rfl
      have hrest : ∀ t, listing.step s e = some t → Stay P events t := by
        intro t hstep before after u hcut hrun
        apply hstay (e :: before) after u (by rw [hcut, List.cons_append])
        exact Runs.run_cons.mpr ⟨t, hstep, hrun⟩
      have htail := fun e' he' => htyped e' (List.mem_cons_of_mem e he')
      obtain ⟨t, slots₁, i₁, hstep, ht⟩ : ∃ t slots₁ i₁, listing.step s e = some t
          ∧ listing.Inv P t slots₁ i₁ := by
        cases e with
        | call c =>
            obtain ⟨t, slots₁, hstep, -, -, hkeep⟩ := h.call (htyped _ List.mem_cons_self)
            exact ⟨t, slots₁, i, hstep, hkeep hnow (hrest t hstep [] events t rfl rfl)⟩
        | readdir b =>
            obtain ⟨t, i₁, hstep, ht⟩ := h.readdir b
            exact ⟨t, slots, i₁, hstep, ht⟩
      obtain ⟨s', slots', i', hrun, hs'⟩ := ih ht htail (hrest t hstep)
      exact ⟨s', slots', i', Runs.run_cons.mpr ⟨t, hstep, hrun⟩, hs'⟩

/-- **`dir_readdir` enumerates completely.** From any directory, every run of `dir_readdir` calls on
one `struct dir` and of `dir_add` and `dir_remove` goes through; a further `dir_readdir` returns a
name that is in the directory, or the end. At the end the names that were in the directory all the
time have been returned once each, in the order of their slots. -/
theorem dir_readdir_enumerates {a : List UInt8} (h : DirOk a) (events : List dir_event)
    (htyped : ∀ e ∈ events, e.Typed) :
    ∃ t, Runs.run listing.step events (listing.start a) = some t ∧ DirOk t.dir
      ∧ ∀ e, ∃ r, byte_dir.dir_readdir t.dir t.pos e = .ok r
        ∧ (∀ name, r.1 = some name → name ∈ dir_names t.dir)
        ∧ (r.1 = none → ∀ P, Stay P events (listing.start a) →
          t.returned.filter P = (dir_names t.dir).filter P
          ∧ ∀ name, P name = true → t.returned.count name = 1) := by
  obtain ⟨slots, hlays, hd⟩ := h.lays
  -- the run does not depend on which names are looked for
  obtain ⟨t, slots', i, hrun, ht⟩ := listing_after
    (listing.Inv.start hlays hd fun _ => false) htyped fun _ _ _ _ _ name hP => by cases hP
  refine ⟨t, hrun, ht.lays.dir_ok ht.distinct, fun e => ?_⟩
  rw [ht.pos]
  rcases ht.lays.dir_readdir_eq ht.seen.pos_le e with ⟨name, sector, hslot, hread⟩ | ⟨hend, hread⟩
  · refine ⟨_, hread, fun name' hname => ?_, fun hnone => by cases hnone⟩
    rw [← Option.some.inj hname, ht.lays.dir_names_eq]
    exact mem_slot_keys.mpr ⟨_, sector, hslot⟩
  · refine ⟨_, hread, (fun name' hname => by cases hname), fun _ P hstay => ?_⟩
    obtain ⟨t', slots'', i', hrun', ht'⟩ :=
      listing_after (listing.Inv.start hlays hd P) htyped hstay
    obtain rfl : t' = t := Option.some.inj (hrun'.symm.trans hrun)
    obtain rfl : slots'' = slots' := ht'.lays.slots_eq.trans ht.lays.slots_eq.symm
    obtain rfl : i' = i := by
      have := ht.pos.symm.trans ht'.pos
      omega
    rw [ht.lays.dir_names_eq]
    refine ⟨ht'.seen.complete hend, fun name hP => ?_⟩
    apply ht'.seen.count_eq_one ht'.distinct hend hP
    rw [← ht'.lays.dir_names_eq]
    exact hstay events [] t' (List.append_nil _).symm hrun name hP

/-- A directory of two entries, `a` and `b`. -/
def two_names : List UInt8 :=
  byte_dir.write_entry (byte_dir.write_entry [] (dir_entry.fill zeros [97] 5) (20 * 0))
    (dir_entry.fill zeros [98] 6) (20 * 1)

theorem two_names_lays : Lays two_names [some ([97], 5), some ([98], 6)] := by
  have hok : ∀ ch : UInt8, ch ≠ 0 → NameOk [ch] := fun ch hch =>
    ⟨by simp, by simp [NAME_MAX], by simpa using hch⟩
  have h₁ := (lays_zeros 0).write (slotIs_fill zeros (hok 97 (by decide))
    (show 5 < 2 ^ 32 by decide)) (Nat.zero_le 0)
  exact h₁.write (slotIs_fill zeros (hok 98 (by decide)) (show 6 < 2 ^ 32 by decide)) le_rfl

/-- `a` is returned and removed, and `c` takes its slot, which lies behind: the next name is `b`. -/
theorem reused_slot_listed :
    ∃ t, Runs.run listing.step [.readdir zeros, .call (.remove [97] zeros),
        .call (.add [99] 7 zeros zeros), .readdir zeros] (listing.start two_names) = some t
      ∧ t.returned = [[97], [98]] ∧ ∀ P, Stay P [.readdir zeros, .call (.remove [97] zeros),
          .call (.add [99] 7 zeros zeros), .readdir zeros] (listing.start two_names) →
          t.returned.filter P = (dir_names t.dir).filter P := by
  have hd : KeysDistinct (store_slot (store_slot [] (([97] : c_string), 5)) ([98], 6)) :=
    ((keysDistinct_free 0).store rfl).store (by decide)
  obtain ⟨t, hrun, -, hread⟩ := dir_readdir_enumerates (two_names_lays.dir_ok hd)
    [.readdir zeros, .call (.remove [97] zeros), .call (.add [99] 7 zeros zeros), .readdir zeros]
    (by simp [dir_event.Typed, dir_call.Typed])
  obtain ⟨r, hr, -, hend⟩ := hread zeros
  have ht : t.returned = [[97], [98]] ∧ r.1 = none := by
    obtain rfl := Option.some.inj hrun
    obtain rfl := Outcome.ok.inj hr
    decide
  exact ⟨t, hrun, ht.1, fun P hstay => (hend ht.2 P hstay).1⟩

end Pintos
