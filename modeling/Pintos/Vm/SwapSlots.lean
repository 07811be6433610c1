/-
The swap area: `anon_swap_out`, `anon_swap_in` and `anon_destroy` over whole runs.

A slot is eight sectors. `swap_table` has a bit for each slot, and a page that is
swapped out keeps the number of its slot in `swap_idx`. Between the three operations
anything may happen that leaves the swap disk, its table and the swapped-out pages
alone: stores into frames, frames that come and go, pages that are made or dropped.
-/
import Pintos.Lib.Runs
import Pintos.Vm.Process

set_option autoImplicit false

namespace Pintos

namespace swap

/-! ## Runs -/

/-- The page is swapped out, in slot `i`. -/
def InSlot (s : vm) (p i : ℕ) : Prop := ∃ pg, s.page p = some pg ∧ pg.kind = .anon i

/-- The rest of the kernel. -/
structure Elsewhere (s s' : vm) : Prop where
  disk : s'.swap_disk = s.swap_disk
  table : s'.swap_table = s.swap_table
  pages : ∀ p pg (i : ℕ), pg.kind = .anon i → (s'.page p = some pg ↔ s.page p = some pg)

/-- What can happen next. -/
inductive event
  | swap_out (p : ℕ)
  /-- The page gets a frame and its contents back. -/
  | swap_in (p f : ℕ)
  /-- The page is destroyed and freed. -/
  | destroy (p : ℕ)
  | elsewhere
  deriving DecidableEq, Repr

/-- One event. The three operations are on anonymous pages, and complete. -/
inductive Step : vm → event → vm → Prop
  | swap_out {s s' : vm} {p : ℕ} {pg : page} {i : ℤ} (hpg : s.page p = some pg)
      (hk : pg.kind = .anon i) (hrun : anon_swap_out s p = .ok (true, s')) : Step s (.swap_out p) s'
  | swap_in {s s' : vm} {p f : ℕ} {pg : page} {fr : frame} {i : ℤ} {done : Bool}
      (hpg : s.page p = some pg) (hk : pg.kind = .anon i) (hf : s.frame f = some fr)
      (hrun : anon_swap_in (s.set_page p { pg with frame := some f }) p i fr.kva = .ok (done, s')) :
      Step s (.swap_in p f) s'
  | destroy {s s' : vm} {t p : ℕ} {pg : page} {i : ℤ} (hpg : s.page p = some pg)
      (hk : pg.kind = .anon i) (hrun : anon_destroy s t pg i = .ok s') :
      Step s (.destroy p) (s'.free_page p)
  | elsewhere {s s' : vm} (h : Elsewhere s s') : Step s .elsewhere s'

/-- A run. -/
abbrev Run : vm → List event → vm → Prop := Runs.Path Step

/-- `vm_anon_init`, before the first page. -/
def vm_anon_init (s : vm) : vm := { s with swap_table := fun _ => false, page := fun _ => none }

/-- **The slots are exact**: the set bits are the slots of the swapped-out pages, all of them on
the disk, and each slot has one page. -/
structure Exact (s : vm) : Prop where
  bits : ∀ i, s.swap_table i = true ↔ ∃ p, InSlot s p i
  one : ∀ p q i, InSlot s p i → InSlot s q i → p = q
  on_disk : ∀ i, s.swap_table i = true → i < swap_slots s

/-! ## The two loops -/

/-- The sectors of a slot pass `select_sector`. -/
def Selects (d : disk) (i : ℕ) : Prop := ∀ j, j < 8 → select_sector d (i * 8 + j)

/-- The bytes of a slot. -/
def slot_bytes (d : disk) (i : ℕ) : Bytes :=
  fun k => d.sectors (i * 8 + k / DISK_SECTOR_SIZE) (k % DISK_SECTOR_SIZE)

/-- **Writing.** Of the disk, `n` sectors of the slot are new. -/
theorem swap_out_loop_spec {idx : ℕ} {kva : Bytes} {n i : ℕ} {d d' : disk}
    (hrun : swap_out_loop idx kva n i d = .ok d') :
    d'.capacity = d.capacity
      ∧ (∀ j, i ≤ j → j < i + n → select_sector d (idx * 8 + j)
        ∧ d'.sectors (idx * 8 + j) = fun k => kva (DISK_SECTOR_SIZE * j + k))
      ∧ ∀ sec, (∀ j, i ≤ j → j < i + n → sec ≠ idx * 8 + j) → d'.sectors sec = d.sectors sec := by
  induction n generalizing i d with
  | zero =>
      obtain rfl := Outcome.ok.inj hrun
      exact ⟨rfl, fun j h₁ h₂ => by omega, fun _ _ => rfl⟩
  | succ n ih =>
      obtain ⟨d₁, hwrite, hrest⟩ := Outcome.bind_eq_ok.mp hrun
      obtain ⟨hsel, rfl⟩ := disk_write_eq_ok.mp hwrite
      obtain ⟨hcap, hnew, hold⟩ := ih hrest
      refine ⟨hcap, fun j h₁ h₂ => ?_, fun sec hsec => ?_⟩
      · by_cases hj : j = i
        · subst hj
          refine ⟨hsel, ?_⟩
          rw [hold _ fun j' _ _ => by omega]
          exact d.put_sectors_self _ _
        · exact hnew j (by omega) (by omega)
      · rw [hold sec fun j h₁ h₂ => hsec j (by omega) (by omega)]
        exact disk.put_sectors_of_ne (hsec i le_rfl (by omega))

/-- **Reading.** Of the buffer, `n` pieces are the sectors of the slot. -/
theorem swap_in_loop_spec {d : disk} {idx : ℕ} (hsel : Selects d idx) {n i : ℕ} (hn : i + n ≤ 8)
    (kva : Bytes) :
    ∃ b, swap_in_loop d idx n i kva = .ok b ∧ ∀ k, b k
      = if DISK_SECTOR_SIZE * i ≤ k ∧ k < DISK_SECTOR_SIZE * (i + n) then slot_bytes d idx k
        else kva k := by
  induction n generalizing i kva with
  | zero =>
      refine ⟨kva, rfl, fun k => ?_⟩
      rw [Nat.add_zero, if_neg]
      omega
  | succ n ih =>
      have hread := disk_read_ok (hsel i (by omega))
      obtain ⟨b, hrest, hb⟩ := ih (i := i + 1) (by omega)
        (memcpy kva (DISK_SECTOR_SIZE * i) (d.sectors (idx * 8 + i)) DISK_SECTOR_SIZE)
      refine ⟨b, ?_, fun k => ?_⟩
      · rw [swap_in_loop, hread]
        exact hrest
      · rw [hb k]
        unfold DISK_SECTOR_SIZE at *
        by_cases hpiece : 512 * i ≤ k ∧ k < 512 * i + 512
        · -- the piece that this turn reads
          rw [if_neg (by omega), if_pos (by omega), memcpy_in hpiece.1 hpiece.2]
          unfold slot_bytes DISK_SECTOR_SIZE
          have hdiv : k / 512 = i := by omega
          have hmod : k % 512 = k - 512 * i := by omega
          rw [hdiv, hmod]
        · by_cases hlater : 512 * (i + 1) ≤ k ∧ k < 512 * (i + 1 + n)
          · rw [if_pos hlater, if_pos (by omega)]
          · rw [if_neg hlater, if_neg (by omega), memcpy_out hpiece]

/-! ## The operations -/

/-- **`anon_swap_out`**, when it completes. -/
theorem anon_swap_out_spec {s s' : vm} {p : ℕ} (hrun : anon_swap_out s p = .ok (true, s')) :
    ∃ idx pg f fr, swap_scan s = some idx ∧ s.page p = some pg ∧ pg.frame = some f
      ∧ s.frame f = some fr
      ∧ swap_out_loop idx (s.mem fr.kva) 8 0 s.swap_disk = .ok s'.swap_disk
      ∧ s'.swap_table = Function.update s.swap_table idx true
      ∧ s'.page = Function.update s.page p (some { pg with frame := none, kind := .anon idx }) := by
  unfold anon_swap_out at hrun
  split at hrun
  · cases hrun
  · rename_i idx hscan
    obtain ⟨pg, hpg, hrun⟩ := Outcome.bind_eq_ok.mp hrun
    obtain ⟨⟨f, fr⟩, hf, hrun⟩ := Outcome.bind_eq_ok.mp hrun
    obtain ⟨d, hloop, hrun⟩ := Outcome.bind_eq_ok.mp hrun
    obtain ⟨s₁, hunlink, hret⟩ := Outcome.bind_eq_ok.mp hrun
    obtain ⟨⟨f', fr'⟩, -, hunlink⟩ := Outcome.bind_eq_ok.mp hunlink
    obtain ⟨hframe, hfr⟩ := vm.get_frame_eq_ok.mp hf
    obtain rfl := Outcome.ok.inj hunlink
    obtain ⟨-, rfl⟩ := Outcome.ok_pair hret
    exact ⟨idx, pg, f, fr, hscan, vm.get_page_eq_ok.mp hpg, hframe, hfr, hloop, rfl, rfl⟩

/-- **`anon_swap_in`** of a page that is swapped out gives the bytes of its slot. -/
theorem anon_swap_in_slot {s : vm} {p : ℕ} {pg : page} (hpg : s.page p = some pg) {i : ℕ}
    (hsel : Selects s.swap_disk i) (kva : ℕ) :
    ∃ s', anon_swap_in s p i kva = .ok (true, s') ∧ s'.swap_disk = s.swap_disk
      ∧ s'.swap_table = Function.update s.swap_table i false
      ∧ s'.page = Function.update s.page p (some { pg with kind := .anon (-1) })
      ∧ ∀ k, k < PGSIZE → s'.mem kva k = slot_bytes s.swap_disk i k := by
  obtain ⟨b, hloop, hb⟩ := swap_in_loop_spec hsel (n := 8) (i := 0) le_rfl (s.mem kva)
  have hpage : s.get_page p = .ok pg := vm.get_page_eq_ok.mpr hpg
  refine ⟨((s.set_mem kva b).set_swap s.swap_disk i false).set_page p
    { pg with kind := .anon (-1) }, ?_, rfl, rfl, rfl, fun k hk => ?_⟩
  · unfold anon_swap_in
    rw [if_neg (by omega), hpage, Outcome.ok_bind, Int.toNat_natCast, hloop]
    rfl
  · change Function.update s.mem kva b kva k = _
    rw [Function.update_self, hb k, if_pos]
    unfold PGSIZE at hk
    unfold DISK_SECTOR_SIZE
    omega

/-- A page that is not swapped out is not swapped in. -/
theorem anon_swap_in_resident {s s' : vm} {p : ℕ} {i : ℤ} (hi : i < 0) {kva : ℕ} {done : Bool}
    (hrun : anon_swap_in s p i kva = .ok (done, s')) : s' = s := by
  unfold anon_swap_in at hrun
  rw [if_pos hi] at hrun
  exact (Outcome.ok_pair hrun).2.symm

/-- **`anon_destroy`** gives the slot back. -/
theorem anon_destroy_spec {s s' : vm} {t : ℕ} {pg : page} {i : ℤ}
    (hrun : anon_destroy s t pg i = .ok s') :
    s'.swap_disk = s.swap_disk ∧ s'.page = s.page
      ∧ s'.swap_table = if i < 0 then s.swap_table
      else Function.update s.swap_table i.toNat false := by
  obtain ⟨s₁, hclear, hret⟩ := Outcome.bind_eq_ok.mp hrun
  obtain ⟨_, _, hclear⟩ := Outcome.bind_eq_ok.mp hclear
  obtain ⟨_, _, hclear⟩ := Outcome.bind_eq_ok.mp hclear
  obtain rfl := Outcome.ok.inj hclear
  obtain rfl := Outcome.ok.inj hret
  split
  · exact ⟨rfl, rfl, rfl⟩
  · exact ⟨rfl, rfl, rfl⟩

/-! ## The invariant -/

/-- The slots are exact, a swapped-out page has no frame, and its sectors can be read. -/
structure Inv (s : vm) : Prop extends Exact s where
  no_frame : ∀ p pg (i : ℕ), s.page p = some pg → pg.kind = .anon i → pg.frame = none
  selects : ∀ i, s.swap_table i = true → Selects s.swap_disk i

theorem vm_anon_init_inv (s : vm) : Inv (vm_anon_init s) where
  bits i := by
    constructor
    · intro h
      cases h
    · rintro ⟨p, pg, hpg, -⟩
      cases hpg
  one := by
    rintro p q i ⟨pg, hpg, -⟩
    cases hpg
  on_disk := nofun
  no_frame := nofun
  selects := nofun

variable {s s' : vm} {p : ℕ}

/-- **A slot is taken**, by a page that had none. -/
theorem Inv.take (h : Inv s) {idx : ℕ} {pg : page} (hk : pg.kind = .anon idx) (hf : pg.frame = none)
    (hnone : ∀ i, ¬ InSlot s p i) (hfree : s.swap_table idx = false) (hidx : idx < swap_slots s)
    (hcap : s'.swap_disk.capacity = s.swap_disk.capacity)
    (htable : s'.swap_table = Function.update s.swap_table idx true)
    (hpage : s'.page = Function.update s.page p (some pg)) (hsel : Selects s'.swap_disk idx) :
    Inv s' := by
  have hslot : ∀ q i, InSlot s' q i ↔ (q = p ∧ i = idx) ∨ InSlot s q i := by
    intro q i
    unfold InSlot
    rw [hpage]
    by_cases hq : q = p
    · rw [hq, Function.update_self]
      constructor
      · rintro ⟨pg', heq, hk'⟩
        obtain rfl := Option.some.inj heq
        rw [hk] at hk'
        exact .inl ⟨rfl, Int.ofNat.inj (page_kind.anon.inj hk').symm⟩
      · rintro (⟨-, rfl⟩ | hin)
        · exact ⟨pg, rfl, hk⟩
        · exact absurd hin (hnone i)
    · rw [Function.update_of_ne hq]
      simp [hq]
  have hslots : swap_slots s' = swap_slots s := by
    unfold swap_slots disk_size
    rw [hcap]
  have hbit : ∀ i, s'.swap_table i = true ↔ i = idx ∨ s.swap_table i = true := by
    intro i
    rw [htable]
    by_cases hi : i = idx
    · rw [hi, Function.update_self]
      simp
    · rw [Function.update_of_ne hi]
      simp [hi]
  refine ⟨⟨fun i => ?_, fun q r i hq hr => ?_, fun i hi => ?_⟩, fun q qg i hq hkq => ?_,
    fun i hi => ?_⟩
  · rw [hbit i, h.bits i]
    simp only [hslot]
    constructor
    · rintro (rfl | ⟨q, hq⟩)
      · exact ⟨p, .inl ⟨rfl, rfl⟩⟩
      · exact ⟨q, .inr hq⟩
    · rintro ⟨q, ⟨-, rfl⟩ | hq⟩
      · exact .inl rfl
      · exact .inr ⟨q, hq⟩
  · -- the slot was free, so nobody else is in it
    have hout : ∀ q, ¬ InSlot s q idx := by
      intro q hq
      have hset := (h.bits idx).mpr ⟨q, hq⟩
      rw [hfree] at hset
      cases hset
    rcases (hslot q i).mp hq with ⟨rfl, rfl⟩ | hq
    · rcases (hslot r _).mp hr with ⟨rfl, -⟩ | hr
      · rfl
      · exact absurd hr (hout r)
    · rcases (hslot r i).mp hr with ⟨-, rfl⟩ | hr
      · exact absurd hq (hout q)
      · exact h.one q r i hq hr
  · rw [hslots]
    rcases (hbit i).mp hi with rfl | hi
    · exact hidx
    · exact h.on_disk i hi
  · rw [hpage] at hq
    by_cases hqp : q = p
    · rw [hqp, Function.update_self] at hq
      obtain rfl := Option.some.inj hq
      exact hf
    · rw [Function.update_of_ne hqp] at hq
      exact h.no_frame q qg i hq hkq
  · rcases (hbit i).mp hi with rfl | hi
    · exact hsel
    · intro j hj
      exact select_sector_congr hcap (h.selects i hi j hj)

/-- **A slot is given back**, with the page that was in it; or a page changes that had none. -/
theorem Inv.drop (h : Inv s) (hdisk : s'.swap_disk = s.swap_disk)
    (hother : ∀ q, q ≠ p → s'.page q = s.page q) (hnone : ∀ i, ¬ InSlot s' p i)
    (htable : ∀ i, s'.swap_table i = true ↔ s.swap_table i = true ∧ ¬ InSlot s p i) : Inv s' := by
  have hslot : ∀ q i, InSlot s' q i ↔ q ≠ p ∧ InSlot s q i := by
    intro q i
    by_cases hq : q = p
    · rw [hq]
      exact iff_of_false (hnone i) fun hin => hin.1 rfl
    · unfold InSlot
      rw [hother q hq]
      simp [hq]
  have hslots : swap_slots s' = swap_slots s := by
    unfold swap_slots
    rw [hdisk]
  refine ⟨⟨fun i => ?_, fun q r i hq hr => ?_, fun i hi => ?_⟩, fun q qg i hq hkq => ?_,
    fun i hi => ?_⟩
  · rw [htable i, h.bits i]
    simp only [hslot]
    constructor
    · rintro ⟨⟨q, hq⟩, hp⟩
      refine ⟨q, fun heq => hp ?_, hq⟩
      rw [← heq]
      exact hq
    · rintro ⟨q, hqp, hq⟩
      refine ⟨⟨q, hq⟩, fun hp => hqp ?_⟩
      exact h.one q p i hq hp
  · exact h.one q r i ((hslot q i).mp hq).2 ((hslot r i).mp hr).2
  · rw [hslots]
    exact h.on_disk i ((htable i).mp hi).1
  · have hqp : q ≠ p := by
      rintro rfl
      exact hnone i ⟨qg, hq, hkq⟩
    rw [hother q hqp] at hq
    exact h.no_frame q qg i hq hkq
  · rw [hdisk]
    exact h.selects i ((htable i).mp hi).1

/-- The bit of the slot of `p`. -/
theorem table_reset {i : ℕ} (hp : InSlot s p i) (j : ℕ) :
    Function.update s.swap_table i false j = true ↔ s.swap_table j = true ∧ ¬ InSlot s p j := by
  by_cases hj : j = i
  · rw [hj, Function.update_self]
    simp [hp]
  · rw [Function.update_of_ne hj]
    have hother : ¬ InSlot s p j := by
      rintro ⟨pg, hpg, hk⟩
      obtain ⟨pg', hpg', hk'⟩ := hp
      rw [hpg] at hpg'
      obtain rfl := Option.some.inj hpg'
      rw [hk] at hk'
      exact hj (Int.ofNat.inj (page_kind.anon.inj hk'))
    simp [hother]

/-- A page with no slot number is in no slot. -/
theorem not_inSlot {pg : page} (hpg : s.page p = some pg) {i : ℤ} (hk : pg.kind = .anon i)
    (hi : i < 0) (j : ℕ) : ¬ InSlot s p j := by
  rintro ⟨pg', hpg', hk'⟩
  rw [hpg] at hpg'
  obtain rfl := Option.some.inj hpg'
  rw [hk] at hk'
  have heq := page_kind.anon.inj hk'
  omega

/-- **One event.** -/
theorem Inv.step (h : Inv s) {e : event} (hstep : Step s e s') : Inv s' := by
  cases hstep with
  | swap_out hpg hk hrun =>
      rename_i p pg i
      obtain ⟨idx, pg', f, fr, hscan, hpg', hf, hfr, hloop, htable, hpage⟩ :=
        anon_swap_out_spec hrun
      rw [hpg] at hpg'
      obtain rfl := Option.some.inj hpg'
      obtain ⟨hcap, hnew, -⟩ := swap_out_loop_spec hloop
      have hmem := List.mem_of_find?_eq_some hscan
      refine h.take (p := p) ?_ ?_ (fun j hj => ?_) ?_ (List.mem_range.mp hmem) hcap htable hpage
        fun j hj => ?_
      · rfl
      · rfl
      · -- a page with a frame is not swapped out
        obtain ⟨pg', hpg', hk'⟩ := hj
        rw [hpg] at hpg'
        obtain rfl := Option.some.inj hpg'
        have hnone := h.no_frame p pg j hpg hk'
        rw [hf] at hnone
        cases hnone
      · simpa using List.find?_some hscan
      · exact select_sector_congr hcap (hnew j (Nat.zero_le _) (by omega)).1
  | swap_in hpg hk hf hrun =>
      rename_i p f pg fr i done
      have hset : (s.set_page p { pg with frame := some f }).page p
          = some { pg with frame := some f } :=
        Function.update_self _ _ _
      by_cases hi : i < 0
      · obtain rfl := anon_swap_in_resident hi hrun
        refine h.drop (p := p) rfl (fun q hq => Function.update_of_ne hq _ _)
          (not_inSlot hset hk hi) fun j => ?_
        simp [not_inSlot hpg hk hi j]
      · obtain ⟨n, rfl⟩ := Int.eq_ofNat_of_zero_le (not_lt.mp hi)
        have hin : InSlot s p n := ⟨pg, hpg, hk⟩
        have hsel := h.selects n ((h.bits n).mpr ⟨p, hin⟩)
        obtain ⟨s₁, hok, hdisk, htable, hpage, -⟩ := anon_swap_in_slot hset
          (s := s.set_page p { pg with frame := some f }) hsel fr.kva
        rw [hrun] at hok
        obtain ⟨-, rfl⟩ := Outcome.ok_pair hok
        refine h.drop (p := p) hdisk (fun q hq => ?_) ?_ fun j => ?_
        · rw [hpage, Function.update_of_ne hq]
          exact Function.update_of_ne hq _ _
        · have hresident := congrFun hpage p
          rw [Function.update_self] at hresident
          exact not_inSlot hresident rfl (by decide)
        · rw [htable]
          exact table_reset hin j
  | destroy hpg hk hrun =>
      rename_i s₁ t p pg i
      obtain ⟨hdisk, hpage, htable⟩ := anon_destroy_spec hrun
      refine h.drop (p := p) hdisk (fun q hq => ?_) (fun j hj => ?_) fun j => ?_
      · change Function.update s₁.page p none q = _
        rw [Function.update_of_ne hq, hpage]
      · obtain ⟨pg', hpg', -⟩ := hj
        change Function.update s₁.page p none p = _ at hpg'
        rw [Function.update_self] at hpg'
        cases hpg'
      · change s₁.swap_table j = true ↔ _
        rw [htable]
        split
        · rename_i hi
          simp [not_inSlot hpg hk hi j]
        · rename_i hi
          obtain ⟨n, rfl⟩ := Int.eq_ofNat_of_zero_le (not_lt.mp hi)
          exact table_reset ⟨pg, hpg, hk⟩ j
  | elsewhere helse =>
      have hslot : ∀ q i, InSlot s' q i ↔ InSlot s q i := by
        intro q i
        constructor
        · rintro ⟨pg, hpg, hk⟩
          exact ⟨pg, (helse.pages q pg i hk).mp hpg, hk⟩
        · rintro ⟨pg, hpg, hk⟩
          exact ⟨pg, (helse.pages q pg i hk).mpr hpg, hk⟩
      refine ⟨⟨fun i => ?_, fun q r i hq hr => ?_, fun i hi => ?_⟩, fun q qg i hq hk => ?_,
        fun i hi => ?_⟩
      · rw [helse.table, h.bits i]
        simp only [hslot]
      · exact h.one q r i ((hslot q i).mp hq) ((hslot r i).mp hr)
      · rw [helse.table] at hi
        unfold swap_slots
        rw [helse.disk]
        exact h.on_disk i hi
      · exact h.no_frame q qg i ((helse.pages q qg i hk).mp hq) hk
      · rw [helse.table] at hi
        rw [helse.disk]
        exact h.selects i hi

/-! ## Contents -/

/-- The page is in slot `i`, and the slot holds `b`. -/
structure Kept (p i : ℕ) (b : Bytes) (s : vm) : Prop where
  inSlot : InSlot s p i
  bytes : ∀ k, k < PGSIZE → slot_bytes s.swap_disk i k = b k

/-- The page of an event. -/
def event.About : event → ℕ → Prop
  | .swap_in p _, q => p = q
  | .destroy p, q => p = q
  | _, _ => False

/-- **Swapping out** puts the contents of the frame into the slot. -/
theorem kept_of_swap_out (hstep : Step s (.swap_out p) s') :
    ∃ pg f fr i, s.page p = some pg ∧ pg.frame = some f ∧ s.frame f = some fr
      ∧ Kept p i (s.mem fr.kva) s' := by
  cases hstep with
  | swap_out hpg hk hrun =>
      obtain ⟨idx, pg, f, fr, -, hpg, hf, hfr, hloop, -, hpage⟩ := anon_swap_out_spec hrun
      obtain ⟨-, hnew, -⟩ := swap_out_loop_spec hloop
      have hout := congrFun hpage p
      rw [Function.update_self] at hout
      refine ⟨pg, f, fr, idx, hpg, hf, hfr, ⟨_, hout, rfl⟩, fun k hk => ?_⟩
      · -- byte `k` is in sector `k / 512` of the slot
        unfold PGSIZE at hk
        unfold slot_bytes DISK_SECTOR_SIZE
        have hsec : k / 512 < 8 := by omega
        rw [(hnew (k / 512) (Nat.zero_le _) (by omega)).2]
        exact congrArg (s.mem fr.kva) (Nat.div_add_mod k 512)

/-- **What happens to other pages** does not touch the slot. -/
theorem Kept.step {i : ℕ} {b : Bytes} (h : Kept p i b s) (hinv : Inv s) {e : event}
    (he : ¬ e.About p) (hstep : Step s e s') : Kept p i b s' := by
  obtain ⟨⟨pg, hpg, hk⟩, hbytes⟩ := h
  cases hstep with
  | swap_out hqg hkq hrun =>
      rename_i q qg n
      obtain ⟨idx, qg', f, fr, hscan, hqg', hf, -, hloop, -, hpage⟩ := anon_swap_out_spec hrun
      have hqp : p ≠ q := by
        -- a page without a frame is not swapped out
        rintro rfl
        rw [hpg] at hqg'
        obtain rfl := Option.some.inj hqg'
        rw [hinv.no_frame p pg i hpg hk] at hf
        cases hf
      have hidx : idx ≠ i := by
        rintro rfl
        have hset := (hinv.bits idx).mpr ⟨p, pg, hpg, hk⟩
        have hfree : s.swap_table idx = false := by simpa using List.find?_some hscan
        rw [hfree] at hset
        cases hset
      obtain ⟨-, -, hold⟩ := swap_out_loop_spec hloop
      refine ⟨⟨pg, ?_, hk⟩, fun k hk' => ?_⟩
      · rw [hpage, Function.update_of_ne hqp]
        exact hpg
      · rw [← hbytes k hk']
        unfold slot_bytes
        unfold PGSIZE at hk'
        rw [hold _ fun j _ hj => ?_]
        unfold DISK_SECTOR_SIZE
        omega
  | swap_in hqg hkq hf hrun =>
      rename_i q f qg fr n done
      have hqp : p ≠ q := fun heq => he heq.symm
      have hset : (s.set_page q { qg with frame := some f }).page q
          = some { qg with frame := some f } :=
        Function.update_self _ _ _
      have hpg' : (s.set_page q { qg with frame := some f }).page p = some pg := by
        rw [vm.set_page_page, Function.update_of_ne hqp]
        exact hpg
      by_cases hn : n < 0
      · obtain rfl := anon_swap_in_resident hn hrun
        exact ⟨⟨pg, hpg', hk⟩, hbytes⟩
      · obtain ⟨m, rfl⟩ := Int.eq_ofNat_of_zero_le (not_lt.mp hn)
        have hsel := hinv.selects m ((hinv.bits m).mpr ⟨q, qg, hqg, hkq⟩)
        obtain ⟨s₁, hok, hdisk, -, hpage, -⟩ := anon_swap_in_slot hset
          (s := s.set_page q { qg with frame := some f }) hsel fr.kva
        rw [hrun] at hok
        obtain ⟨-, rfl⟩ := Outcome.ok_pair hok
        refine ⟨⟨pg, ?_, hk⟩, fun k hk' => ?_⟩
        · rw [hpage, Function.update_of_ne hqp]
          exact hpg'
        · rw [hdisk]
          exact hbytes k hk'
  | destroy hqg hkq hrun =>
      rename_i s₁ t q qg n
      have hqp : p ≠ q := fun heq => he heq.symm
      obtain ⟨hdisk, hpage, -⟩ := anon_destroy_spec hrun
      refine ⟨⟨pg, ?_, hk⟩, fun k hk' => ?_⟩
      · rw [vm.free_page_page, Function.update_of_ne hqp, hpage]
        exact hpg
      · rw [vm.free_page_swap_disk, hdisk]
        exact hbytes k hk'
  | elsewhere helse =>
      refine ⟨⟨pg, (helse.pages p pg i hk).mpr hpg, hk⟩, fun k hk' => ?_⟩
      rw [helse.disk]
      exact hbytes k hk'

theorem Run.inv {es : List event} (hrun : Run s es s') (h : Inv s) : Inv s' :=
  hrun.invariant (fun _ _ _ _ hi hstep => hi.step hstep) h

/-- **Swap slots.** In every state of a run the slots are exact. A page that was swapped out, and
neither swapped in nor destroyed since, is swapped in with the bytes it had. -/
theorem swapped_pages_exact (boot s : vm) (es : List event) (hrun : Run (vm_anon_init boot) es s) :
    Exact s ∧ ∀ (p : ℕ) (s₁ s₂ : vm) (mid : List event), Step s (.swap_out p) s₁ → Run s₁ mid s₂ →
      (∀ e ∈ mid, ¬ e.About p) →
      ∃ (pg : page) (f : ℕ) (fr : frame) (i : ℕ) (pg' : page),
        s.page p = some pg ∧ pg.frame = some f ∧ s.frame f = some fr
          ∧ s₂.page p = some pg' ∧ pg'.kind = .anon i
          ∧ ∀ g kva, ∃ s₃, anon_swap_in (s₂.set_page p { pg' with frame := some g }) p i kva
              = .ok (true, s₃) ∧ ∀ k, k < PGSIZE → s₃.mem kva k = s.mem fr.kva k := by
  have hinv := hrun.inv (vm_anon_init_inv boot)
  refine ⟨hinv.toExact, fun p s₁ s₂ mid hout hmid hnot => ?_⟩
  obtain ⟨pg, f, fr, i, hpg, hf, hfr, hkept⟩ := kept_of_swap_out hout
  have hboth := hmid.invariant (I := fun x => Inv x ∧ Kept p i (s.mem fr.kva) x)
    (fun x e y he hx hstep => ⟨hx.1.step hstep, hx.2.step hx.1 (hnot e he) hstep⟩)
    ⟨hinv.step hout, hkept⟩
  obtain ⟨hinv₂, ⟨pg', hpg', hk'⟩, hbytes⟩ := hboth
  refine ⟨pg, f, fr, i, pg', hpg, hf, hfr, hpg', hk', fun g kva => ?_⟩
  have hsel := hinv₂.selects i ((hinv₂.bits i).mpr ⟨p, pg', hpg', hk'⟩)
  obtain ⟨s₃, hok, -, -, -, hmem⟩ := anon_swap_in_slot (Function.update_self _ _ _)
    (s := s₂.set_page p { pg' with frame := some g }) hsel kva
  exact ⟨s₃, hok, fun k hk => (hmem k hk).trans (hbytes k hk)⟩

/-! ## A page that goes out and comes in -/

/-- A machine with one frame, full of sevens, and a swap disk of one slot. -/
def one_slot : vm where
  proc _ := process.empty
  next_proc := 1
  page _ := none
  next_page := 1
  frame f := if f = 0 then some { kva := 0, ref_cnt := 1, page := some 0 } else none
  next_frame := 1
  frame_table := [0]
  clock_start := none
  used k := k = 0
  pool_pages := 1
  mem _ := fun _ => 7
  swap_disk := { capacity := 8, sectors := fun _ => zeros, written := [] }
  swap_table _ := false
  files :=
    { disk := { capacity := 0, sectors := fun _ => zeros, written := [] }
      fat :=
        { bs := { magic := FAT_MAGIC, sectors_per_cluster := 1, total_sectors := 0
                  fat_start := 1, fat_sectors := 1, root_dir_cluster := 1 }
          fat := fun _ => 0, fat_length := 0, data_start := 0, last_clst := 2 }
      inode := fun _ => none
      next_inode := 0
      open_inodes := []
      file := fun _ => none
      next_file := 0 }
  lazy_load_segment_word := 0

/-- Two frames, one of sevens and one of eights, and a swap disk of two slots. -/
def two_slots : vm :=
  { one_slot with
    frame := fun f => if f < 2 then some { kva := f, ref_cnt := 1, page := some f } else none
    next_frame := 2
    frame_table := [0, 1]
    mem := fun kva _ => if kva = 0 then 7 else 8
    swap_disk := { capacity := 16, sectors := fun _ => zeros, written := [] } }

/-- An anonymous page in the frame of its own number. -/
def resident_page (p : ℕ) : page :=
  { va := 0x400000 + p * PGSIZE, frame := some p, writable := true, kind := .anon (-1) }

theorem elsewhere_resident {p : ℕ} (h : s.page p = none) :
    Elsewhere s (s.set_page p (resident_page p)) := by
  refine ⟨rfl, rfl, fun q pg i hk => ?_⟩
  by_cases hq : q = p
  · rw [hq, vm.set_page_page, Function.update_self, h]
    refine iff_of_false (fun hpg => ?_) nofun
    obtain rfl := Option.some.inj hpg
    have hneg := page_kind.anon.inj hk
    omega
  · rw [vm.set_page_page, Function.update_of_ne hq]

def two_resident : vm :=
  ((vm_anon_init two_slots).set_page 0 (resident_page 0)).set_page 1 (resident_page 1)

/-- The page of sevens is swapped out, another one behind it; the sevens come back. -/
theorem sevens_come_back :
    ∃ s s₁ s₂, Run (vm_anon_init two_slots) [.elsewhere, .elsewhere] s ∧ Step s (.swap_out 0) s₁
      ∧ Run s₁ [.swap_out 1] s₂
      ∧ ∃ pg' i, s₂.page 0 = some pg' ∧ pg'.kind = .anon (i : ℕ)
        ∧ ∀ g kva, ∃ s₃, anon_swap_in (s₂.set_page 0 { pg' with frame := some g }) 0 i kva
            = .ok (true, s₃) ∧ ∀ k, k < PGSIZE → s₃.mem kva k = 7 := by
  have hrun : Run (vm_anon_init two_slots) [.elsewhere, .elsewhere] two_resident :=
    .cons (.elsewhere (elsewhere_resident rfl))
      (.cons (.elsewhere (elsewhere_resident rfl)) (.nil _))
  obtain ⟨s₁, hout⟩ : ∃ s₁, anon_swap_out two_resident 0 = .ok (true, s₁) := ⟨_, rfl⟩
  have hstep : Step two_resident (.swap_out 0) s₁ :=
    .swap_out (rfl : _ = some (resident_page 0)) rfl hout
  -- the second page finds the other slot; none of this is about the first page
  obtain ⟨s₂, hpage, hout₂⟩ : ∃ s₂, s₁.page 1 = some (resident_page 1)
      ∧ anon_swap_out s₁ 1 = .ok (true, s₂) := by
    obtain rfl := Outcome.ok_pair hout |>.2
    exact ⟨_, rfl, rfl⟩
  have hmid : Run s₁ [.swap_out 1] s₂ := .cons (.swap_out hpage rfl hout₂) (.nil _)
  obtain ⟨pg, f, fr, i, pg', hpg, hf, hfr, hpg', hk', hin⟩ :=
    (swapped_pages_exact two_slots _ _ hrun).2 0 s₁ s₂ [.swap_out 1] hstep hmid fun e he => by
      obtain rfl := List.mem_singleton.mp he
      exact id
  obtain rfl := Option.some.inj hpg
  obtain rfl := Option.some.inj hf
  obtain rfl := Option.some.inj hfr
  exact ⟨_, s₁, s₂, hrun, hstep, hmid, pg', i, hpg', hk', hin⟩

end swap

end Pintos
