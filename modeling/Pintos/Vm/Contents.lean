/-
What is in an anonymous page, wherever it is.

An anonymous page that was touched is in its frame or in its slot of the swap area. `Holds` says
which bytes it has there. Eviction moves them to the slot and a fault brings them back, so neither
changes what a page holds.
-/
import Pintos.Vm.Stale
import Pintos.Vm.SwapSlots

set_option autoImplicit false

namespace Pintos

namespace vm

variable {s s' : vm} {t va p : ℕ} {pg : Pintos.page} {b : Bytes}

/-- The bytes of a page. -/
def SameBytes (b b' : Bytes) : Prop := ∀ k, k < PGSIZE → b k = b' k

/-- The kind of a page that is anonymous and was touched. -/
def IsAnon (kd : page_kind) : Prop := ∃ i, kd = .anon i

/-- The page at `(t, va)` is anonymous, was touched and has the bytes `b`. -/
inductive Holds (s : vm) (t va : ℕ) (b : Bytes) : Prop
  | resident {pg : Pintos.page} {f : ℕ} {fr : Pintos.frame} (hreg : s.registered t va = some pg)
      (hk : IsAnon pg.kind) (hpf : pg.frame = some f) (hf : s.frame f = some fr)
      (hb : SameBytes (s.mem fr.kva) b)
  | swapped {pg : Pintos.page} {i : ℕ} (hreg : s.registered t va = some pg) (hk : pg.kind = .anon i)
      (hpf : pg.frame = none) (hb : SameBytes (swap.slot_bytes s.swap_disk i) b)

/-- The pages that hold something hold it still. -/
def KeepsBytes (s s' : vm) : Prop := ∀ t va b, s.Holds t va b → s'.Holds t va b

theorem KeepsBytes.trans {s'' : vm} (h : KeepsBytes s s') (h' : KeepsBytes s' s'') :
    KeepsBytes s s'' :=
  fun t va b hb => h' t va b (h t va b hb)

/-- **A page that an operation does not touch**: it stays registered, its frame keeps its physical
page and its bytes, and its slot keeps its sectors. -/
theorem Holds.mono (h : s.Holds t va b) (hreg : s'.registered t va = s.registered t va)
    (hframe : ∀ {f fr}, s.Resident t va f → s.frame f = some fr →
      ∃ fr', s'.frame f = some fr' ∧ fr'.kva = fr.kva ∧ s'.mem fr.kva = s.mem fr.kva)
    (hslot : ∀ {i}, s.OnSlot t va i →
      SameBytes (swap.slot_bytes s'.swap_disk i) (swap.slot_bytes s.swap_disk i)) :
    s'.Holds t va b := by
  cases h with
  | @resident pg f fr hr hk hpf hf hb =>
      obtain ⟨fr', hf', hkva, hmem⟩ := hframe ⟨pg, hr, hpf⟩ hf
      refine .resident (hreg.trans hr) hk hpf hf' ?_
      rw [hkva, hmem]
      exact hb
  | @swapped pg i hr hk hpf hb =>
      have hsame := hslot ⟨pg, hr, hk⟩
      exact .swapped (hreg.trans hr) hk hpf fun k hlt => (hsame k hlt).trans (hb k hlt)

/-! ## Nothing moves -/

theorem SameTables.keepsBytes (h : SameTables s s') (hmem : s'.mem = s.mem)
    (hdisk : s'.swap_disk = s.swap_disk) : KeepsBytes s s' := by
  intro t va b hb
  refine hb.mono (h.registered t va) (fun {f fr} _ hf => ⟨fr, ?_, rfl, congrFun hmem _⟩)
    (fun {i} _ k _ => by rw [hdisk])
  rw [h.frame]
  exact hf

theorem SameMap.keepsBytes (h : SameMap s s') : KeepsBytes s s' :=
  h.sameTables.keepsBytes h.mem h.swap_disk

/-- A new page is registered. -/
theorem register_keepsBytes (hc : s.Coherent) (pg : Pintos.page) (hnone : s.page_at t pg.va = none)
    (hround : pg_round_down pg.va = pg.va) (hframe : pg.frame = none)
    (hkind : ∀ i : ℤ, pg.kind ≠ .anon i) : KeepsBytes s (s.register t pg) := by
  obtain ⟨-, hother, -⟩ := hc.register pg hnone hround hframe hkind
  intro t' va b hb
  have hne : ¬ (t' = t ∧ va = pg.va) := by
    rintro ⟨rfl, rfl⟩
    have hold : s.registered t' pg.va = none := by
      unfold vm.registered
      rw [hnone]
      rfl
    cases hb with
    | resident hr _ _ _ _ => exact absurd (hold.symm.trans hr) (by simp)
    | swapped hr _ _ _ => exact absurd (hold.symm.trans hr) (by simp)
  exact hb.mono (hother t' va hne) (fun {f fr} _ hf => ⟨fr, hf, rfl, rfl⟩) (fun {i} _ k _ => rfl)

/-! ## Eviction -/

/-- The sectors of other slots stay. -/
theorem slot_bytes_swap_out {d d' : disk} {idx i : ℕ} {kva : Bytes}
    (h : swap_out_loop idx kva 8 0 d = .ok d') (hne : i ≠ idx) :
    SameBytes (swap.slot_bytes d' i) (swap.slot_bytes d i) := by
  obtain ⟨-, -, hold⟩ := swap.swap_out_loop_spec h
  intro k hk
  unfold swap.slot_bytes
  rw [hold]
  intro j _ hj
  unfold PGSIZE at hk
  unfold DISK_SECTOR_SIZE
  omega

/-- The slot that was written has the bytes of the page. -/
theorem slot_bytes_written {d d' : disk} {idx : ℕ} {kva : Bytes}
    (h : swap_out_loop idx kva 8 0 d = .ok d') : SameBytes (swap.slot_bytes d' idx) kva := by
  obtain ⟨-, hnew, -⟩ := swap.swap_out_loop_spec h
  intro k hk
  unfold swap.slot_bytes
  unfold PGSIZE at hk
  rw [(hnew (k / DISK_SECTOR_SIZE) (Nat.zero_le _) (by unfold DISK_SECTOR_SIZE; omega)).2]
  dsimp only
  rw [Nat.div_add_mod]

/-- A slot that was read is on the disk. -/
theorem swap_in_loop_selects {d : disk} {idx n i : ℕ} {kva m : Bytes}
    (h : swap_in_loop d idx n i kva = .ok m) : ∀ j, i ≤ j → j < i + n
    → select_sector d (idx * 8 + j) := by
  induction n generalizing i kva with
  | zero => exact fun j h₁ h₂ => by omega
  | succ n ih =>
      obtain ⟨sector, hread, h⟩ := Outcome.bind_eq_ok.mp h
      intro j h₁ h₂
      by_cases hj : j = i
      · rw [hj]
        exact (disk_read_eq_ok.mp hread).1
      · exact ih h j (by omega) (by omega)

/-- What was read from a slot. -/
theorem swap_in_loop_bytes {d : disk} {idx : ℕ} {kva m : Bytes}
    (h : swap_in_loop d idx 8 0 kva = .ok m) : SameBytes m (swap.slot_bytes d idx) := by
  have hsel : swap.Selects d idx := fun j hj => swap_in_loop_selects h j (Nat.zero_le _) (by omega)
  obtain ⟨m', hm', hbytes⟩ := @swap.swap_in_loop_spec d idx hsel 8 0 le_rfl kva
  obtain rfl := Outcome.ok.inj (h.symm.trans hm')
  intro k hk
  unfold PGSIZE at hk
  rw [hbytes, if_pos (by unfold DISK_SECTOR_SIZE; omega)]

/-- What swapping a page out leaves alone: the frames and pages of others, all memory, the slots
that are taken. -/
theorem SwappedOut.rest {f : ℕ} {fr : Pintos.frame} (h : SwappedOut s t p pg f fr s') :
    s'.mem = s.mem ∧ (∀ g, g ≠ f → s'.frame g = s.frame g)
      ∧ ∀ i, s.swap_table i = true → SameBytes (swap.slot_bytes s'.swap_disk i)
      (swap.slot_bytes s.swap_disk i) := by
  cases h with
  | @anon i idx d hk hscan hd =>
      refine ⟨rfl, fun g hg => Function.update_of_ne hg _ _, fun i hi => ?_⟩
      refine slot_bytes_swap_out hd ?_
      rintro rfl
      rw [swap_scan_free hscan] at hi
      cases hi
  | @file fp s₁ hk hw =>
      have hsame := (WrittenBack.sameTables hw).1
      have hw' : s₁.mem = s.mem ∧ s₁.swap_disk = s.swap_disk := by
        cases hw with
        | clean _ => exact ⟨rfl, rfl⟩
        | dirty _ _ => exact ⟨rfl, rfl⟩
      refine ⟨hw'.1, fun g hg => ?_, fun i _ k _ => ?_⟩
      · show Function.update s₁.frame f _ g = _
        rw [Function.update_of_ne hg, hsame.frame]
      · show swap.slot_bytes s₁.swap_disk i k = _
        rw [hw'.2]

/-- The page that was swapped out: an anonymous page has its bytes in a slot. -/
theorem SwappedOut.swapped {f : ℕ} {fr : Pintos.frame} (hc : s.Coherent)
    (hp : s.page_at t pg.va = some p) (h : SwappedOut s t p pg f fr s') :
    ∃ kd, PageUpdate s (pml4_cleared s' t pg.va) t pg.va { pg with frame := none, kind := kd }
      ∧ (IsAnon pg.kind → ∃ idx : ℕ, kd = .anon idx
        ∧ SameBytes (swap.slot_bytes s'.swap_disk idx) (s.mem fr.kva)) := by
  have hupdate : ∀ (s₁ : vm) (kd : page_kind), SameTables s s₁ →
      PageUpdate s (pml4_cleared (s₁.unlink p pg f fr kd) t pg.va) t pg.va
        { pg with frame := none, kind := kd } := by
    intro s₁ kd hsame
    obtain ⟨hat, hpage, -⟩ := unlink_cleared_fields s₁ t p pg f fr kd
    refine hc.registered.pageUpdate hp (fun t' va' => ?_) ?_
    · rw [hat, hsame.page_at]
    · rw [hpage, hsame.page]
  cases h with
  | @anon i idx d hk hscan hd =>
      exact ⟨_, hupdate _ _ (.set_swap s d idx true), fun _ => ⟨idx, rfl, slot_bytes_written hd⟩⟩
  | @file fp s₁ hk hw =>
      refine ⟨_, hupdate _ _ (WrittenBack.sameTables hw).1, fun ⟨i, hi⟩ => ?_⟩
      rw [hk] at hi
      cases hi

/-- **Eviction**: the victim's bytes are in its slot, and nothing else moves. -/
theorem vm_evict_frame_keepsBytes (hc : s.Coherent) {v : ℕ}
    (hown : ∀ s', vm_get_victim s t = .ok (v, s') → s.Owns t v)
    (hev : Pintos.vm_evict_frame s t = .ok (some v, s')) :
    KeepsBytes s s' ∧ s'.Coherent ∧ ∀ t' va', ¬ s'.Resident t' va' v := by
  obtain ⟨s₁, fr, p, pg, s₂, hvictim, hfr, hfp, hpg, hout, hsame⟩ := vm_evict_frame_cases hev
  have hsame₁ := vm_get_victim_sameMap hvictim
  have hc₁ := hsame₁.coherent hc
  obtain ⟨fr', p', pg', hf', hfp', hpg', hat, hpf, honly⟩ := hsame₁.owns (hown s₁ hvictim)
  obtain rfl := Option.some.inj (hfr.symm.trans hf')
  obtain rfl := Option.some.inj (hfp.symm.trans hfp')
  obtain rfl := Option.some.inj (hpg.symm.trans hpg')
  obtain ⟨pg', v', fr', hpg', hpf', hf', hcase⟩ := swap_out_cases hout
  obtain rfl := Option.some.inj (hpg.symm.trans hpg')
  obtain rfl := Option.some.inj (hpf.symm.trans hpf')
  obtain rfl := Option.some.inj (hfr.symm.trans hf')
  obtain ⟨hc₂, hres₂⟩ := SwappedOut.coherent hc₁ hat hpg hfr hcase
  obtain ⟨kd, hu, hslot⟩ := SwappedOut.swapped hc₁ hat hcase
  obtain ⟨hmem, hframe, htaken⟩ := SwappedOut.rest hcase
  have hkeep : KeepsBytes s₁ (pml4_cleared s₂ t pg.va) := by
    intro t' va' b hb
    by_cases heq : t' = t ∧ va' = pg.va
    · -- the victim's page
      obtain ⟨rfl, rfl⟩ := heq
      have hreg : s₁.registered t' pg.va = some pg := registered_eq_some.mpr ⟨p, hat, hpg⟩
      cases hb with
      | @resident pg' f fr' hr hk hpf' hf' hbytes =>
          obtain rfl := Option.some.inj (hreg.symm.trans hr)
          obtain rfl := Option.some.inj (hpf.symm.trans hpf')
          obtain rfl := Option.some.inj (hfr.symm.trans hf')
          obtain ⟨idx, rfl, hsaved⟩ := hslot hk
          exact .swapped hu.self rfl rfl fun k hk => (hsaved k hk).trans (hbytes k hk)
      | @swapped pg' i hr _ hnone _ =>
          obtain rfl := Option.some.inj (hreg.symm.trans hr)
          rw [hpf] at hnone
          cases hnone
    · refine hb.mono (hu.other t' va' heq) (fun {f fr'} hr hf => ⟨fr', ?_, rfl, congrFun hmem _⟩)
        (fun {i} hon => htaken i (hc₁.swapped.slot hon))
      have hne : f ≠ v := by
        rintro rfl
        exact heq (honly t' va' hr)
      exact (hframe f hne).trans hf
  refine ⟨(hsame₁.keepsBytes.trans hkeep).trans hsame.keepsBytes, hsame.coherent hc₂,
    fun t' va' hr => ?_⟩
  obtain ⟨hne, hr⟩ := (hres₂ t' va' v).mp ((hsame.sameTables.resident t' va' v).mp hr)
  exact hne (honly t' va' hr)

/-- A frame that nobody has is freed. -/
theorem free_frame_keepsBytes {f : ℕ} (hno : ∀ t va, ¬ s.Resident t va f) :
    KeepsBytes s (s.free_frame f) := by
  intro t va b hb
  refine hb.mono rfl (fun {g gr} hr hg => ⟨gr, ?_, rfl, rfl⟩) (fun {_} _ _ _ => rfl)
  have hne : g ≠ f := by
    rintro rfl
    exact hno t va hr
  exact (Function.update_of_ne hne _ _).trans hg

/-- A frame is made on a physical page that no frame has, or nobody. -/
theorem new_frame_keepsBytes (hfresh : ∀ {g gr}, s.frame g = some gr → g < s.next_frame)
    (fr : Pintos.frame) : KeepsBytes s (s.new_frame fr) := by
  intro t va b hb
  refine hb.mono rfl (fun {g gr} _ hg => ⟨gr, ?_, rfl, rfl⟩) (fun {_} _ _ _ => rfl)
  exact (Function.update_of_ne (hfresh hg).ne _ _).trans hg

/-- A page of the pool that is free is taken, and zeroed. -/
theorem take_page_keepsBytes (hc : s.Coherent) {k : ℕ} (hk : s.used k = false) :
    KeepsBytes s (s.take_page k) := by
  intro t va b hb
  refine hb.mono rfl (fun {g gr} _ hg => ⟨gr, hg, rfl, ?_⟩) (fun {_} _ _ _ => rfl)
  have hne : gr.kva ≠ k := by
    rintro rfl
    have := hc.mapped.used hg
    rw [hk] at this
    cases this
  exact Function.update_of_ne hne _ _

/-- **`vm_get_frame`**, when `t` evicts only frames of its own. -/
theorem vm_get_frame_keepsBytes (hc : s.Coherent) (hev : s.EvictsOwn t) {f : ℕ}
    (h : Pintos.vm_get_frame s t = .ok (f, s')) : KeepsBytes s s' := by
  obtain ⟨k, s₁, hk, -, hsame⟩ := vm_get_frame_cases h
  refine KeepsBytes.trans ?_ hsame.keepsBytes
  rcases frame_kva_cases hk with ⟨hpal, rfl⟩ | ⟨hpal, v, s₂, fr, hevict, hfr, -, rfl⟩
  · exact (take_page_keepsBytes hc (palloc_get_page_free hpal)).trans
      (@new_frame_keepsBytes (s.take_page k) (fun {g gr} hg => hc.mapped.fresh hg) _)
  · obtain ⟨hkeep, hc₂, hno⟩ := vm_evict_frame_keepsBytes hc (fun s' hv => hev hpal v s' hv) hevict
    refine (hkeep.trans (free_frame_keepsBytes hno)).trans
      (new_frame_keepsBytes (fun {g gr} hg => ?_) _)
    by_cases hgv : g = v
    · subst hgv
      simp at hg
    · rw [free_frame_frame, Function.update_of_ne hgv] at hg
      exact hc₂.mapped.fresh hg

/-! ## Page faults -/

/-- What swapping in a page changes: the page, and the physical page of its frame. -/
theorem SwappedIn.rest {kva : ℕ} {done : Bool} (h : SwappedIn s p pg kva done s') :
    s'.frame = s.frame ∧ s'.swap_disk = s.swap_disk ∧ ∀ k, k ≠ kva → s'.mem k = s.mem k := by
  cases h with
  | uninit _ _ => exact ⟨rfl, rfl, fun k hk => Function.update_of_ne hk _ _⟩
  | stay _ _ => exact ⟨rfl, rfl, fun _ _ => rfl⟩
  | anon _ _ _ => exact ⟨rfl, rfl, fun k hk => Function.update_of_ne hk _ _⟩
  | file _ _ => exact ⟨rfl, rfl, fun k hk => Function.update_of_ne hk _ _⟩

/-- An anonymous page that was in a slot has the bytes of the slot in its frame. -/
theorem SwappedIn.bytes {kva : ℕ} {done : Bool} (h : SwappedIn s p pg kva done s') {i : ℕ}
    (hk : pg.kind = .anon i) : SameBytes (s'.mem kva) (swap.slot_bytes s.swap_disk i)
      ∧ ∃ pg', s'.page p = some pg' ∧ IsAnon pg'.kind := by
  cases h with
  | uninit hk' _ =>
      rw [hk] at hk'
      cases hk'
  | @stay j hk' hj =>
      rw [hk] at hk'
      obtain rfl := page_kind.anon.inj hk'
      omega
  | @anon j m hk' hj hm =>
      rw [hk] at hk'
      obtain rfl := page_kind.anon.inj hk'
      refine ⟨?_, _, Function.update_self _ _ _, -1, rfl⟩
      show SameBytes (Function.update s.mem kva m kva) _
      rw [Function.update_self]
      exact swap_in_loop_bytes hm
  | file hk' _ =>
      rw [hk] at hk'
      cases hk'

/-- **`vm_do_claim_page`**: a page that was in a slot has its bytes back. -/
theorem vm_do_claim_page_keepsBytes {done : Bool} (hc : s.Coherent) (hev : s.EvictsOwn t)
    (hp : s.page_at t va = some p) (hpg : s.page p = some pg) (hnone : pg.frame = none)
    (h : Pintos.vm_do_claim_page s t p = .ok (done, s')) :
    KeepsBytes s s' := by
  obtain ⟨f, s₁, fr, pg₁, hget, hfr, hpg₁, -, hcase⟩ := vm_do_claim_page_cases h
  obtain ⟨f', s₁', fr', kd, hget', hgot, hfr', hf', hc', hu⟩ :=
    vm_do_claim_page_coherent hc hev hp hpg hnone h
  obtain ⟨rfl, rfl⟩ := Outcome.ok_pair (hget.symm.trans hget')
  obtain rfl := Option.some.inj (hfr.symm.trans hfr')
  obtain rfl := Option.some.inj ((hgot.pages hpg (.inl hnone)).symm.trans hpg₁)
  have hat : s₁.page_at t va = some p := (hgot.page_at t va).trans hp
  have hreg : s₁.registered t va = some pg := registered_eq_some.mpr ⟨p, hat, hpg₁⟩
  obtain ⟨hframe, hdisk, hmem⟩ := SwappedIn.rest hcase
  refine (vm_get_frame_keepsBytes hc hev hget).trans ?_
  intro t' va' b hb
  by_cases heq : t' = t ∧ va' = va
  · -- the page itself was in a slot
    obtain ⟨rfl, rfl⟩ := heq
    cases hb with
    | @resident pg' g gr hr _ hpf _ _ =>
        obtain rfl := Option.some.inj (hreg.symm.trans hr)
        rw [hnone] at hpf
        cases hpf
    | @swapped pg' i hr hk _ hbytes =>
        obtain rfl := Option.some.inj (hreg.symm.trans hr)
        obtain ⟨hback, pg', hpg', hanon⟩ := SwappedIn.bytes hcase hk
        have hkd : IsAnon kd := by
          obtain ⟨p', hp', hpg''⟩ := registered_eq_some.mp hu.self
          obtain rfl := Option.some.inj (((hu.page_at t' va').trans hat).symm.trans hp')
          obtain rfl := Option.some.inj (hpg'.symm.trans hpg'')
          exact hanon
        exact .resident hu.self hkd rfl hf' fun k hk => (hback k hk).trans (hbytes k hk)
  · refine hb.mono (hu.other t' va' heq) (fun {g gr} hr hg => ?_)
      (fun {i} _ k _ => by rw [hdisk]; rfl)
    have hgf : g ≠ f := by
      rintro rfl
      exact hgot.unused t' va' hr
    have hkva : gr.kva ≠ fr.kva := fun hk => hgf (hgot.coherent.mapped.kva_inj hfr hg hk)
    refine ⟨gr, ?_, rfl, hmem _ hkva⟩
    rw [hframe]
    exact (Function.update_of_ne hgf _ _).trans hg

end vm

end Pintos
