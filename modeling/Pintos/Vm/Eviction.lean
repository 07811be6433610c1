/-
Eviction and page faults keep the memory map coherent, when a process evicts
only its own pages.

`vm_evict_frame` clears the mapping of the victim in one page table, that of the
process that faults, at the address of the page the frame names. If that process
is the only one that maps the frame, and the page is its own, every present
entry still has a page behind it. `Owns` says this about the victim, `EvictsOwn`
about the victim the clock would pick.

Nothing in the code checks it: `frame_table` holds the frames of all processes.
-/
import Pintos.Vm.Coherent

set_option autoImplicit false

namespace Pintos

namespace vm

variable {s s' : vm} {t va p : ℕ} {pg : Pintos.page}

/-! ## Page tables -/

theorem maps_modify_pte (s : vm) (t va : ℕ) {g : pte → pte}
    (hg : ∀ e, (g e).kva = e.kva ∧ (g e).present = e.present) (t' va' k : ℕ) :
    (s.modify_pte t va g).Maps t' va' k ↔ s.Maps t' va' k := by
  unfold Maps
  rw [pte_at_modify_pte]
  by_cases heq : t' = t ∧ va' = va
  · obtain ⟨rfl, rfl⟩ := heq
    rw [if_pos ⟨rfl, rfl⟩]
    cases s.pte_at t' va' with
    | none => simp
    | some e => simp [(hg e).1, (hg e).2]
  · rw [if_neg heq]

/-- Clearing the present bit removes one mapping. -/
theorem maps_cleared (s : vm) (t va t' va' k : ℕ) :
    (pml4_cleared s t va).Maps t' va' k ↔ ¬ (t' = t ∧ va' = va) ∧ s.Maps t' va' k := by
  unfold Maps pml4_cleared
  rw [pte_at_modify_pte]
  by_cases heq : t' = t ∧ va' = va
  · obtain ⟨rfl, rfl⟩ := heq
    rw [if_pos ⟨rfl, rfl⟩]
    cases s.pte_at t' va' with
    | none => simp
    | some e => simp
  · rw [if_neg heq]
    simp [heq]

theorem maps_set_pte (s : vm) (t va : ℕ) (e : pte) (t' va' k : ℕ) :
    (s.set_pte t va e).Maps t' va' k
      ↔ (t' = t ∧ va' = va ∧ e.present = true ∧ e.kva = k)
        ∨ (¬ (t' = t ∧ va' = va) ∧ s.Maps t' va' k) := by
  unfold Maps
  rw [pte_at_set_pte]
  by_cases heq : t' = t ∧ va' = va
  · obtain ⟨rfl, rfl⟩ := heq
    simp
  · rw [if_neg heq]
    simp only [heq, not_false_eq_true, true_and]
    constructor
    · exact .inr
    · rintro (⟨ht, hva, -⟩ | h)
      · exact absurd ⟨ht, hva⟩ heq
      · exact h

/-! ## Changes that nobody sees -/

theorem SameMap.maps (h : SameMap s s') (t va k : ℕ) : s'.Maps t va k ↔ s.Maps t va k := by
  have hbits := h.pte_at t va
  unfold Maps
  cases he : s.pte_at t va with
  | none =>
      rw [he, Option.map_none, Option.map_eq_none_iff] at hbits
      simp [hbits]
  | some e =>
      rw [he, Option.map_some, Option.map_eq_some_iff] at hbits
      obtain ⟨e', he', hee⟩ := hbits
      have hk : e'.kva = e.kva := congrArg Prod.fst hee
      have hp : e'.present = e.present := congrArg (fun x => x.2.1) hee
      simp [he', hk, hp]

/-- The states agree about pages, frames and which entries are present. Contents,
files, the swap area and the other bits of entries may differ. -/
structure SameTables (s s' : vm) : Prop where
  page_at : ∀ t va, s'.page_at t va = s.page_at t va
  maps : ∀ t va k, s'.Maps t va k ↔ s.Maps t va k
  alive : ∀ t, (s'.proc t).alive = (s.proc t).alive
  next_proc : s'.next_proc = s.next_proc
  page : s'.page = s.page
  next_page : s'.next_page = s.next_page
  frame : s'.frame = s.frame
  next_frame : s'.next_frame = s.next_frame
  used : s'.used = s.used

namespace SameTables

variable {s'' : vm}

theorem refl (s : vm) : SameTables s s := by
  constructor <;> intros <;> rfl

theorem trans (h : SameTables s s') (h' : SameTables s' s'') : SameTables s s'' where
  page_at t va := (h'.page_at t va).trans (h.page_at t va)
  maps t va k := (h'.maps t va k).trans (h.maps t va k)
  alive t := (h'.alive t).trans (h.alive t)
  next_proc := h'.next_proc.trans h.next_proc
  page := h'.page.trans h.page
  next_page := h'.next_page.trans h.next_page
  frame := h'.frame.trans h.frame
  next_frame := h'.next_frame.trans h.next_frame
  used := h'.used.trans h.used

theorem set_mem (s : vm) (kva : ℕ) (b : Bytes) : SameTables s (s.set_mem kva b) := by
  constructor <;> intros <;> rfl

theorem set_files (s : vm) (fs : filesys) : SameTables s (s.set_files fs) := by
  constructor <;> intros <;> rfl

theorem set_swap (s : vm) (d : disk) (i : ℕ) (b : Bool) : SameTables s (s.set_swap d i b) := by
  constructor <;> intros <;> rfl

/-- Bits of an entry other than the present bit. -/
theorem modify_pte (s : vm) (t va : ℕ) {g : pte → pte}
    (hg : ∀ e, (g e).kva = e.kva ∧ (g e).present = e.present) :
    SameTables s (s.modify_pte t va g) where
  page_at t' va' := s.page_at_modify_pte t va t' va' g
  maps t' va' k := s.maps_modify_pte t va hg t' va' k
  alive t' := s.alive_modify_pte t va t' g
  next_proc := rfl
  page := rfl
  next_page := rfl
  frame := rfl
  next_frame := rfl
  used := rfl

theorem set_pte (s : vm) {t va : ℕ} {e e' : pte} (he : s.pte_at t va = some e)
    (hkva : e'.kva = e.kva) (hpresent : e'.present = e.present) :
    SameTables s (s.set_pte t va e') where
  page_at t' va' := s.page_at_set_pte t va t' va' e'
  maps t' va' k := by
    rw [maps_set_pte]
    by_cases heq : t' = t ∧ va' = va
    · obtain ⟨rfl, rfl⟩ := heq
      unfold Maps
      simp [he, hkva, hpresent]
    · constructor
      · rintro (⟨ht, hva, -⟩ | ⟨-, h⟩)
        · exact absurd ⟨ht, hva⟩ heq
        · exact h
      · intro h
        exact .inr ⟨heq, h⟩
  alive t' := s.alive_set_pte t va t' e'
  next_proc := rfl
  page := rfl
  next_page := rfl
  frame := rfl
  next_frame := rfl
  used := rfl

theorem registered (h : SameTables s s') (t va : ℕ) : s'.registered t va = s.registered t va :=
  registered_congr (h.page_at t va) fun p _ => by rw [h.page]

theorem resident (h : SameTables s s') (t va f : ℕ) : s'.Resident t va f ↔ s.Resident t va f := by
  unfold Resident
  rw [h.registered]

theorem coherent (h : SameTables s s') (hc : s.Coherent) (htable : s'.swap_table = s.swap_table) :
    s'.Coherent where
  registered := hc.registered.congr h.page_at (fun p => by rw [h.page]) h.next_page h.next_proc
    fun t ht => by rw [← h.alive t]; exact ht
  mapped := hc.mapped.congr h.resident h.maps (fun f => by rw [h.frame]) h.next_frame
    fun k hk => by rw [h.used]; exact hk
  swapped := hc.swapped.congr h.registered htable

end SameTables

theorem SameMap.sameTables (h : SameMap s s') : SameTables s s' where
  page_at := h.page_at
  maps := h.maps
  alive := h.alive
  next_proc := h.next_proc
  page := h.page
  next_page := h.next_page
  frame := h.frame
  next_frame := h.next_frame
  used := h.used

theorem SameMap.coherent (h : SameMap s s') (hc : s.Coherent) : s'.Coherent :=
  h.sameTables.coherent hc h.swap_table

/-! ## Evicting -/

/-- The frame belongs to a page of `t`, and nobody else has it. -/
def Owns (s : vm) (t f : ℕ) : Prop :=
  ∃ fr p pg, s.frame f = some fr ∧ fr.page = some p ∧ s.page p = some pg
    ∧ s.page_at t pg.va = some p ∧ pg.frame = some f
    ∧ ∀ t' va', s.Resident t' va' f → t' = t ∧ va' = pg.va

/-- If `t` has to evict, the frame its clock stops at is its own. -/
def EvictsOwn (s : vm) (t : ℕ) : Prop :=
  palloc_get_page s = none → ∀ f s', vm_get_victim s t = .ok (f, s') → s.Owns t f

theorem SameMap.owns (h : SameMap s s') {f : ℕ} (ho : s.Owns t f) : s'.Owns t f := by
  obtain ⟨fr, p, pg, hf, hp, hpg, hat, hpf, honly⟩ := ho
  refine ⟨fr, p, pg, ?_, hp, ?_, ?_, hpf, fun t' va' hr => honly t' va' ?_⟩
  · rw [h.frame]
    exact hf
  · rw [h.page]
    exact hpg
  · rw [h.page_at]
    exact hat
  · exact (h.sameTables.resident t' va' f).mp hr

/-- Writing a file page back changes the file system and a dirty bit. -/
theorem WrittenBack.sameTables {fr : Pintos.frame} {fp : file_page}
    (h : WrittenBack s t pg fr fp s') : SameTables s s' ∧ s'.swap_table = s.swap_table := by
  cases h with
  | clean hd => exact ⟨.refl s, rfl⟩
  | @dirty fs hd hw =>
      refine ⟨(SameTables.set_files s fs).trans ?_, rfl⟩
      exact .modify_pte _ t pg.va fun e => ⟨rfl, rfl⟩

/-- A page that goes to a free slot of the swap area. -/
theorem Swapped.swap_out (h : s.Swapped) (hu : PageUpdate s s' t va pg) {idx : ℕ}
    (hfree : s.swap_table idx = false) (htable : s'.swap_table
      = Function.update s.swap_table idx true)
    (hkind : pg.kind = .anon idx) (hframe : pg.frame = none) : s'.Swapped := by
  have hslot : ∀ {t' va' i : ℕ}, s'.OnSlot t' va' i →
      (t' = t ∧ va' = va ∧ i = idx) ∨ (¬ (t' = t ∧ va' = va) ∧ s.OnSlot t' va' i) := by
    rintro t' va' i ⟨pg', hpg', hk⟩
    by_cases heq : t' = t ∧ va' = va
    · obtain ⟨rfl, rfl⟩ := heq
      rw [hu.self] at hpg'
      obtain rfl := Option.some.inj hpg'
      rw [hkind] at hk
      have hi : (idx : ℤ) = i := by simpa using hk
      exact .inl ⟨rfl, rfl, by omega⟩
    · rw [hu.other t' va' heq] at hpg'
      exact .inr ⟨heq, pg', hpg', hk⟩
  -- the slot was free, so nobody else is on it
  have hnot : ∀ {t' va'}, ¬ s.OnSlot t' va' idx := by
    intro t' va' hon
    have := h.slot hon
    rw [hfree] at this
    cases this
  refine ⟨fun {t' va' i} hi => ?_, fun {t' va' t'' va'' i} hi hi' => ?_,
    fun {t' va' pg' i} hr hk => ?_, fun {t' va' pg' u} hr hk => ?_⟩
  · rw [htable]
    rcases hslot hi with ⟨-, -, rfl⟩ | ⟨-, hi⟩
    · rw [Function.update_self]
    · rw [Function.update_of_ne]
      · exact h.slot hi
      · intro heq
        subst heq
        exact hnot hi
  · rcases hslot hi with ⟨rfl, rfl, rfl⟩ | ⟨-, hon⟩
    · rcases hslot hi' with ⟨rfl, rfl, -⟩ | ⟨-, hon'⟩
      · exact ⟨rfl, rfl⟩
      · exact absurd hon' hnot
    · rcases hslot hi' with ⟨-, -, rfl⟩ | ⟨-, hon'⟩
      · exact absurd hon hnot
      · exact h.inj hon hon'
  · by_cases heq : t' = t ∧ va' = va
    · obtain ⟨rfl, rfl⟩ := heq
      rw [hu.self] at hr
      obtain rfl := Option.some.inj hr
      rw [hkind] at hk
      have hi : (idx : ℤ) = i := by simpa using hk
      constructor
      · intro _
        exact hframe
      · intro _
        omega
    · rw [hu.other t' va' heq] at hr
      exact h.home hr hk
  · by_cases heq : t' = t ∧ va' = va
    · obtain ⟨rfl, rfl⟩ := heq
      rw [hu.self] at hr
      obtain rfl := Option.some.inj hr
      rw [hkind] at hk
      cases hk
    · rw [hu.other t' va' heq] at hr
      exact h.untouched hr hk

theorem swap_scan_free {idx : ℕ} (h : swap_scan s = some idx) : s.swap_table idx = false := by
  have := List.find?_some h
  simpa using this

/-- The state after a page of `t` was swapped out and its entry cleared. -/
theorem unlink_cleared_fields (s : vm) (t p : ℕ) (pg : Pintos.page) (f : ℕ) (fr : Pintos.frame)
    (kd : page_kind) :
    (∀ t' va', (pml4_cleared (s.unlink p pg f fr kd) t pg.va).page_at t' va' = s.page_at t' va')
      ∧ (pml4_cleared (s.unlink p pg f fr kd) t pg.va).page
        = Function.update s.page p (some { pg with frame := none, kind := kd })
      ∧ ∀ t' va' k, (pml4_cleared (s.unlink p pg f fr kd) t pg.va).Maps t' va' k
        ↔ ¬ (t' = t ∧ va' = pg.va) ∧ s.Maps t' va' k := by
  refine ⟨fun t' va' => ?_, rfl, fun t' va' k => ?_⟩
  · exact (s.unlink p pg f fr kd).page_at_modify_pte t pg.va t' va' _
  · exact maps_cleared (s.unlink p pg f fr kd) t pg.va t' va' k

/-- Unlinking stores into a frame, but neither its physical page nor its count. -/
theorem core_set_frame {f : ℕ} {fr : Pintos.frame} (fr' : Pintos.frame)
    (hf : s.frame f = some fr) (hcore : core fr' = core fr) (g : ℕ) :
    ((s.set_frame f fr').frame g).map core = (s.frame g).map core := by
  by_cases heq : g = f
  · subst heq
    rw [set_frame_frame, Function.update_self, hf, Option.map_some, Option.map_some, hcore]
  · rw [set_frame_frame, Function.update_of_ne heq]

/-- **Swapping out** a page of `t` and clearing its entry there. -/
theorem SwappedOut.coherent {f : ℕ} {fr : Pintos.frame} (hc : s.Coherent)
    (hp : s.page_at t pg.va = some p) (hpg : s.page p = some pg) (hf : s.frame f = some fr)
    (h : SwappedOut s t p pg f fr s') :
    (pml4_cleared s' t pg.va).Coherent
      ∧ ∀ t' va' g, (pml4_cleared s' t pg.va).Resident t' va' g
        ↔ ¬ (t' = t ∧ va' = pg.va) ∧ s.Resident t' va' g := by
  -- both kinds of page go the same way; `s₁` is the state with the contents saved
  have key : ∀ (s₁ : vm) (kd : page_kind), SameTables s s₁ →
      (∀ s₂, PageUpdate s s₂ t pg.va { pg with frame := none, kind := kd } →
        s₂.swap_table = s₁.swap_table → s₂.Swapped) →
      (pml4_cleared (s₁.unlink p pg f fr kd) t pg.va).Coherent
        ∧ ∀ t' va' g, (pml4_cleared (s₁.unlink p pg f fr kd) t pg.va).Resident t' va' g
          ↔ ¬ (t' = t ∧ va' = pg.va) ∧ s.Resident t' va' g := by
    intro s₁ kd hsame hswap
    obtain ⟨hat', hpage', hmaps'⟩ := unlink_cleared_fields s₁ t p pg f fr kd
    have hu : PageUpdate s (pml4_cleared (s₁.unlink p pg f fr kd) t pg.va) t pg.va
        { pg with frame := none, kind := kd } := by
      apply hc.registered.pageUpdate hp
      · intro t' va'
        rw [hat', hsame.page_at]
      · rw [hpage', hsame.page]
    refine ⟨⟨?_, ?_, hswap _ hu rfl⟩, fun t' va' g => ?_⟩
    · apply hc.registered.congr hu.page_at
      · intro q
        rw [hpage', hsame.page]
        by_cases hq : q = p
        · subst hq
          rw [Function.update_self, hpg]
          rfl
        · rw [Function.update_of_ne hq]
      · exact hsame.next_page
      · exact hsame.next_proc
      · intro t' ht'
        rw [← hsame.alive t']
        exact (s₁.unlink p pg f fr kd).alive_modify_pte t pg.va t' _ ▸ ht'
    · apply hc.mapped.detach hu rfl
      · intro t' va' k
        rw [hmaps', hsame.maps]
      · intro g
        have hf₁ : s₁.frame f = some fr := by
          rw [hsame.frame]
          exact hf
        have := core_set_frame { fr with page := none } hf₁ rfl g
        rw [← hsame.frame]
        exact this
      · exact hsame.next_frame
      · exact hsame.used
    · rw [hu.resident_iff]
      simp
  cases h with
  | @anon i idx d hk hscan hd =>
      apply key (s.set_swap d idx true) (.anon idx) (.set_swap s d idx true)
      intro s₂ hu htable
      exact hc.swapped.swap_out hu (swap_scan_free hscan) htable rfl rfl
  | @file fp s₁ hk hw =>
      obtain ⟨hsame, htab⟩ := WrittenBack.sameTables hw
      apply key s₁ (.file fp) hsame
      intro s₂ hu htable
      apply hc.swapped.update hu
      · intro i hi
        rw [htable, htab]
        exact .inl hi
      · intro i hi
        cases hi
      · intro u hu
        cases hu

/-- A page is swapped out by saving its contents and letting go of its frame. -/
theorem SwappedOut.unlinked {f : ℕ} {fr : Pintos.frame} (h : SwappedOut s t p pg f fr s') :
    ∃ s₁ kd, SameTables s s₁ ∧ s' = s₁.unlink p pg f fr kd := by
  cases h with
  | @anon i idx d hk hscan hd => exact ⟨_, _, .set_swap s d idx true, rfl⟩
  | @file fp s₁ hk hw => exact ⟨_, _, (WrittenBack.sameTables hw).1, rfl⟩

/-! ## Getting a frame -/

/-- Frames do not enter the other two groups. -/
theorem Coherent.of_mapped (hc : s.Coherent) (hm : s'.Mapped)
    (hat : ∀ t va, s'.page_at t va = s.page_at t va) (hpage : s'.page = s.page)
    (hnext : s'.next_page = s.next_page) (hproc : s'.next_proc = s.next_proc)
    (halive : ∀ t, (s'.proc t).alive = (s.proc t).alive)
    (htable : s'.swap_table = s.swap_table) : s'.Coherent where
  registered := hc.registered.congr hat (fun p => by rw [hpage]) hnext hproc
    fun t ht => by rw [← halive t]; exact ht
  mapped := hm
  swapped := hc.swapped.congr (fun t va => registered_congr (hat t va) fun p _ => by rw [hpage])
    htable

/-- What `vm_get_frame` did: `f` is a new frame that nobody uses yet, and at most
one page lost its frame to it. -/
structure GotFrame (s : vm) (t f : ℕ) (s' : vm) : Prop where
  coherent : s'.Coherent
  frame : ∃ fr, s'.frame f = some fr ∧ fr.ref_cnt = 1
  unused : ∀ t' va', ¬ s'.Resident t' va' f
  fresh : s.next_frame ≤ f
  page_at : ∀ t' va', s'.page_at t' va' = s.page_at t' va'
  alive : ∀ t', (s'.proc t').alive = (s.proc t').alive
  next_proc : s'.next_proc = s.next_proc
  /-- Frames that are left are as they were, and so are their pages. -/
  frames : ∀ {g : ℕ} {gr : Pintos.frame}, g ≠ f → s'.frame g = some gr →
    ∃ gr', s.frame g = some gr' ∧ core gr' = core gr
  pages : ∀ {q : ℕ} {pg : Pintos.page}, s.page q = some pg →
    (pg.frame = none ∨ ∃ g gr, pg.frame = some g ∧ s'.frame g = some gr) → s'.page q = some pg
  resident : ∀ {t' va' g : ℕ}, s'.Resident t' va' g → s.Resident t' va' g
  /-- If it had to be evicted, it is on the physical page of the victim. -/
  evicted : palloc_get_page s = none → ∀ {v : ℕ} {s₁ : vm} {fr : Pintos.frame},
    vm_get_victim s t = .ok (v, s₁) → s.frame v = some fr →
      ∃ fr', s'.frame f = some fr' ∧ fr'.kva = fr.kva

theorem palloc_get_page_free {k : ℕ} (h : palloc_get_page s = some k) : s.used k = false := by
  have := List.find?_some h
  simpa using this

/-- A frame from the pool. -/
theorem gotFrame_free (hc : s.Coherent) {k : ℕ} (hk : palloc_get_page s = some k) :
    GotFrame s t s.next_frame
      ((s.take_page k).new_frame { kva := k, ref_cnt := 1, page := none }) := by
  have hnotk : ∀ {g gr}, s.frame g = some gr → gr.kva ≠ k := by
    intro g gr hg heq
    have := hc.mapped.used hg
    rw [heq, palloc_get_page_free hk] at this
    cases this
  have hm : (s.take_page k).Mapped := by
    refine hc.mapped.congr (fun _ _ _ => ?_) (fun _ _ _ => ?_) (fun _ => ?_) ?_ fun k' hk' => ?_
    · exact Iff.rfl
    · exact Iff.rfl
    · rfl
    · rfl
    · by_cases heq : k' = k
      · subst heq
        simp
      · simp [heq, hk']
  have hm' : ((s.take_page k).new_frame { kva := k, ref_cnt := 1, page := none }).Mapped := by
    apply hm.new_frame
    · simp
    · exact hnotk
    · exact Int.one_nonneg
  refine ⟨hc.of_mapped hm' (fun _ _ => rfl) rfl rfl rfl (fun _ => rfl) rfl,
    ⟨_, Function.update_self _ _ _, rfl⟩, ?_, le_rfl, fun _ _ => rfl, fun _ => rfl, rfl, ?_, ?_, id,
    ?_⟩
  · intro t' va' hr
    obtain ⟨gr, hg, -⟩ := hc.mapped.resident (s := s) hr
    exact absurd (hc.mapped.fresh hg) (lt_irrefl _)
  · intro g gr hne hg
    rw [new_frame_frame] at hg
    have hne : g ≠ (s.take_page k).next_frame := hne
    rw [Function.update_of_ne hne] at hg
    exact ⟨gr, hg, rfl⟩
  · intro q pg hq _
    exact hq
  · intro hnone
    rw [hk] at hnone
    cases hnone

/-- A frame taken from a page of `t` itself. -/
theorem gotFrame_evict (hc : s.Coherent) {v : ℕ} {s₁ : vm} {fr : Pintos.frame}
    (hown : ∀ s', vm_get_victim s t = .ok (v, s') → s.Owns t v)
    (hev : vm_evict_frame s t = .ok (some v, s₁)) (hfr : s₁.frame v = some fr) :
    GotFrame s t s₁.next_frame
      ((s₁.free_frame v).new_frame { kva := fr.kva, ref_cnt := 1, page := none }) := by
  obtain ⟨s₂, fr₂, p, pg, s₃, hvictim, hfr₂, hfp, hpg, hout, hsame⟩ := vm_evict_frame_cases hev
  have hsame₂ := vm_get_victim_sameMap hvictim
  have hc₂ := hsame₂.coherent hc
  obtain ⟨fr', p', pg', hf', hfp', hpg', hat, hpf, honly⟩ := hsame₂.owns (hown s₂ hvictim)
  rw [hfr₂] at hf'
  obtain rfl := Option.some.inj hf'
  rw [hfp] at hfp'
  obtain rfl := Option.some.inj hfp'
  rw [hpg] at hpg'
  obtain rfl := Option.some.inj hpg'
  obtain ⟨pg', v', fr', hpg', hpf', hf', hcase⟩ := swap_out_cases hout
  rw [hpg] at hpg'
  obtain rfl := Option.some.inj hpg'
  rw [hpf] at hpf'
  obtain rfl := Option.some.inj hpf'
  rw [hfr₂] at hf'
  obtain rfl := Option.some.inj hf'
  obtain ⟨hc₃, hres₃⟩ := SwappedOut.coherent hc₂ hat hpg hfr₂ hcase
  have hc₁ := hsame.coherent hc₃
  -- after the swap-out nobody is left on the victim
  have hres : ∀ {t' va' g}, s₁.Resident t' va' g →
      ¬ (t' = t ∧ va' = pg.va) ∧ s.Resident t' va' g := by
    intro t' va' g hr
    obtain ⟨hne, hr⟩ := (hres₃ t' va' g).mp ((hsame.sameTables.resident t' va' g).mp hr)
    exact ⟨hne, (hsame₂.sameTables.resident t' va' g).mp hr⟩
  have hno : ∀ t' va', ¬ s₁.Resident t' va' v := by
    intro t' va' hr
    obtain ⟨hne, hr⟩ := hres hr
    exact hne (honly t' va' ((hsame₂.sameTables.resident t' va' v).mpr hr))
  -- and apart from the victim and its page nothing has moved
  obtain ⟨s₄, kd, hsame₄, rfl⟩ := SwappedOut.unlinked hcase
  have hframe : ∀ g, g ≠ v → s₁.frame g = s.frame g := by
    intro g hg
    rw [hsame.frame]
    have : (s₄.unlink p pg v fr₂ kd).frame g = s.frame g := by
      rw [← hsame₂.frame, ← hsame₄.frame]
      exact Function.update_of_ne hg _ _
    exact this
  have hpage : ∀ q, q ≠ p → s₁.page q = s.page q := by
    intro q hq
    rw [hsame.page]
    have : (s₄.unlink p pg v fr₂ kd).page q = s.page q := by
      rw [← hsame₂.page, ← hsame₄.page]
      exact Function.update_of_ne hq _ _
    exact this
  have hnext : s₁.next_frame = s.next_frame := by
    rw [hsame.next_frame, ← hsame₂.next_frame, ← hsame₄.next_frame]
    rfl
  have hat₁ : ∀ t' va', s₁.page_at t' va' = s.page_at t' va' := by
    intro t' va'
    rw [hsame.page_at, ← hsame₂.page_at, ← hsame₄.page_at]
    exact (s₄.unlink p pg v fr₂ kd).page_at_modify_pte t pg.va t' va' _
  have halive : ∀ t', (s₁.proc t').alive = (s.proc t').alive := by
    intro t'
    rw [hsame.alive, ← hsame₂.alive, ← hsame₄.alive]
    exact (s₄.unlink p pg v fr₂ kd).alive_modify_pte t pg.va t' _
  have hproc : s₁.next_proc = s.next_proc := by
    rw [hsame.next_proc, ← hsame₂.next_proc, ← hsame₄.next_proc]
    rfl
  have hm : ((s₁.free_frame v).new_frame { kva := fr.kva, ref_cnt := 1, page := none }).Mapped := by
    apply (hc₁.mapped.free_frame hno).new_frame
    · show s₁.used fr.kva = true
      exact hc₁.mapped.used hfr
    · intro g gr hg heq
      by_cases hgv : g = v
      · subst hgv
        simp at hg
      · rw [free_frame_frame, Function.update_of_ne hgv] at hg
        exact hgv (hc₁.mapped.kva_inj hfr hg heq)
    · exact Int.one_nonneg
  have hmem : ∀ {g gr}, g ≠ s₁.next_frame →
      ((s₁.free_frame v).new_frame { kva := fr.kva, ref_cnt := 1, page := none }).frame g = some gr →
      g ≠ v ∧ s.frame g = some gr := by
    intro g gr hne hg
    have hne : g ≠ (s₁.free_frame v).next_frame := hne
    rw [new_frame_frame, Function.update_of_ne hne] at hg
    by_cases hgv : g = v
    · subst hgv
      simp at hg
    · rw [free_frame_frame, Function.update_of_ne hgv, hframe g hgv] at hg
      exact ⟨hgv, hg⟩
  refine ⟨hc₁.of_mapped hm (fun _ _ => rfl) rfl rfl rfl (fun _ => rfl) rfl,
    ⟨_, Function.update_self _ _ _, rfl⟩, ?_, hnext.ge, hat₁, halive, hproc, ?_, ?_, ?_, ?_⟩
  · intro t' va' hr
    have hr : s₁.Resident t' va' s₁.next_frame := hr
    obtain ⟨gr, hg, -⟩ := hc₁.mapped.resident hr
    exact absurd (hc₁.mapped.fresh hg) (lt_irrefl _)
  · intro g gr hne hg
    exact ⟨gr, (hmem hne hg).2, rfl⟩
  · intro q qg hq hkeep
    rw [← hq]
    apply hpage
    rintro rfl
    -- the page that was swapped out was on the victim, and the victim is gone
    rw [← hsame₂.page, hpg] at hq
    obtain rfl := Option.some.inj hq
    rcases hkeep with hnone | ⟨g, gr, hg, hfg⟩
    · rw [hpf] at hnone
      cases hnone
    · rw [hpf] at hg
      obtain rfl := Option.some.inj hg
      have hlt : v < s.next_frame := by
        rw [← hsame₂.next_frame]
        exact hc₂.mapped.fresh hfr₂
      exact (hmem (by rw [hnext]; exact hlt.ne) hfg).1 rfl
  · intro t' va' g hr
    exact (hres hr).2
  · intro _ v' s' fr' hv' hfr'
    rw [hvictim] at hv'
    obtain rfl : v = v' := congrArg Prod.fst (Outcome.ok.inj hv')
    refine ⟨_, Function.update_self _ _ _, ?_⟩
    have hunlink : s₁.frame v = some { fr₂ with page := none } := by
      rw [hsame.frame]
      exact Function.update_self _ _ _
    rw [hunlink] at hfr
    rw [← hsame₂.frame, hfr₂] at hfr'
    obtain rfl := Option.some.inj hfr
    obtain rfl := Option.some.inj hfr'
    rfl

/-- **`vm_get_frame`**, when `t` evicts only frames of its own. -/
theorem vm_get_frame_gotFrame (hc : s.Coherent) (hev : s.EvictsOwn t) {f : ℕ}
    (h : vm_get_frame s t = .ok (f, s')) : GotFrame s t f s' := by
  obtain ⟨k, s₁, hk, rfl, hsame⟩ := vm_get_frame_cases h
  have hgot : GotFrame s t s₁.next_frame
      (s₁.new_frame { kva := k, ref_cnt := 1, page := none }) := by
    rcases frame_kva_cases hk with ⟨hpal, rfl⟩ | ⟨hpal, v, s₂, fr, hevict, hfr, rfl, rfl⟩
    · exact gotFrame_free hc hpal
    · exact gotFrame_evict hc (fun s' hv => hev hpal v s' hv) hevict hfr
  -- putting the frame on the list changes nothing of this
  refine ⟨hsame.coherent hgot.coherent, ?_, ?_, hgot.fresh, ?_, ?_, ?_, ?_, ?_, ?_, ?_⟩
  · rw [hsame.frame]
    exact hgot.frame
  · intro t' va' hr
    exact hgot.unused t' va' ((hsame.sameTables.resident t' va' _).mp hr)
  · intro t' va'
    rw [hsame.page_at]
    exact hgot.page_at t' va'
  · intro t'
    rw [hsame.alive]
    exact hgot.alive t'
  · rw [hsame.next_proc]
    exact hgot.next_proc
  · intro g gr hne hg
    rw [hsame.frame] at hg
    exact hgot.frames hne hg
  · intro q pg hq hkeep
    rw [hsame.page]
    rw [hsame.frame] at hkeep
    exact hgot.pages hq hkeep
  · intro t' va' g hr
    exact hgot.resident ((hsame.sameTables.resident t' va' g).mp hr)
  · intro hnone v s₂ fr hv hfr
    rw [hsame.frame]
    exact hgot.evicted hnone hv hfr

/-! ## Giving a page a frame -/

/-- The page at `(t, va)` gets frame `f`, and the entry says so. -/
theorem Mapped.assign (h : s.Mapped) (hu : PageUpdate s s' t va pg) {f : ℕ} {fr : Pintos.frame}
    (hpf : pg.frame = some f) (hf : s'.frame f = some fr)
    (hmaps : ∀ t' va' k, s'.Maps t' va' k ↔ (t' = t ∧ va' = va ∧ fr.kva = k)
      ∨ (¬ (t' = t ∧ va' = va) ∧ s.Maps t' va' k))
    (hkva : ∀ g, (s'.frame g).map (·.kva) = (s.frame g).map (·.kva))
    (hnext : s'.next_frame = s.next_frame) (hused : s'.used = s.used)
    (hva : ∀ t' va', s.Resident t' va' f → va' = va)
    (hcount : ∀ {g : ℕ} {gr : Pintos.frame}, s'.frame g = some gr →
      Counted (fun x : ℕ × ℕ => s'.Resident x.1 x.2 g) gr.ref_cnt) : s'.Mapped := by
  apply h.remap hu
  · intro t' va' k hne
    rw [hmaps]
    constructor
    · rintro (⟨ht, hva', -⟩ | ⟨-, hk⟩)
      · exact absurd ⟨ht, hva'⟩ hne
      · exact hk
    · intro hk
      exact .inr ⟨hne, hk⟩
  · exact hkva
  · exact hnext
  · exact hused
  · intro g hg
    rw [hpf] at hg
    obtain rfl := Option.some.inj hg
    exact ⟨fr, hf, (hmaps t va fr.kva).mpr (.inl ⟨rfl, rfl, rfl⟩)⟩
  · intro k hk
    rcases (hmaps t va k).mp hk with ⟨-, -, hk⟩ | ⟨hne, -⟩
    · exact ⟨f, fr, hpf, hf, hk⟩
    · exact absurd ⟨rfl, rfl⟩ hne
  · intro g t' va' hg _ hr
    rw [hpf] at hg
    obtain rfl := Option.some.inj hg
    exact hva t' va' hr
  · exact hcount

theorem registered_set_page_congr (hr : s.Registered) {pg' : Pintos.page}
    (hpg : s.page p = some pg) (hat : ∀ t va, s'.page_at t va = s.page_at t va)
    (hpage : s'.page = Function.update s.page p (some pg')) (hva : pg'.va = pg.va)
    (hnext : s'.next_page = s.next_page)
    (hproc : s'.next_proc = s.next_proc)
    (halive : ∀ t, (s'.proc t).alive = (s.proc t).alive) : s'.Registered := by
  apply hr.congr hat
  · intro q
    rw [hpage]
    by_cases hq : q = p
    · subst hq
      rw [Function.update_self, hpg, Option.map_some, Option.map_some, hva]
    · rw [Function.update_of_ne hq]
  · exact hnext
  · exact hproc
  · intro t' ht'
    rw [← halive t']
    exact ht'

theorem kva_set_frame {f : ℕ} {fr : Pintos.frame} (fr' : Pintos.frame) (hf : s.frame f = some fr)
    (hkva : fr'.kva = fr.kva) (g : ℕ) :
    (Function.update s.frame f (some fr') g).map (·.kva) = (s.frame g).map (·.kva) := by
  by_cases heq : g = f
  · subst heq
    rw [Function.update_self, hf, Option.map_some, Option.map_some, hkva]
  · rw [Function.update_of_ne heq]

section Attach

variable {f : ℕ} {fr : Pintos.frame}

/-- A frame that nobody used gets its first page. What kind of page it is comes
after, in `swap_in`. -/
theorem Coherent.attached (hc : s.Coherent) (hp : s.page_at t pg.va = some p)
    (hpg : s.page p = some pg) (hf : s.frame f = some fr) (href : 1 ≤ fr.ref_cnt)
    (hunused : ∀ t' va', ¬ s.Resident t' va' f) :
    (s.attach t p pg f fr).Registered ∧ (s.attach t p pg f fr).Mapped
      ∧ PageUpdate s (s.attach t p pg f fr) t pg.va { pg with frame := some f } := by
  have hat : ∀ t' va', (s.attach t p pg f fr).page_at t' va' = s.page_at t' va' := by
    intro t' va'
    unfold vm.attach
    rw [page_at_set_pte]
    rfl
  have hpage : (s.attach t p pg f fr).page
      = Function.update s.page p (some { pg with frame := some f }) := rfl
  have hu : PageUpdate s (s.attach t p pg f fr) t pg.va { pg with frame := some f } :=
    hc.registered.pageUpdate hp hat hpage
  have hmaps : ∀ t' va' k, (s.attach t p pg f fr).Maps t' va' k
      ↔ (t' = t ∧ va' = pg.va ∧ fr.kva = k) ∨ (¬ (t' = t ∧ va' = pg.va) ∧ s.Maps t' va' k) := by
    intro t' va' k
    unfold vm.attach
    rw [maps_set_pte]
    simp only [true_and]
    rfl
  refine ⟨registered_set_page_congr hc.registered hpg hat hpage rfl rfl rfl fun t' => ?_, ?_, hu⟩
  · unfold vm.attach
    rw [alive_set_pte]
    rfl
  · apply hc.mapped.assign hu rfl (Function.update_self _ _ _) hmaps
      (kva_set_frame { fr with page := some p } hf rfl) rfl rfl
    · intro t' va' hr
      exact absurd hr (hunused t' va')
    · intro g gr hg
      by_cases hgf : g = f
      · subst hgf
        have hgr : gr = { fr with page := some p } := by
          have hself : (s.attach t p pg g fr).frame g = some { fr with page := some p } :=
            Function.update_self _ _ _
          rw [hself] at hg
          exact (Option.some.inj hg).symm
        have hone : Counted (fun x : ℕ × ℕ => (s.attach t p pg g fr).Resident x.1 x.2 g)
            (0 + 1) := by
          apply Counted.insert (a := (t, pg.va))
            (Counted.of_empty (fun x => hunused x.1 x.2) le_rfl)
          · intro x hx
            rcases hu.resident_iff.mp hx with ⟨ht, hva, -⟩ | ⟨-, hr⟩
            · exact .inr (Prod.ext ht hva)
            · exact .inl hr
        subst hgr
        exact hone.mono (fun _ h => h) href
      · have hg' : s.frame g = some gr := by
          rw [← hg]
          exact (Function.update_of_ne hgf _ _).symm
        apply (hc.mapped.counted hg').mono _ le_rfl
        intro x hx
        rcases hu.resident_iff.mp hx with ⟨-, -, hgf'⟩ | ⟨-, hr⟩
        · exact absurd (Option.some.inj hgf').symm hgf
        · exact hr

/-- **Swapping in** a page that has just got its frame. `s₁` is the state with the
frame linked, `s` the one before that. -/
theorem SwappedIn.coherent {s₁ : vm} {kva : ℕ} {done : Bool} (hsw : s.Swapped)
    (hold : s.registered t pg.va = some pg) (hnone : pg.frame = none)
    (hr : s₁.Registered) (hm : s₁.Mapped) (htable : s₁.swap_table = s.swap_table)
    (hu : PageUpdate s s₁ t pg.va { pg with frame := some f })
    (hp : s₁.page_at t pg.va = some p) (hpg : s₁.page p = some { pg with frame := some f })
    (h : SwappedIn s₁ p { pg with frame := some f } kva done s') :
    s'.Coherent ∧ ∃ kd, PageUpdate s s' t pg.va { pg with frame := some f, kind := kd } := by
  -- the page keeps its new frame, so only its kind is of interest
  have key : ∀ (s₂ : vm) (kd : page_kind), SameTables s₁ s₂ →
      (∀ i, s.swap_table i = true → s₂.swap_table i = true ∨ s.OnSlot t pg.va i) →
      (∀ i : ℤ, kd = .anon i → i < 0) → (∀ u, kd ≠ .uninit u) →
      (s₂.set_page p { pg with frame := some f, kind := kd }).Coherent
        ∧ ∃ kd', PageUpdate s (s₂.set_page p { pg with frame := some f, kind := kd }) t pg.va
          { pg with frame := some f, kind := kd' } := by
    intro s₂ kd hsame htab hkd hkd'
    have hpage : (s₂.set_page p { pg with frame := some f, kind := kd }).page
        = Function.update s₁.page p (some { pg with frame := some f, kind := kd }) := by
      rw [← hsame.page]
      rfl
    have hat : ∀ t' va', (s₂.set_page p { pg with frame := some f, kind := kd }).page_at t' va'
        = s₁.page_at t' va' := hsame.page_at
    have hu₁ : PageUpdate s₁ (s₂.set_page p { pg with frame := some f, kind := kd }) t pg.va
        { pg with frame := some f, kind := kd } := hr.pageUpdate hp hat hpage
    have hu₂ : PageUpdate s (s₂.set_page p { pg with frame := some f, kind := kd }) t pg.va
        { pg with frame := some f, kind := kd } := by
      refine ⟨fun t' va' => (hu₁.page_at t' va').trans (hu.page_at t' va'), hu₁.self, ?_⟩
      intro t' va' hne
      rw [hu₁.other t' va' hne, hu.other t' va' hne]
    refine ⟨⟨?_, ?_, ?_⟩, kd, hu₂⟩
    · exact registered_set_page_congr hr hpg hat hpage rfl hsame.next_page hsame.next_proc
        hsame.alive
    · apply hm.congr
      · exact hu₁.resident_congr hu.self rfl
      · exact hsame.maps
      · intro g
        exact congrArg (Option.map core) (congrFun hsame.frame g)
      · exact hsame.next_frame
      · intro k hk
        rw [← hsame.used] at hk
        exact hk
    · apply hsw.update hu₂ htab
      · intro i hi
        exact ⟨hkd i hi, Option.some_ne_none f⟩
      · intro u hu
        exact absurd hu (hkd' u)
  have hsame_table : ∀ i, s.swap_table i = true → s₁.swap_table i = true ∨ s.OnSlot t pg.va i := by
    intro i hi
    rw [htable]
    exact .inl hi
  cases h with
  | @uninit u kd m done hk hkd =>
      apply key (s₁.set_mem kva m) kd (.set_mem s₁ kva m) hsame_table
      · rintro i rfl
        rcases hkd with hkd | ⟨fp, hkd⟩
        · cases hkd
          decide
        · cases hkd
      · rintro u rfl
        rcases hkd with hkd | ⟨fp, hkd⟩
        · cases hkd
        · cases hkd
  | @stay i hk hi =>
      -- an anonymous page without a frame is in the swap area
      have := (hsw.home hold hk).mpr hnone
      omega
  | @anon i m hk hi hm' =>
      apply key ((s₁.set_mem kva m).set_swap s₁.swap_disk i.toNat false) (.anon (-1))
        ((SameTables.set_mem s₁ kva m).trans (.set_swap _ _ _ _))
      · intro j hj
        by_cases hji : j = i.toNat
        · right
          refine ⟨pg, hold, ?_⟩
          have hk : pg.kind = .anon i := hk
          rw [hk, hji, Int.toNat_of_nonneg hi]
        · left
          rw [set_swap_swap_table, Function.update_of_ne hji]
          rw [← htable] at hj
          exact hj
      · intro j hj
        cases hj
        decide
      · intro u hu
        cases hu
  | @file fp m done hk hload =>
      have := key (s₁.set_mem kva m) (.file fp) (.set_mem s₁ kva m) hsame_table
        (fun i hi => by cases hi) (fun u hu => by cases hu)
      have hk : pg.kind = .file fp := hk
      have hpg₁ : { pg with frame := some f, kind := page_kind.file fp }
          = ({ pg with frame := some f } : Pintos.page) := by
        rw [← hk]
      rw [hpg₁, set_page_self (show (s₁.set_mem kva m).page p = _ from hpg)] at this
      exact this

end Attach

/-! ## Faults -/

/-- **`vm_do_claim_page`**, for a page of `t` without a frame. -/
theorem vm_do_claim_page_coherent {done : Bool} (hc : s.Coherent) (hev : s.EvictsOwn t)
    (hp : s.page_at t va = some p) (hpg : s.page p = some pg) (hnone : pg.frame = none)
    (h : vm_do_claim_page s t p = .ok (done, s')) :
    ∃ f s₁ fr kd, vm_get_frame s t = .ok (f, s₁) ∧ GotFrame s t f s₁ ∧ s₁.frame f = some fr
      ∧ s'.frame f = some { fr with page := some p } ∧ s'.Coherent
      ∧ PageUpdate s₁ s' t va { pg with frame := some f, kind := kd } := by
  obtain ⟨f, s₁, fr, pg₁, hget, hfr, hpg₁, hin, hcase⟩ := vm_do_claim_page_cases h
  have hgot := vm_get_frame_gotFrame hc hev hget
  have hsome := hgot.pages hpg (.inl hnone)
  rw [hpg₁] at hsome
  obtain rfl := Option.some.inj hsome
  have hva : pg₁.va = va := by
    obtain ⟨pg', hpg', hva⟩ := hc.registered.page hp
    rw [hpg] at hpg'
    obtain rfl := Option.some.inj hpg'
    exact hva
  subst hva
  have hp₁ : s₁.page_at t pg₁.va = some p := by
    rw [hgot.page_at]
    exact hp
  have href : 1 ≤ fr.ref_cnt := by
    obtain ⟨fr', hfr', href⟩ := hgot.frame
    rw [hfr] at hfr'
    obtain rfl := Option.some.inj hfr'
    omega
  obtain ⟨hr₂, hm₂, hu₂⟩ := hgot.coherent.attached hp₁ hpg₁ hfr href hgot.unused
  have hpg₂ : (s₁.attach t p pg₁ f fr).page p = some { pg₁ with frame := some f } :=
    Function.update_self _ _ _
  have hp₂ : (s₁.attach t p pg₁ f fr).page_at t pg₁.va = some p := by
    rw [hu₂.page_at]
    exact hp₁
  obtain ⟨hc', kd, hu'⟩ := SwappedIn.coherent hgot.coherent.swapped
    (registered_eq_some.mpr ⟨p, hp₁, hpg₁⟩) hnone hr₂ hm₂ rfl hu₂ hp₂ hpg₂ hcase
  refine ⟨f, s₁, fr, kd, hget, hgot, hfr, ?_, hc', hu'⟩
  have hframe : s'.frame = (s₁.attach t p pg₁ f fr).frame := by
    cases hcase <;> rfl
  rw [hframe]
  exact Function.update_self _ _ _

/-- A page whose frame is shared moves to a frame of its own. -/
theorem copy_on_write_coherent {f cf : ℕ} {fr cfr : Pintos.frame} (hc : s.Coherent)
    (hp : s.page_at t pg.va = some p) (hpg : s.page p = some pg) (hpf : pg.frame = some cf)
    (hcf : s.frame cf = some cfr) (hf : s.frame f = some fr) (href : 1 ≤ fr.ref_cnt)
    (hunused : ∀ t' va', ¬ s.Resident t' va' f) :
    (s.copy_on_write t p pg f fr cf cfr).Coherent
      ∧ PageUpdate s (s.copy_on_write t p pg f fr cf cfr) t pg.va { pg with frame := some f } := by
  have hcur : s.Resident t pg.va cf := ⟨pg, registered_eq_some.mpr ⟨p, hp, hpg⟩, hpf⟩
  have hne : f ≠ cf := by
    rintro rfl
    exact hunused _ _ hcur
  have hat : ∀ t' va', (s.copy_on_write t p pg f fr cf cfr).page_at t' va' = s.page_at t' va' := by
    intro t' va'
    unfold vm.copy_on_write
    rw [page_at_set_pte]
    rfl
  have hpage : (s.copy_on_write t p pg f fr cf cfr).page
      = Function.update s.page p (some { pg with frame := some f }) := rfl
  have hu := hc.registered.pageUpdate hp hat hpage
  have hmaps : ∀ t' va' k, (s.copy_on_write t p pg f fr cf cfr).Maps t' va' k
      ↔ (t' = t ∧ va' = pg.va ∧ fr.kva = k) ∨ (¬ (t' = t ∧ va' = pg.va) ∧ s.Maps t' va' k) := by
    intro t' va' k
    unfold vm.copy_on_write
    rw [maps_set_pte]
    simp only [true_and]
    rfl
  have hself : (s.copy_on_write t p pg f fr cf cfr).frame f = some fr := by
    rw [← hf]
    exact Function.update_of_ne hne _ _
  refine ⟨⟨?_, ?_, ?_⟩, hu⟩
  · refine registered_set_page_congr hc.registered hpg hat hpage rfl rfl rfl fun t' => ?_
    unfold vm.copy_on_write
    rw [alive_set_pte]
    rfl
  · apply hc.mapped.assign hu rfl hself hmaps
      (kva_set_frame { cfr with ref_cnt := cfr.ref_cnt - 1 } hcf rfl) rfl rfl
    · intro t' va' hr
      exact absurd hr (hunused t' va')
    · intro g gr hg
      by_cases hgcf : g = cf
      · -- the old frame: one page less, one reference less
        subst hgcf
        have hold : (s.copy_on_write t p pg f fr g cfr).frame g
            = some { cfr with ref_cnt := cfr.ref_cnt - 1 } := Function.update_self _ _ _
        rw [hold] at hg
        obtain rfl := Option.some.inj hg
        apply (hc.mapped.counted hcf).remove (a := (t, pg.va)) hcur
        intro x hx
        rcases hu.resident_iff.mp hx with ⟨-, -, hfg⟩ | ⟨hx', hr⟩
        · exact absurd (Option.some.inj hfg) hne
        · refine ⟨hr, ?_⟩
          rintro rfl
          exact hx' ⟨rfl, rfl⟩
      · have hg' : s.frame g = some gr := by
          rw [← hg]
          exact (Function.update_of_ne hgcf _ _).symm
        by_cases hgf : g = f
        · subst hgf
          rw [hf] at hg'
          obtain rfl := Option.some.inj hg'
          have hone : Counted (fun x : ℕ × ℕ =>
              (s.copy_on_write t p pg g fr cf cfr).Resident x.1 x.2 g) (0 + 1) := by
            apply Counted.insert (a := (t, pg.va))
              (Counted.of_empty (fun x => hunused x.1 x.2) le_rfl)
            intro x hx
            rcases hu.resident_iff.mp hx with ⟨ht, hva, -⟩ | ⟨-, hr⟩
            · exact .inr (Prod.ext ht hva)
            · exact .inl hr
          exact hone.mono (fun _ h => h) href
        · apply (hc.mapped.counted hg').mono _ le_rfl
          intro x hx
          rcases hu.resident_iff.mp hx with ⟨-, -, hgf'⟩ | ⟨-, hr⟩
          · exact absurd (Option.some.inj hgf').symm hgf
          · exact hr
  · apply hc.swapped.update hu
    · intro i hi
      exact .inl hi
    · intro i hi
      refine ⟨?_, Option.some_ne_none f⟩
      have := hc.swapped.home (registered_eq_some.mpr ⟨p, hp, hpg⟩) hi
      rw [hpf] at this
      by_contra hneg
      exact Option.some_ne_none cf (this.mp (by omega))
    · intro u hu'
      have := hc.swapped.untouched (registered_eq_some.mpr ⟨p, hp, hpg⟩) hu'
      rw [hpf] at this
      cases this

/-- A page that is alone on its frame becomes writable again. -/
theorem make_writable_sameTables {cf : ℕ} {cfr : Pintos.frame} (hc : s.Coherent)
    (hp : s.page_at t pg.va = some p) (hpg : s.page p = some pg) (hpf : pg.frame = some cf)
    (hcf : s.frame cf = some cfr) :
    SameTables (s.set_frame cf { cfr with page := some p }) (s.make_writable t p pg cf cfr) := by
  have hcur : s.Resident t pg.va cf := ⟨pg, registered_eq_some.mpr ⟨p, hp, hpg⟩, hpf⟩
  obtain ⟨cfr', hcf', e, he, hpres, hkva⟩ := hc.mapped.resident hcur
  rw [hcf] at hcf'
  obtain rfl := Option.some.inj hcf'
  have he' : (s.set_frame cf { cfr with page := some p }).pte_at t pg.va = some e := he
  exact .set_pte _ he' hkva.symm hpres.symm

theorem Coherent.set_frame_page (hc : s.Coherent) {f : ℕ} {fr : Pintos.frame}
    (fr' : Pintos.frame) (hf : s.frame f = some fr) (hcore : core fr' = core fr) :
    (s.set_frame f fr').Coherent := by
  have hm : (s.set_frame f fr').Mapped := by
    refine hc.mapped.congr (fun _ _ _ => ?_) (fun _ _ _ => ?_) (core_set_frame fr' hf hcore) ?_
      fun _ hk => ?_
    · exact Iff.rfl
    · exact Iff.rfl
    · rfl
    · exact hk
  exact hc.of_mapped hm (fun _ _ => rfl) rfl rfl rfl (fun _ => rfl) rfl

/-- A new page is registered where there was none. -/
theorem Coherent.register (hc : s.Coherent) (pg : Pintos.page) (hnone : s.page_at t pg.va = none)
    (hround : pg_round_down pg.va = pg.va) (hframe : pg.frame = none)
    (hkind : ∀ i : ℤ, pg.kind ≠ .anon i) :
    (s.register t pg).Coherent
      ∧ (∀ t' va', ¬ (t' = t ∧ va' = pg.va) →
        (s.register t pg).registered t' va' = s.registered t' va')
      ∧ (s.register t pg).registered t pg.va = some pg := by
  have hnew : ∀ {t' va' q}, s.page_at t' va' = some q → q ≠ s.next_page := by
    intro t' va' q hq
    obtain ⟨qg, hqg, -⟩ := hc.registered.page hq
    exact (hc.registered.fresh hqg).ne
  have hpage : ∀ q, q ≠ s.next_page → (s.register t pg).page q = s.page q := by
    intro q hq
    exact Function.update_of_ne hq _ _
  have hself : (s.register t pg).page s.next_page = some pg := Function.update_self _ _ _
  have hregs : (s.register t pg).registered t pg.va = some pg := by
    apply registered_eq_some.mpr
    refine ⟨s.next_page, ?_, hself⟩
    rw [page_at_register, if_pos ⟨rfl, rfl⟩]
  have hrego : ∀ t' va', ¬ (t' = t ∧ va' = pg.va) →
      (s.register t pg).registered t' va' = s.registered t' va' := by
    intro t' va' hne
    have hat := page_at_register s t pg t' va'
    rw [if_neg hne] at hat
    exact registered_congr hat fun q hq => hpage q (hnew hq)
  have hold : s.registered t pg.va = none := by
    unfold vm.registered
    rw [hnone]
    rfl
  -- the new page is neither resident nor swapped out
  have hres : ∀ t' va' f, (s.register t pg).Resident t' va' f ↔ s.Resident t' va' f := by
    intro t' va' f
    unfold Resident
    by_cases heq : t' = t ∧ va' = pg.va
    · obtain ⟨rfl, rfl⟩ := heq
      rw [hregs, hold]
      simp [hframe]
    · rw [hrego t' va' heq]
  have hslot : ∀ {t' va' i}, (s.register t pg).OnSlot t' va' i → s.OnSlot t' va' i := by
    rintro t' va' i ⟨qg, hqg, hk⟩
    by_cases heq : t' = t ∧ va' = pg.va
    · obtain ⟨rfl, rfl⟩ := heq
      rw [hregs] at hqg
      obtain rfl := Option.some.inj hqg
      exact absurd hk (hkind _)
    · rw [hrego t' va' heq] at hqg
      exact ⟨qg, hqg, hk⟩
  refine ⟨⟨hc.registered.register t pg hround, ?_, ⟨?_, ?_, ?_, ?_⟩⟩, hrego, hregs⟩
  · refine hc.mapped.congr hres (fun t' va' k => ?_) (fun _ => rfl) rfl fun _ hk => hk
    unfold Maps vm.register
    rw [pte_at_set_spt]
    rfl
  · intro t' va' i hi
    exact hc.swapped.slot (hslot hi)
  · intro t₁ va₁ t₂ va₂ i h₁ h₂
    exact hc.swapped.inj (hslot h₁) (hslot h₂)
  · intro t' va' qg i hq hk
    by_cases heq : t' = t ∧ va' = pg.va
    · obtain ⟨rfl, rfl⟩ := heq
      rw [hregs] at hq
      obtain rfl := Option.some.inj hq
      exact absurd hk (hkind i)
    · rw [hrego t' va' heq] at hq
      exact hc.swapped.home hq hk
  · intro t' va' qg u hq hk
    by_cases heq : t' = t ∧ va' = pg.va
    · obtain ⟨rfl, rfl⟩ := heq
      rw [hregs] at hq
      obtain rfl := Option.some.inj hq
      exact hframe
    · rw [hrego t' va' heq] at hq
      exact hc.swapped.untouched hq hk

/-- The frame given to `(t, va)` is mapped there and nowhere else. -/
theorem PageUpdate.maps_only (hu : PageUpdate s s' t va pg) (hc : s'.Coherent) {f : ℕ}
    {fr : Pintos.frame} (hunused : ∀ t' va', ¬ s.Resident t' va' f) (hf : s'.frame f = some fr)
    {t' va' : ℕ} (hmap : s'.Maps t' va' fr.kva) : t' = t ∧ va' = va := by
  obtain ⟨g, gr, hr, hg, hk⟩ := hc.mapped.maps hmap
  obtain rfl := hc.mapped.kva_inj hf hg hk
  rcases hu.resident_iff.mp hr with ⟨ht, hva, -⟩ | ⟨-, hr⟩
  · exact ⟨ht, hva⟩
  · exact absurd hr (hunused t' va')

/-- After a fault, the physical page of the victim is mapped at most where the fault was. -/
def NoStale (s : vm) (t va : ℕ) (write : Bool) (s' : vm) : Prop :=
  ∀ s₀ v s₁ fr, frame_demand s t va write = some s₀ → palloc_get_page s₀ = none →
    vm_get_victim s₀ t = .ok (v, s₁) → s₀.frame v = some fr →
      ∀ t' va', s'.Maps t' va' fr.kva → t' = t ∧ va' = va

/-- A claimed page leaves no stale mapping. -/
theorem claimed_no_stale {done : Bool} (hc : s.Coherent) (hev : s.EvictsOwn t)
    (hp : s.page_at t va = some p) (hpg : s.page p = some pg) (hnone : pg.frame = none)
    (h : vm_do_claim_page s t p = .ok (done, s')) :
    s'.Coherent ∧ ∀ {v s₁ fr}, palloc_get_page s = none → vm_get_victim s t = .ok (v, s₁) →
      s.frame v = some fr → ∀ t' va', s'.Maps t' va' fr.kva → t' = t ∧ va' = va := by
  obtain ⟨f, s₁, fr, kd, hget, hgot, hfr, hf', hc', hu⟩ :=
    vm_do_claim_page_coherent hc hev hp hpg hnone h
  refine ⟨hc', fun {v s₂ vfr} hpal hv hvfr t' va' hmap => ?_⟩
  obtain ⟨fr₁, hfr₁, hkva⟩ := hgot.evicted hpal hv hvfr
  rw [hfr] at hfr₁
  obtain rfl := Option.some.inj hfr₁
  rw [← hkva] at hmap
  exact hu.maps_only hc' hgot.unused hf' hmap

/-- **One page fault.** If the process has to evict and evicts its own, the state
stays coherent and no mapping of the victim is left. -/
theorem Faulted.coherent {write done : Bool} (hc : s.Coherent) (hround : pg_round_down va = va)
    (hread : write = false → ∀ f, ¬ s.Resident t va f)
    (hev : ∀ s₀, frame_demand s t va write = some s₀ → s₀.EvictsOwn t)
    (h : Faulted s t va write done s') : s'.Coherent ∧ NoStale s t va write s' := by
  cases h with
  | refused hdem =>
      refine ⟨hc, fun s₀ v s₁ fr hdem' => ?_⟩
      rw [hdem] at hdem'
      cases hdem'
  | grown hnone hdem hclaim =>
      obtain ⟨hc₀, -, hself⟩ := hc.register (stack_page va) hnone hround rfl
        (fun i hi => by cases hi)
      obtain ⟨p, hp, hpg⟩ := registered_eq_some.mp hself
      have hnext : p = s.next_page := by
        rw [page_at_register, if_pos ⟨rfl, rfl⟩] at hp
        exact (Option.some.inj hp).symm
      subst hnext
      obtain ⟨hc', hstale⟩ := claimed_no_stale hc₀ (hev _ hdem) hp hpg rfl hclaim
      refine ⟨hc', fun s₀ v s₁ fr hdem' hpal hv hfr => ?_⟩
      rw [hdem] at hdem'
      obtain rfl := Option.some.inj hdem'
      exact hstale hpal hv hfr
  | @write_protected p pg s' hp hpg hdem hwp =>
      have hva : pg.va = va := hc.registered.va (registered_eq_some.mpr ⟨p, hp, hpg⟩)
      subst hva
      cases hwp with
      | @copy pg₁ pg₂ cf f cfr cfr₂ fr s₁ hpg₁ hpf hcf href hget hfr hpg₂ hcf₂ =>
          rw [hpg] at hpg₁
          obtain rfl := Option.some.inj hpg₁
          have hneeds := hdem hpf hcf
          rw [if_pos href] at hneeds
          have hgot := vm_get_frame_gotFrame hc (hev s hneeds) hget
          -- the frame that is copied is still there, so it was not evicted
          have hkeep := hgot.pages hpg (.inr ⟨cf, cfr₂, hpf, hcf₂⟩)
          rw [hpg₂] at hkeep
          obtain rfl := Option.some.inj hkeep
          have hp₁ : s₁.page_at t pg₂.va = some p := by
            rw [hgot.page_at]
            exact hp
          obtain ⟨fr', hfr', href'⟩ := hgot.frame
          rw [hfr] at hfr'
          obtain rfl := Option.some.inj hfr'
          obtain ⟨hc', hu⟩ := copy_on_write_coherent hgot.coherent hp₁ hpg₂ hpf hcf₂ hfr
            href'.ge hgot.unused
          have hne : f ≠ cf := by
            rintro rfl
            exact hgot.unused t pg₂.va ⟨pg₂, registered_eq_some.mpr ⟨p, hp₁, hpg₂⟩, hpf⟩
          have hf' : (s₁.copy_on_write t p pg₂ f fr cf cfr₂).frame f = some fr := by
            rw [← hfr]
            exact Function.update_of_ne hne _ _
          refine ⟨hc', fun s₀ v s₂ vfr hdem' hpal hv hvfr t' va' hmap => ?_⟩
          rw [hneeds] at hdem'
          obtain rfl := Option.some.inj hdem'
          obtain ⟨fr₁, hfr₁, hkva⟩ := hgot.evicted hpal hv hvfr
          rw [hfr] at hfr₁
          obtain rfl := Option.some.inj hfr₁
          rw [← hkva] at hmap
          exact hu.maps_only hc' hgot.unused hf' hmap
      | @own pg₁ cf cfr hpg₁ hpf hcf href =>
          rw [hpg] at hpg₁
          obtain rfl := Option.some.inj hpg₁
          have hc₁ := hc.set_frame_page { cfr with page := some p } hcf rfl
          refine ⟨(make_writable_sameTables hc hp hpg hpf hcf).coherent hc₁ rfl, ?_⟩
          -- no frame is asked for
          intro s₀ v s₁ fr hdem'
          rw [hdem hpf hcf, if_neg (not_lt.mpr href)] at hdem'
          cases hdem'
  | @claimed p pg done s' hp hpg hres hdem hclaim =>
      have hnone : pg.frame = none := by
        cases write with
        | true => exact hres rfl
        | false =>
            cases hpf : pg.frame with
            | none => rfl
            | some f =>
                exact absurd ⟨pg, registered_eq_some.mpr ⟨p, hp, hpg⟩, hpf⟩ (hread rfl f)
      obtain ⟨hc', hstale⟩ := claimed_no_stale hc (hev s hdem) hp hpg hnone hclaim
      refine ⟨hc', fun s₀ v s₁ fr hdem' hpal hv hfr => ?_⟩
      rw [hdem] at hdem'
      obtain rfl := Option.some.inj hdem'
      exact hstale hpal hv hfr

end vm

end Pintos
