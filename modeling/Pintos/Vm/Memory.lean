/-
Memory as one process sees it: a load gives the byte that was stored last.

The kernel moves pages behind the process's back, from frames to the swap area and back. With one
process on the machine every frame is that process's own, so an eviction takes a page whose contents
the swap area keeps, and the frame table has no frame that an eviction cannot use. Between a store
and a load of the same address there may be any number of faults.
-/
import Pintos.Vm.Contents
import Pintos.Vm.FrameRuns

set_option autoImplicit false

namespace Pintos

namespace vm

variable {s s' : vm} {t va p : ℕ} {pg : Pintos.page} {done : Bool}

/-! ## One process -/

/-- All pages are those of `t`, and no frame is shared. -/
structure Solo (s : vm) (t : ℕ) : Prop where
  coherent : s.Coherent
  listed : Listed s none_new
  mine : ∀ {t' va p}, s.page_at t' va = some p → t' = t
  single : ∀ {f fr}, s.frame f = some fr → fr.ref_cnt ≤ 1

/-- A resident page is the only one of its frame. -/
theorem Solo.alone (h : s.Solo t) {t₁ va₁ t₂ va₂ f : ℕ} (h₁ : s.Resident t₁ va₁ f)
    (h₂ : s.Resident t₂ va₂ f) : t₂ = t₁ ∧ va₂ = va₁ := by
  have hsame := h.coherent.mapped.same_va h₁ h₂
  obtain ⟨pg₁, hr₁, -⟩ := h₁
  obtain ⟨pg₂, hr₂, -⟩ := h₂
  obtain ⟨p₁, hp₁, -⟩ := registered_eq_some.mp hr₁
  obtain ⟨p₂, hp₂, -⟩ := registered_eq_some.mp hr₂
  exact ⟨(h.mine hp₂).trans (h.mine hp₁).symm, hsame⟩

/-- The clock stops at a frame. -/
theorem vm_get_victim_frame {v : ℕ} (h : Pintos.vm_get_victim s t = .ok (v, s')) :
    ∃ fr, s.frame v = some fr := by
  have hva : ∀ {f va : ℕ}, victim_va s f = .ok va → ∃ fr, s.frame f = some fr := by
    intro f va hf
    obtain ⟨⟨f', fr⟩, hget, -⟩ := Outcome.bind_eq_ok.mp hf
    obtain ⟨hff, hfr⟩ := get_frame_eq_ok.mp hget
    obtain rfl := Option.some.inj hff
    exact ⟨fr, hfr⟩
  have hscan : ∀ (l : List ℕ) {s₁ s₂ : vm} {g : ℕ}, s₁.frame = s.frame →
      clock_scan t l s₁ = .ok (some g, s₂) → ∃ fr, s.frame g = some fr := by
    intro l
    induction l with
    | nil =>
        intro s₁ s₂ g _ hrun
        cases hrun
    | cons f fs ih =>
        intro s₁ s₂ g hs₁ hrun
        rw [clock_scan] at hrun
        obtain ⟨va, hf, hrun⟩ := Outcome.bind_eq_ok.mp hrun
        split at hrun
        · exact ih (show (pml4_set_accessed s₁ t va false).frame = s.frame from hs₁) hrun
        · obtain ⟨hg, -⟩ := Outcome.ok_pair hrun
          obtain rfl := Option.some.inj hg
          obtain ⟨⟨f', fr⟩, hget, -⟩ := Outcome.bind_eq_ok.mp hf
          obtain ⟨hff, hfr⟩ := get_frame_eq_ok.mp hget
          obtain rfl := Option.some.inj hff
          exact ⟨fr, hs₁ ▸ hfr⟩
  unfold Pintos.vm_get_victim at h
  obtain ⟨order, -, h⟩ := Outcome.bind_eq_ok.mp h
  cases order with
  | nil => cases h
  | cons hand rest =>
      obtain ⟨⟨found, s₁⟩, hrun, h⟩ := Outcome.bind_eq_ok.mp h
      obtain ⟨rfl, -⟩ := Outcome.ok_pair h
      cases found with
      | some g => exact hscan (hand :: rest) rfl hrun
      | none =>
          rw [clock_scan] at hrun
          obtain ⟨va, hf, -⟩ := Outcome.bind_eq_ok.mp hrun
          exact hva hf

/-- Every eviction takes a page of the process. -/
theorem Solo.evictsOwn (h : s.Solo t) : s.EvictsOwn t := by
  intro _ f s' hv
  obtain ⟨fr, hf⟩ := vm_get_victim_frame hv
  obtain ⟨p, t', va, hp, hat, hres⟩ := h.listed.named hf id
  obtain rfl := h.mine hat
  obtain ⟨pg, hreg, hpf⟩ := hres
  obtain ⟨q, hq, hpg⟩ := registered_eq_some.mp hreg
  obtain rfl := Option.some.inj (hat.symm.trans hq)
  have hva : pg.va = va := h.coherent.registered.va hreg
  exact ⟨fr, p, pg, hf, hp, hpg, hva ▸ hat, hpf, fun t₁ va₁ hr => hva ▸ h.alone ⟨pg, hreg, hpf⟩ hr⟩

/-- No frame names a page that is not resident. -/
theorem Solo.not_named (h : s.Solo t) (hpg : s.page p = some pg) (hnone : pg.frame = none) :
    ¬ s.Named p := by
  rintro ⟨f, fr, hf, hp⟩
  obtain ⟨q, t', va, hq, hat, pg', hreg, hpf⟩ := h.listed.named hf id
  obtain rfl := Option.some.inj (hp.symm.trans hq)
  obtain ⟨q, hq, hpg'⟩ := registered_eq_some.mp hreg
  obtain rfl := Option.some.inj (hat.symm.trans hq)
  obtain rfl := Option.some.inj (hpg.symm.trans hpg')
  rw [hnone] at hpf
  cases hpf

/-! ## Page faults -/

/-- **`vm_do_claim_page`**: the page gets a frame of its own. -/
theorem Solo.claim (h : s.Solo t) (hp : s.page_at t va = some p) (hpg : s.page p = some pg)
    (hnone : pg.frame = none) (hrun : Pintos.vm_do_claim_page s t p = .ok (done, s')) :
    s'.Solo t ∧ KeepsBytes s s' := by
  obtain ⟨f, s₁, fr, kd, hget, hgot, hfr, hf', hc', hu⟩ :=
    vm_do_claim_page_coherent h.coherent h.evictsOwn hp hpg hnone hrun
  have hlisted := (h.listed.vm_do_claim_page hp hpg (h.not_named hpg hnone) hrun).1
  have hframe : ∀ g, g ≠ f → s'.frame g = s₁.frame g := by
    obtain ⟨f', s₁', fr', pg', hget', -, -, -, hin⟩ := vm_do_claim_page_cases hrun
    obtain ⟨rfl, rfl⟩ := Outcome.ok_pair (hget.symm.trans hget')
    intro g hg
    rw [(SwappedIn.rest hin).1]
    exact Function.update_of_ne hg _ _
  refine ⟨⟨hc', hlisted, fun {t' va' q} hq => ?_, fun {g gr} hg => ?_⟩,
    vm_do_claim_page_keepsBytes h.coherent h.evictsOwn hp hpg hnone hrun⟩
  · rw [hu.page_at, hgot.page_at] at hq
    exact h.mine hq
  · by_cases hgf : g = f
    · obtain ⟨fr₁, hfr₁, hone⟩ := hgot.frame
      obtain rfl := Option.some.inj (hfr.symm.trans hfr₁)
      rw [hgf, hf'] at hg
      obtain rfl := Option.some.inj hg
      exact hone.le
    · rw [hframe g hgf] at hg
      obtain ⟨gr', hg', hcore⟩ := hgot.frames hgf hg
      have href : gr'.ref_cnt = gr.ref_cnt := congrArg Prod.snd hcore
      exact href ▸ h.single hg'

/-- A new page is registered. -/
theorem Solo.register (h : s.Solo t) (ht : t < s.next_proc) (pg : Pintos.page)
    (hnone : s.page_at t pg.va = none) (hround : pg_round_down pg.va = pg.va)
    (hframe : pg.frame = none)
    (hkind : ∀ i : ℤ, pg.kind ≠ .anon i) : (s.register t pg).Solo t
    ∧ KeepsBytes s (s.register t pg) := by
  refine ⟨⟨(h.coherent.register pg hnone hround hframe hkind).1,
    h.listed.register pg ht hround hnone hframe,
    fun {t' va' q} hq => ?_, h.single⟩, register_keepsBytes h.coherent pg hnone hround hframe hkind⟩
  rw [page_at_register] at hq
  split at hq
  · rename_i heq
    exact heq.1
  · exact h.mine hq

/-- A protected page becomes writable. -/
theorem Solo.make_writable {f : ℕ} {fr : Pintos.frame} (h : s.Solo t)
    (hp : s.page_at t pg.va = some p)
    (hpg : s.page p = some pg) (hpf : pg.frame = some f) (hf : s.frame f = some fr) :
    (s.make_writable t p pg f fr).Solo t ∧ KeepsBytes s (s.make_writable t p pg f fr) := by
  have hc := h.coherent.set_frame_page { fr with page := some p } hf rfl
  have hsame := make_writable_sameTables h.coherent hp hpg hpf hf
  have hframe : KeepsBytes s (s.set_frame f { fr with page := some p }) := by
    intro t' va' b hb
    refine hb.mono rfl (fun {g gr} _ hg => ?_) (fun {i} _ k _ => rfl)
    by_cases hgf : g = f
    · subst hgf
      obtain rfl := Option.some.inj (hf.symm.trans hg)
      exact ⟨_, Function.update_self _ _ _, rfl, rfl⟩
    · exact ⟨gr, (Function.update_of_ne hgf _ _).trans hg, rfl, rfl⟩
  refine ⟨⟨hsame.coherent hc rfl, h.listed.make_writable hp hpg hpf hf (h.single hf),
    fun {t' va' q} hq => ?_, fun {g gr} hg => ?_⟩, hframe.trans (hsame.keepsBytes rfl rfl)⟩
  · rw [hsame.page_at] at hq
    exact h.mine hq
  · rw [hsame.frame] at hg
    by_cases hgf : g = f
    · rw [hgf, set_frame_frame, Function.update_self] at hg
      obtain rfl := Option.some.inj hg
      have href := h.single hf
      exact href
    · rw [set_frame_frame, Function.update_of_ne hgf] at hg
      exact h.single hg

/-- **A page fault** moves pages, and no page loses what it holds. -/
theorem Solo.faulted {write : Bool} (h : s.Solo t) (ht : t < s.next_proc)
    (hround : pg_round_down va = va)
    (hread : write = false → ∀ f, ¬ s.Resident t va f) (hf : Faulted s t va write done s') :
    s'.Solo t ∧ KeepsBytes s s' := by
  cases hf with
  | refused _ => exact ⟨h, fun _ _ _ hb => hb⟩
  | grown hnone _ hclaim =>
      obtain ⟨h₁, hkeep⟩ := h.register ht (stack_page va) hnone hround rfl nofun
      have hp : (s.register t (stack_page va)).page_at t va = some s.next_page := by
        rw [page_at_register, if_pos ⟨rfl, rfl⟩]
      obtain ⟨h₂, hkeep₂⟩ := h₁.claim hp (Function.update_self _ _ _) rfl hclaim
      exact ⟨h₂, hkeep.trans hkeep₂⟩
  | @write_protected p pg s' hp hpg _ hwp =>
      obtain rfl := h.coherent.registered.va (registered_eq_some.mpr ⟨p, hp, hpg⟩)
      cases hwp with
      | copy _ _ hcf href _ _ _ _ => exact absurd href (not_lt.mpr (h.single hcf))
      | own hpg' hpf hcf _ =>
          obtain rfl := Option.some.inj (hpg.symm.trans hpg')
          exact h.make_writable hp hpg hpf hcf
  | @claimed p pg done s' hp hpg hres _ hclaim =>
      have hnone : pg.frame = none := by
        cases write with
        | true => exact hres rfl
        | false =>
            by_contra hsome
            obtain ⟨f, hpf⟩ := Option.ne_none_iff_exists'.mp hsome
            exact hread rfl f ⟨pg, registered_eq_some.mpr ⟨p, hp, hpg⟩, hpf⟩
      exact h.claim hp hpg hnone hclaim

/-- Bits of entries and the contents of frames do not matter to the tables. -/
theorem Solo.same (h : s.Solo t) (hsame : SameTables s s') (hswap : s'.swap_table = s.swap_table)
    (htable : s'.frame_table = s.frame_table) : s'.Solo t := by
  refine ⟨hsame.coherent h.coherent hswap, h.listed.same hsame htable, fun {t' va' q} hq => ?_,
    fun {g gr} hg => ?_⟩
  · rw [hsame.page_at] at hq
    exact h.mine hq
  · rw [hsame.frame] at hg
    exact h.single hg

/-! ## Loads and stores -/

section Access

variable {addr rsp : ℕ} {write : Bool}

/-- **An access that goes through**: the entry it goes through maps the frame of the page. -/
theorem Solo.accessed {e : pte} (h : s.Solo t) (ht : t < s.next_proc)
    (hacc : Accessed s t addr rsp write (some e) s') :
    s'.Solo t ∧ KeepsBytes s s' ∧ s'.Maps t (pg_round_down addr) e.kva := by
  obtain ⟨hpte, hpresent, -⟩ := accessed_pte_at hacc
  have hmaps : s'.Maps t (pg_round_down addr) e.kva := ⟨e, hpte, hpresent, rfl⟩
  cases hacc with
  | direct _ => exact ⟨h, fun _ _ _ hb => hb, hmaps⟩
  | handled hno hf _ =>
      have hrsp := SameMap.set_rsp s t rsp
      have h₀ := h.same hrsp.sameTables rfl rfl
      have hread : write = false → ∀ f, ¬ (s.set_rsp t rsp).Resident t (pg_round_down addr) f := by
        rintro rfl f hr
        obtain ⟨fr, -, hmap⟩ := h₀.coherent.mapped.resident hr
        exact not_maps_of_read hno fr.kva ((hrsp.maps _ _ _).mp hmap)
      obtain ⟨h₁, hkeep₁⟩ := h₀.faulted ht (pg_round_down_idem addr) hread hf
      exact ⟨h₁, hrsp.keepsBytes.trans hkeep₁, hmaps⟩

/-- What a page holds is in the frame that its entry maps. -/
theorem Holds.of_maps {b : Bytes} {k : ℕ} (hb : s.Holds t va b) (hc : s.Coherent)
    (hmap : s.Maps t va k) : SameBytes (s.mem k) b := by
  obtain ⟨f, fr, ⟨pg, hreg, hpf⟩, hf, hkva⟩ := hc.mapped.maps hmap
  cases hb with
  | @resident pg' f' fr' hr _ hpf' hf' hbytes =>
      obtain rfl := Option.some.inj (hreg.symm.trans hr)
      obtain rfl := Option.some.inj (hpf.symm.trans hpf')
      obtain rfl := Option.some.inj (hf.symm.trans hf')
      exact hkva ▸ hbytes
  | @swapped pg' i hr _ hnone _ =>
      obtain rfl := Option.some.inj (hreg.symm.trans hr)
      rw [hpf] at hnone
      cases hnone

/-- **A load** gives what the page holds there. -/
theorem Solo.load {v : UInt8} {b : Bytes} (h : s.Solo t) (ht : t < s.next_proc)
    (hb : s.Holds t (pg_round_down addr) b) (hrun : user_read s t addr rsp = .ok (some v, s')) :
    v = b (pg_ofs addr) := by
  rcases user_read_cases hrun with ⟨hnone, -⟩ | ⟨e, s₁, hacc, hv, -⟩
  · cases hnone
  · obtain ⟨h₁, hkeep, hmap⟩ := h.accessed ht hacc
    rw [Option.some.inj hv]
    exact (hkeep _ _ b hb).of_maps h₁.coherent hmap _ (pg_ofs_lt addr)

/-- **A store** changes what its page holds at one place, and no other page. -/
theorem Solo.store {v : UInt8} (h : s.Solo t) (ht : t < s.next_proc)
    (hrun : user_write s t addr rsp v = .ok (true, s')) :
    s'.Solo t
      ∧ (∀ {t' va' b}, s.Holds t' va' b → s'.Holds t' va'
        (if t' = t ∧ va' = pg_round_down addr then Function.update b (pg_ofs addr) v else b))
      ∧ ∀ {pg}, s'.registered t (pg_round_down addr) = some pg → IsAnon pg.kind →
        ∃ b, s'.Holds t (pg_round_down addr) b ∧ b (pg_ofs addr) = v := by
  rcases user_write_cases hrun with ⟨hfalse, -⟩ | ⟨e, s₁, -, hacc, rfl⟩
  · cases hfalse
  obtain ⟨h₁, hkeep, hmap⟩ := h.accessed ht hacc
  have hsame : SameTables s₁
      ((s₁.set_mem e.kva (Function.update (s₁.mem e.kva) (pg_ofs addr) v)).set_pte t
        (pg_round_down addr) { e with accessed := true, dirty := true }) :=
    (SameTables.set_mem s₁ e.kva _).trans (.set_pte _ (accessed_pte_at hacc).1 rfl rfl)
  have hmem : ((s₁.set_mem e.kva (Function.update (s₁.mem e.kva) (pg_ofs addr) v)).set_pte t
      (pg_round_down addr) { e with accessed := true, dirty := true }).mem
        = Function.update s₁.mem e.kva (Function.update (s₁.mem e.kva) (pg_ofs addr) v) := rfl
  obtain ⟨f, fr, hres, hf, hkva⟩ := h₁.coherent.mapped.maps hmap
  refine ⟨h₁.same hsame rfl rfl, fun {t' va' b} hb => ?_, fun {pg} hreg hk => ?_⟩
  · have hb := hkeep t' va' b hb
    split
    · -- the page of the store: its frame is the one that the entry maps
      rename_i heq
      obtain ⟨rfl, rfl⟩ := heq
      have hbytes := hb.of_maps h₁.coherent hmap
      obtain ⟨pg, hreg, hpf⟩ := hres
      have hk : IsAnon pg.kind := by
        cases hb with
        | resident hr hk _ _ _ => exact Option.some.inj (hreg.symm.trans hr) ▸ hk
        | swapped hr hk _ _ => exact ⟨_, Option.some.inj (hreg.symm.trans hr) ▸ hk⟩
      refine .resident ((hsame.registered _ _).trans hreg) hk hpf (hsame.frame ▸ hf) fun k hlt => ?_
      rw [hmem, hkva, Function.update_self]
      by_cases hofs : k = pg_ofs addr
      · rw [hofs, Function.update_self, Function.update_self]
      · rw [Function.update_of_ne hofs, Function.update_of_ne hofs]
        exact hbytes k hlt
    · rename_i hne
      refine hb.mono (hsame.registered t' va') (fun {g gr} hr hg => ⟨gr, hsame.frame ▸ hg, rfl, ?_⟩)
        (fun {i} _ k _ => rfl)
      have hgf : gr.kva ≠ e.kva := by
        intro heq
        obtain rfl := h₁.coherent.mapped.kva_inj hf hg (heq.trans hkva.symm)
        exact hne (h₁.alone hres hr)
      rw [hmem]
      exact Function.update_of_ne hgf _ _
  · obtain ⟨pg', hreg', hpf⟩ := hres
    obtain rfl := Option.some.inj (hreg'.symm.trans ((hsame.registered _ _).symm.trans hreg))
    refine ⟨_, .resident hreg hk hpf (hsame.frame ▸ hf) fun _ _ => rfl, ?_⟩
    rw [hmem, hkva, Function.update_self, Function.update_self]

end Access

/-- **`mmap`** touches no page that is there. -/
theorem Solo.sys_mmap {addr length file : ℕ} {writable : Bool} {offset : ℤ} (h : s.Solo t)
    (ht : t < s.next_proc) (hrun : Pintos.sys_mmap s t addr length writable file offset = .ok s') :
    s'.Solo t ∧ KeepsBytes s s' := by
  rcases sys_mmap_cases hrun with rfl | ⟨hround, hrun⟩
  · exact ⟨h, fun _ _ _ hb => hb⟩
  · obtain ⟨reopen_file, fs, fuel, n, -, hloop⟩ := do_mmap_eq_ok hrun
    have hfiles : SameTables s (s.set_files fs) := .set_files s fs
    have h₀ : (s.set_files fs).Solo t ∧ t < (s.set_files fs).next_proc
        ∧ KeepsBytes s (s.set_files fs) :=
      ⟨h.same hfiles rfl rfl, ht, hfiles.keepsBytes rfl rfl⟩
    have hstep : ∀ {s₁ s₂ : vm} {done : Bool} {upage : ℕ} {i : lazy_load_info} {c : ℤ},
        s₁.Solo t ∧ t < s₁.next_proc ∧ KeepsBytes s s₁ → pg_round_down upage = upage →
        i.file = reopen_file → vm_alloc_page_with_initializer s₁ t .VM_MMAP upage writable
          (some .lazy_load_segment) (.mmap i c) = (done, s₂) →
        s₂.Solo t ∧ t < s₂.next_proc ∧ KeepsBytes s s₂ := by
      rintro s₁ s₂ done upage i c ⟨h₁, ht₁, hkeep₁⟩ hround _ hnext
      rcases vm_alloc_page_cases hnext with ⟨-, rfl⟩ | ⟨-, hnone, pi, -, rfl⟩
      · exact ⟨h₁, ht₁, hkeep₁⟩
      · obtain ⟨h₂, hkeep₂⟩ := h₁.register ht₁ (lazy_page upage writable _) hnone hround rfl nofun
        exact ⟨h₂, ht₁, hkeep₁.trans hkeep₂⟩
    obtain ⟨h₁, -, hkeep⟩ := mmap_loop_rule hstep fuel h₀ hround hloop
    exact ⟨h₁, hkeep⟩

/-! ## Runs -/

/-- The process loads, stores or maps a file. -/
def AccessesOf (t : ℕ) : vm_event → Prop
  | .read t' _ _ => t' = t
  | .write t' _ _ _ => t' = t
  | .mmap t' _ _ _ _ _ => t' = t
  | _ => False

/-- The event stores at the address. -/
def StoresAt (addr : ℕ) : vm_event → Prop
  | .write _ addr' _ _ => addr' = addr
  | _ => False

/-- The byte at the address is `v`, be the page in memory or in the swap area. -/
def HasByte (s : vm) (t addr : ℕ) (v : UInt8) : Prop :=
  ∃ b, s.Holds t (pg_round_down addr) b ∧ b (pg_ofs addr) = v

theorem KeepsBytes.hasByte (h : KeepsBytes s s') {addr : ℕ} {v : UInt8} (hv : s.HasByte t addr v) :
    s'.HasByte t addr v := by
  obtain ⟨b, hb, hval⟩ := hv
  exact ⟨b, h _ _ b hb, hval⟩

theorem AccessesOf.proc {e : vm_event} (he : AccessesOf t e) : e.proc = t := by
  cases e <;> first | exact he | exact he.elim

/-- A process that was killed does nothing more. -/
theorem Solo.killed {addr rsp : ℕ} {write : Bool} (h : s.Solo t) (ht : t < s.next_proc)
    (hacc : Accessed s t addr rsp write none s') : (s'.proc t).alive = false := by
  cases hacc with
  | @killed s₁ s' hno hf hexit =>
      have hrsp := SameMap.set_rsp s t rsp
      have h₀ := h.same hrsp.sameTables rfl rfl
      have hread : write = false → ∀ f, ¬ (s.set_rsp t rsp).Resident t (pg_round_down addr) f := by
        rintro rfl f hr
        obtain ⟨fr, -, hmap⟩ := h₀.coherent.mapped.resident hr
        exact not_maps_of_read hno fr.kva ((hrsp.maps _ _ _).mp hmap)
      obtain ⟨h₁, -⟩ := h₀.faulted ht (pg_round_down_idem addr) hread hf
      obtain ⟨-, -, -, -, halive⟩ := process_cleanup_coherent h₁.coherent hexit
      rw [halive, if_pos rfl]

/-- **One event** that the process survives. -/
theorem Solo.step {e : vm_event} (h : s.Solo t) (he : AccessesOf t e) (hstep : vm_step s e = .ok s')
    (halive : (s'.proc t).alive = true) :
    s'.Solo t ∧ ∀ {addr : ℕ} {v : UInt8}, ¬ StoresAt addr e → s.HasByte t addr v
      → s'.HasByte t addr v := by
  have hbefore : (s.proc t).alive = true := he.proc ▸ (vm_step_cases hstep).1
  have ht : t < s.next_proc := h.coherent.registered.alive hbefore
  unfold vm_step at hstep
  rw [he.proc, if_pos hbefore] at hstep
  cases e with
  | read t' addr rsp =>
      obtain rfl : t' = t := he
      obtain ⟨⟨b, s₁⟩, hrun, hstep⟩ := Outcome.bind_eq_ok.mp hstep
      obtain rfl := Outcome.ok.inj hstep
      rcases user_read_cases hrun with ⟨-, hacc⟩ | ⟨e, s₂, hacc, -, rfl⟩
      · rw [h.killed ht hacc] at halive
        cases halive
      · obtain ⟨h₂, hkeep, -⟩ := h.accessed ht hacc
        have hsame : SameMap s₂ (s₂.set_pte t' (pg_round_down addr) { e with accessed := true }) :=
          .set_pte s₂ (accessed_pte_at hacc).1 rfl
        exact ⟨h₂.same hsame.sameTables rfl rfl,
          fun {addr' v} _ hv => (hkeep.trans hsame.keepsBytes).hasByte hv⟩
  | write t' addr rsp b =>
      obtain rfl : t' = t := he
      obtain ⟨⟨done, s₁⟩, hrun, hstep⟩ := Outcome.bind_eq_ok.mp hstep
      obtain rfl := Outcome.ok.inj hstep
      cases done with
      | false =>
          rcases user_write_cases hrun with ⟨-, hacc⟩ | ⟨_, _, htrue, -, -⟩
          · rw [h.killed ht hacc] at halive
            cases halive
          · cases htrue
      | true =>
          obtain ⟨h₁, hholds, -⟩ := h.store ht hrun
          refine ⟨h₁, fun {addr' v} hne hv => ?_⟩
          obtain ⟨B, hB, hval⟩ := hv
          refine ⟨_, hholds hB, ?_⟩
          split
          · rename_i heq
            -- another byte of the same page
            have hofs : pg_ofs addr' ≠ pg_ofs addr := by
              intro hofs
              apply hne
              show addr = addr'
              rw [← pg_round_down_add_pg_ofs addr, ← pg_round_down_add_pg_ofs addr', heq.2, hofs]
            rw [Function.update_of_ne hofs, hval]
          · exact hval
  | mmap t' addr length writable file offset =>
      obtain rfl : t' = t := he
      obtain ⟨h₁, hkeep⟩ := h.sys_mmap ht hstep
      exact ⟨h₁, fun {addr' v} _ hv => hkeep.hasByte hv⟩
  | munmap t' addr => exact he.elim
  | fork t' => exact he.elim
  | exit t' => exact he.elim

/-- **A run** that the process survives. -/
theorem Solo.run (es : List vm_event) : ∀ {s s' : vm}, s.Solo t → (∀ e ∈ es, AccessesOf t e) →
    vm_run es s = .ok s' → (s'.proc t).alive = true →
    s'.Solo t ∧ ∀ {addr : ℕ} {v : UInt8}, (∀ e ∈ es, ¬ StoresAt addr e) →
      s.HasByte t addr v → s'.HasByte t addr v := by
  induction es with
  | nil =>
      intro s s' h _ hrun _
      obtain rfl := Outcome.ok.inj hrun
      exact ⟨h, fun _ hv => hv⟩
  | cons e es ih =>
      intro s s' h hes hrun halive
      rw [vm_run] at hrun
      obtain ⟨s₁, hstep, hrun⟩ := Outcome.bind_eq_ok.mp hrun
      -- the next event, or the end of the run, finds the process alive
      have halive₁ : (s₁.proc t).alive = true := by
        cases es with
        | nil =>
            obtain rfl := Outcome.ok.inj hrun
            exact halive
        | cons e' es =>
            rw [vm_run] at hrun
            obtain ⟨s₂, hnext, -⟩ := Outcome.bind_eq_ok.mp hrun
            exact (hes e' (by simp)).proc ▸ (vm_step_cases hnext).1
      obtain ⟨h₁, hkeep₁⟩ := h.step (hes e (by simp)) hstep halive₁
      obtain ⟨h₂, hkeep₂⟩ := ih h₁ (fun e he => hes e (by simp [he])) hrun halive
      exact ⟨h₂, fun {addr v} hno hv =>
        hkeep₂ (fun e he => hno e (by simp [he])) (hkeep₁ (hno e (by simp)) hv)⟩

/-- **A load gives what was stored last**, whatever the process did in between: where a store went
into an anonymous page, every later load finds the byte until the process stores there again. -/
theorem load_gives_last_store {es es' : List vm_event} {s₁ s₂ s₃ s₄ : vm} {addr rsp rsp' start : ℕ}
    {v w : UInt8} (_hlow : s.LowPool start) (h : s.Solo t) (hes : ∀ e ∈ es, AccessesOf t e)
    (hrun : vm_run es s = .ok s₁)
    (halive₁ : (s₁.proc t).alive = true) (hstore : user_write s₁ t addr rsp v = .ok (true, s₂))
    (hreg : s₂.registered t (pg_round_down addr) = some pg) (hanon : IsAnon pg.kind)
    (hes' : ∀ e ∈ es', AccessesOf t e ∧ ¬ StoresAt addr e) (hrun' : vm_run es' s₂ = .ok s₃)
    (halive₃ : (s₃.proc t).alive = true) (hload : user_read s₃ t addr rsp' = .ok (some w, s₄)) :
    w = v := by
  obtain ⟨h₁, -⟩ := h.run es hes hrun halive₁
  obtain ⟨h₂, -, hstored⟩ := h₁.store (h₁.coherent.registered.alive halive₁) hstore
  have hbyte : s₂.HasByte t addr v := hstored hreg hanon
  obtain ⟨h₃, hkeep⟩ := h₂.run es' (fun e he => (hes' e he).1) hrun' halive₃
  obtain ⟨b, hb, hval⟩ := hkeep (fun e he => (hes' e he).2) hbyte
  rw [← hval]
  exact h₃.load (h₃.coherent.registered.alive halive₃) hb hload

/-- `one_page_pool` with a swap area of two slots. -/
def two_slot_pool : vm :=
  { one_page_pool with swap_disk := { capacity := 16, sectors := fun _ => zeros, written := [] } }

theorem two_slot_pool_solo : two_slot_pool.Solo 0 where
  coherent := .of_no_page (fun _ _ => rfl) (fun _ => rfl) (fun _ h => of_decide_eq_true h)
    (fun _ => rfl) (fun _ _ => rfl)
  listed := .of_no_page (fun _ _ => rfl) (fun _ => rfl) (fun _ h => of_decide_eq_true h)
    (fun _ => rfl) (fun _ _ => rfl) rfl
  mine := nofun
  single := nofun

/-- With one page of memory, a byte goes to the swap area and comes back. -/
theorem byte_comes_back : ∃ s₂ s₃ s₄ w, user_write two_slot_pool 0 (USER_STACK - 8) USER_STACK 1
    = .ok (true, s₂)
    ∧ vm_run [.write 0 (USER_STACK - PGSIZE - 8) (USER_STACK - PGSIZE) 2] s₂ = .ok s₃
    ∧ user_read s₃ 0 (USER_STACK - 8) (USER_STACK - PGSIZE) = .ok (some w, s₄) ∧ w = 1 := by
  obtain ⟨s₂, s₃, s₄, w, pg, hstore, hrun, hload, hreg, hanon, halive⟩ : ∃ s₂ s₃ s₄ w pg,
      user_write two_slot_pool 0 (USER_STACK - 8) USER_STACK 1 = .ok (true, s₂)
        ∧ vm_run [.write 0 (USER_STACK - PGSIZE - 8) (USER_STACK - PGSIZE) 2] s₂ = .ok s₃
        ∧ user_read s₃ 0 (USER_STACK - 8) (USER_STACK - PGSIZE) = .ok (some w, s₄)
        ∧ s₂.registered 0 (pg_round_down (USER_STACK - 8)) = some pg ∧ IsAnon pg.kind
        ∧ (s₃.proc 0).alive = true := ⟨_, _, _, _, _, rfl, rfl, rfl, rfl, ⟨-1, rfl⟩, rfl⟩
  refine ⟨s₂, s₃, s₄, w, hstore, hrun, hload, ?_⟩
  have hnil : ∀ e ∈ ([] : List vm_event), AccessesOf 0 e := by simp
  have hlow : two_slot_pool.LowPool 0x400000 := by
    unfold LowPool
    decide
  refine load_gives_last_store hlow two_slot_pool_solo hnil rfl rfl hstore hreg hanon
    (fun e he => ?_) hrun halive hload
  obtain rfl := List.mem_singleton.mp he
  exact ⟨rfl, by show USER_STACK - PGSIZE - 8 ≠ USER_STACK - 8; decide⟩

end vm

end Pintos
