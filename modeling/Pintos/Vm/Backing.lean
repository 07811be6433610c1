/-
Which file a page belongs to.

A page of a mapping carries the file that `do_mmap` opened for it and its number in the mapping,
first in its `aux` and later, when it has been loaded, as a `struct file_page`. Nothing that
happens to memory changes either, and a new mapping has a file of its own.
-/
import Pintos.Vm.Permissions

set_option autoImplicit false

namespace Pintos

/-- The file of a mapping, and the number of the page in it. -/
def page_kind.backing : page_kind → Option (ℕ × ℤ)
  | .uninit u => match u.page_initializer, u.aux with
      | .file_backed_initializer, .mmap i mapping_count => some (i.file, mapping_count)
      | _, _ => none
  | .anon _ => none
  | .file fp => some (fp.file, fp.mapping_count)

/-- An untouched page as `vm_alloc_page_with_initializer` makes them: only pages of `VM_ANON` come
without an initializer of their own. -/
def page_kind.WellMade : page_kind → Prop
  | .uninit u => initializer_of u.type = some u.page_initializer
      ∧ (u.type ≠ .VM_ANON → u.init = some .lazy_load_segment)
  | _ => True

/-- What a page may turn into. -/
structure page_kind.Ages (kd kd' : page_kind) : Prop where
  backing : kd'.backing = kd.backing
  wellMade : kd.WellMade → kd'.WellMade

theorem page_kind.Ages.refl (kd : page_kind) : kd.Ages kd := ⟨rfl, fun h => h⟩

theorem page_kind.Ages.trans {kd kd' kd'' : page_kind} (h : kd.Ages kd') (h' : kd'.Ages kd'') :
    kd.Ages kd'' :=
  ⟨h'.backing.trans h.backing, fun hw => h'.wellMade (h.wellMade hw)⟩

/-! ## File handles -/

section Files

variable {s s' : filesys} {f : ℕ}

theorem file_write_at_next_file {buffer : Bytes} {size file_ofs n : ℤ}
    (h : file_write_at s f buffer size file_ofs = .ok (n, s')) : s'.next_file = s.next_file := by
  unfold file_write_at at h
  obtain ⟨fl, -, h⟩ := Outcome.bind_eq_ok.mp h
  obtain ⟨ino, -, h⟩ := Outcome.bind_eq_ok.mp h
  obtain ⟨⟨written, d, fs, ino'⟩, -, h⟩ := Outcome.bind_eq_ok.mp h
  obtain rfl := (Outcome.ok_pair h).2
  rfl

end Files

/-! ## The pages on the heap -/

namespace vm

variable {s s' s'' : vm} {t va p f : ℕ} {pg : Pintos.page} {fr : Pintos.frame} {done : Bool}

/-- A page that is new between two states, and its file with it. -/
def NewKind (s s' : vm) (kd : page_kind) : Prop :=
  kd.WellMade ∧ ∀ f c, kd.backing = some (f, c) → s.files.next_file ≤ f ∧ f < s'.files.next_file

/-- Pages go on as what they were; those that were not there are new. -/
structure Backs (s s' : vm) : Prop where
  page : ∀ {q pg'}, s'.page q = some pg' →
    (∃ pg, s.page q = some pg ∧ pg.kind.Ages pg'.kind) ∨ (s.next_page ≤ q ∧ NewKind s s' pg'.kind)
  next_page : s.next_page ≤ s'.next_page
  next_file : s.files.next_file ≤ s'.files.next_file

namespace Backs

theorem refl (s : vm) : Backs s s := ⟨fun h => .inl ⟨_, h, .refl _⟩, le_rfl, le_rfl⟩

theorem trans (h : Backs s s') (h' : Backs s' s'') : Backs s s'' := by
  refine ⟨fun {q pg''} hq => ?_, h.next_page.trans h'.next_page, h.next_file.trans h'.next_file⟩
  rcases h'.page hq with ⟨pg', hq', hages'⟩ | ⟨hge, hmade, hfile⟩
  · rcases h.page hq' with ⟨pg, hq₀, hages⟩ | ⟨hge, hmade, hfile⟩
    · exact .inl ⟨pg, hq₀, hages.trans hages'⟩
    · refine .inr ⟨hge, hages'.wellMade hmade, fun f c hback => ?_⟩
      obtain ⟨hlo, hhi⟩ := hfile f c (hages'.backing.symm.trans hback)
      exact ⟨hlo, lt_of_lt_of_le hhi h'.next_file⟩
  · refine .inr ⟨h.next_page.trans hge, hmade, fun f c hback => ?_⟩
    obtain ⟨hlo, hhi⟩ := hfile f c hback
    exact ⟨h.next_file.trans hlo, hhi⟩

/-- Everything but pages and files. -/
theorem of_rest (hpage : s'.page = s.page) (hpages : s'.next_page = s.next_page)
    (hfile : s.files.next_file ≤ s'.files.next_file) : Backs s s' := by
  refine ⟨fun {q pg'} hq => .inl ⟨pg', ?_, .refl _⟩, hpages.ge, hfile⟩
  rw [← hpage]
  exact hq

theorem of_sameMap (h : SameMap s s') : Backs s s' :=
  of_rest h.page h.next_page (by rw [h.files])

/-- A store into one page. -/
theorem of_page {pg' : Pintos.page} (hpg : s.page p = some pg)
    (hpage : s'.page = Function.update s.page p (some pg')) (hpages : s'.next_page = s.next_page)
    (hfile : s'.files.next_file = s.files.next_file) (hages : pg.kind.Ages pg'.kind) :
    Backs s s' := by
  refine ⟨fun {q pg''} hq => .inl ?_, hpages.ge, hfile.ge⟩
  rw [hpage] at hq
  by_cases heq : q = p
  · rw [heq, Function.update_self] at hq
    obtain rfl := Option.some.inj hq
    exact ⟨pg, heq ▸ hpg, hages⟩
  · rw [Function.update_of_ne heq] at hq
    exact ⟨pg'', hq, .refl _⟩

/-- A page is freed. -/
theorem of_free (hpage : s'.page = Function.update s.page p none)
    (hpages : s'.next_page = s.next_page)
    (hfile : s.files.next_file ≤ s'.files.next_file) : Backs s s' := by
  refine ⟨fun {q pg''} hq => .inl ⟨pg'', ?_, .refl _⟩, hpages.ge, hfile⟩
  rw [hpage] at hq
  by_cases heq : q = p
  · rw [heq, Function.update_self] at hq
    cases hq
  · rw [Function.update_of_ne heq] at hq
    exact hq

/-- A new page, whose file is new since `s`. -/
theorem register (h : Backs s s') (hpg : NewKind s s' pg.kind) : Backs s (s'.register t pg) := by
  refine ⟨fun {q pg''} hq => ?_, h.next_page.trans (Nat.le_succ _), h.next_file⟩
  by_cases heq : q = s'.next_page
  · have hself : (s'.register t pg).page s'.next_page = some pg := Function.update_self _ _ _
    rw [heq, hself] at hq
    obtain rfl := Option.some.inj hq
    exact .inr ⟨heq ▸ h.next_page, hpg⟩
  · have hother : (s'.register t pg).page q = s'.page q := Function.update_of_ne heq _ _
    rw [hother] at hq
    exact h.page hq

/-- Everything but pages, with the same files. -/
theorem of_same (hpage : s'.page = s.page) (hpages : s'.next_page = s.next_page)
    (hfiles : s'.files = s.files) : Backs s s' :=
  of_rest hpage hpages (by rw [hfiles])

end Backs

theorem SwappedOut.backs (hpg : s.page p = some pg) (h : SwappedOut s t p pg f fr s') :
    Backs s s' := by
  cases h with
  | anon hk _ _ => exact .of_page hpg rfl rfl rfl ⟨by rw [hk]; rfl, fun _ => trivial⟩
  | @file fp s₁ hk hw =>
      have hages : pg.kind.Ages (.file fp) := by
        rw [hk]
        exact .refl _
      cases hw with
      | clean _ => exact .of_page hpg rfl rfl rfl hages
      | dirty _ hw => exact .of_page hpg rfl rfl (file_write_at_next_file hw) hages

theorem vm_evict_frame_backs {v : ℕ} (h : vm_evict_frame s t = .ok (some v, s')) : Backs s s' := by
  obtain ⟨s₁, fr, p, pg, s₂, hvictim, -, -, -, hout, hmap⟩ := vm_evict_frame_cases h
  obtain ⟨pg', f, fr', hpg', -, -, hswapped⟩ := swap_out_cases hout
  have hscan : Backs s s₁ := .of_sameMap (vm_get_victim_sameMap hvictim)
  have hclear : Backs s₂ (pml4_cleared s₂ t pg.va) := .of_rest rfl rfl le_rfl
  exact hscan.trans ((SwappedOut.backs hpg' hswapped).trans (hclear.trans (.of_sameMap hmap)))

theorem vm_get_frame_backs (h : vm_get_frame s t = .ok (f, s')) : Backs s s' := by
  obtain ⟨k, s₁, hkva, -, hmap⟩ := vm_get_frame_cases h
  have hnew : Backs s₁ s' := by
    have hframe : Backs s₁ (s₁.new_frame { kva := k, ref_cnt := 1, page := none }) :=
      .of_rest rfl rfl le_rfl
    exact hframe.trans (.of_sameMap hmap)
  refine Backs.trans ?_ hnew
  rcases frame_kva_cases hkva with ⟨-, rfl⟩ | ⟨-, v, s₂, fr, hev, -, -, rfl⟩
  · exact .of_rest rfl rfl le_rfl
  · have hfree : Backs s₂ (s₂.free_frame v) := .of_rest rfl rfl le_rfl
    exact (vm_evict_frame_backs hev).trans hfree

/-! ## Faults -/

section SwapIn

variable {kva : ℕ}

end SwapIn

theorem WriteProtected.backs (h : WriteProtected s t p s') : Backs s s' := by
  cases h with
  | @copy pg₁ pg' cf f cfr cfr' fr s₁ hpg₁ hpf hcf href hget hfr hpg' hcf' =>
      exact (vm_get_frame_backs hget).trans (.of_page hpg' rfl rfl rfl (.refl _))
  | own _ _ _ _ => exact .of_rest rfl rfl le_rfl

/-- The tables gain new pages only. -/
structure Gains (s s' : vm) : Prop where
  page_at : ∀ {t va p}, s'.page_at t va = some p → s.page_at t va = some p ∨ s.next_page ≤ p
  next_page : s.next_page ≤ s'.next_page

namespace Gains

theorem refl (s : vm) : Gains s s := ⟨.inl, le_rfl⟩

theorem trans (h : Gains s s') (h' : Gains s' s'') : Gains s s'' := by
  refine ⟨fun hp => ?_, h.next_page.trans h'.next_page⟩
  rcases h'.page_at hp with hp' | hge
  · exact h.page_at hp'
  · exact .inr (h.next_page.trans hge)

/-- Nothing is gained. -/
theorem of_sub (hat : ∀ {t va p}, s'.page_at t va = some p → s.page_at t va = some p)
    (hpages : s'.next_page = s.next_page) : Gains s s' :=
  ⟨fun hp => .inl (hat hp), hpages.ge⟩

theorem of_kept (h : Kept s s') : Gains s s' :=
  of_sub (fun {t va _} hp => (h.page_at t va).symm.trans hp) h.next_page

theorem register (s : vm) (t : ℕ) (pg : Pintos.page) : Gains s (s.register t pg) := by
  refine ⟨fun {t' va' p} hp => ?_, Nat.le_succ _⟩
  rw [page_at_register] at hp
  split at hp
  · exact .inr (Option.some.inj hp).le
  · exact .inl hp

end Gains

end vm

end Pintos
