/-
`munmap`: which entries it takes out.

A mapping is not recorded anywhere. `do_munmap` finds its extent again from `page->file` of one
page after the other, and stops at the first that is not a page of the same file with the next
count. In a page that was never touched those members are other members of the union: the file is
its `type`, and the count the address of `lazy_load_segment`, which is never one more than itself.
-/
import Mathlib.Tactic.Ring
import Pintos.Vm.Backing
import Pintos.Vm.Mmap

set_option autoImplicit false

namespace Pintos

namespace vm

variable {s s' s'' : vm} {t addr f : ℕ} {M : ℕ → Prop}

/-! ## Whose page it is -/

/-- Pages are as the allocator makes them, and belong to files that were opened. -/
structure Filed (s : vm) : Prop where
  wellMade : ∀ {q pg}, s.page q = some pg → pg.kind.WellMade
  lt : ∀ {q pg f c}, s.page q = some pg → pg.kind.backing = some (f, c) → f < s.files.next_file

theorem Filed.backs (h : s.Filed) (hb : Backs s s') : s'.Filed := by
  refine ⟨fun hq => ?_, fun hq hback => ?_⟩
  · rcases hb.page hq with ⟨pg, hpg, hages⟩ | ⟨-, hmade, -⟩
    · exact hages.wellMade (h.wellMade hpg)
    · exact hmade
  · rcases hb.page hq with ⟨pg, hpg, hages⟩ | ⟨-, -, hfile⟩
    · exact (h.lt hpg (hages.backing.symm.trans hback)).trans_le hb.next_file
    · exact (hfile _ _ hback).2

/-- The pages at `M` are a mapping of the file `f` at `addr`, and no others are. -/
structure Mapping (s : vm) (t addr f : ℕ) (M : ℕ → Prop) : Prop where
  page : ∀ {va}, M va → ∃ i p pg, va = addr + i * PGSIZE ∧ s.page_at t va = some p
    ∧ s.page p = some pg ∧ pg.kind.backing = some (f, (i : ℤ)) ∧ (i : ℤ) + 1 < 2 ^ 31
  only : ∀ {va p pg c}, s.page_at t va = some p → s.page p = some pg →
    pg.kind.backing = some (f, c) → M va

/-- A page of a file that was loaded, be it evicted since. -/
def Loaded (s : vm) (t va : ℕ) : Prop :=
  ∃ p pg fp, s.page_at t va = some p ∧ s.page p = some pg ∧ pg.kind = .file fp

/-- Of the tables, exactly the entries of `t` at `G` are taken out. -/
structure Removes (s s' : vm) (t : ℕ) (G : ℕ → Prop) : Prop where
  gone : ∀ {va}, G va → s'.page_at t va = none
  kept : ∀ {t' va}, ¬ (t' = t ∧ G va) → s'.page_at t' va = s.page_at t' va

theorem Removes.nothing {G : ℕ → Prop} (hG : ∀ va, ¬ G va) : Removes s s t G :=
  ⟨fun {va} hva => absurd hva (hG va), fun _ => rfl⟩

/-- One entry, then others. -/
theorem Removes.cons {G : ℕ → Prop} {a : ℕ} (h₁ : Removes s s' t fun va => va = a)
    (h : Removes s' s'' t G) : Removes s s'' t fun va => va = a ∨ G va := by
  refine ⟨fun {va} hva => ?_, fun {t' va} hnot => ?_⟩
  · by_cases hin : G va
    · exact h.gone hin
    · rw [h.kept fun hboth => hin hboth.2]
      exact h₁.gone (hva.resolve_right hin)
  · rw [h.kept fun hboth => hnot ⟨hboth.1, .inr hboth.2⟩,
      h₁.kept fun hboth => hnot ⟨hboth.1, .inl hboth.2⟩]

theorem spt_remove_page_removes {p va : ℕ} (hr : s.Registered) (hp : s.page_at t va = some p)
    (hrun : spt_remove_page s t p = .ok s') :
    Removes s s' t (fun va' => va' = va) ∧ ∀ {va' q}, va' ≠ va → s.page_at t va' = some q →
      s'.page q = s.page q := by
  obtain ⟨hat, hpage⟩ := spt_remove_page_tables hr hp hrun
  refine ⟨⟨fun {va'} hva => ?_, fun {t' va'} hnot => ?_⟩, fun {va' q} hne hq => hpage q ?_⟩
  · rw [hat, if_pos ⟨rfl, hva⟩]
  · rw [hat, if_neg hnot]
  · rintro rfl
    exact hne (hr.inj hp hq).2

/-- The rest of a mapping without one of its pages. -/
theorem Mapping.remove {va : ℕ} (h : Mapping s t addr f M) (h₁ : Removes s s' t fun va' => va' = va)
    (hpage : ∀ {va' q}, va' ≠ va → s.page_at t va' = some q → s'.page q = s.page q) :
    Mapping s' t addr f fun va' => M va' ∧ va' ≠ va := by
  refine ⟨fun {va'} hva => ?_, fun {va' p pg c} hp hpg hback => ?_⟩
  · obtain ⟨i, p, pg, hi, hp, hpg, hrest⟩ := h.page hva.1
    exact ⟨i, p, pg, hi, (h₁.kept fun hboth => hva.2 hboth.2).trans hp,
      (hpage hva.2 hp).trans hpg, hrest⟩
  · have hne : va' ≠ va := by
      intro heq
      rw [h₁.gone heq] at hp
      cases hp
    have hp' := (h₁.kept fun hboth => hne hboth.2).symm.trans hp
    exact ⟨h.only hp' ((hpage hne hp').symm.trans hpg) hback, hne⟩

/-- From page `j` on, the pages up to the first that the search does not accept. -/
def Accepted (s : vm) (t addr j : ℕ) (M : ℕ → Prop) (va : ℕ) : Prop :=
  ∃ i, j ≤ i ∧ va = addr + i * PGSIZE
    ∧ ∀ m, j ≤ m → m ≤ i → M (addr + m * PGSIZE) ∧ Loaded s t (addr + m * PGSIZE)

/-- A table that lost an entry is shorter. -/
theorem Removes.length_lt {va : ℕ} (h : Removes s s' t fun va' => va' = va)
    (hsome : s.page_at t va ≠ none) :
    (s'.proc t).spt.entries.length < (s.proc t).spt.entries.length := by
  have hkeys : ∀ {s : vm} {a}, a ∈ (s.proc t).spt.keys ↔ s.page_at t a ≠ none := by
    intro s a
    show a ∈ (s.proc t).spt ↔ _
    rw [← AList.lookup_isSome, Option.isSome_iff_ne_none]
    rfl
  have hsub : va :: (s'.proc t).spt.keys ⊆ (s.proc t).spt.keys := by
    intro a ha
    rcases List.mem_cons.mp ha with rfl | ha
    · exact hkeys.mpr hsome
    · have ha' := hkeys.mp ha
      have hne : a ≠ va := fun heq => ha' (h.gone heq)
      rw [h.kept fun hboth => hne hboth.2] at ha'
      exact hkeys.mpr ha'
  have hnodup : (va :: (s'.proc t).spt.keys).Nodup :=
    List.nodup_cons.mpr ⟨fun hmem => hkeys.mp hmem (h.gone rfl), (s'.proc t).spt.nodupKeys⟩
  have hle := (List.subperm_of_subset hnodup hsub).length_le
  rw [List.length_cons] at hle
  unfold AList.keys List.keys at hle
  rw [List.length_map, List.length_map] at hle
  exact hle

/-- The bound on the turns is never what ends the loop: every turn takes an entry out. -/
theorem munmap_loop_enough (w : file_word) (fuel : ℕ) : ∀ {s : vm} {addr : ℕ} {n : ℤ}, s.Sane →
    (s.proc t).spt.entries.length < fuel →
    munmap_loop t w (fuel + 1) s addr n = munmap_loop t w fuel s addr n := by
  induction fuel with
  | zero =>
      intro s addr n _ hlt
      exact absurd hlt (Nat.not_lt_zero _)
  | succ fuel ih =>
      intro s addr n h hlt
      rw [munmap_loop, munmap_loop]
      cases hfound : is_my_mmap s t addr w n with
      | ok found =>
          rw [Outcome.ok_bind, Outcome.ok_bind]
          cases found with
          | none => rfl
          | some q =>
              have hq := is_my_mmap_some hfound
              dsimp only
              cases hs₁ : spt_remove_page s t q with
              | ok s₁ =>
                  rw [Outcome.ok_bind, Outcome.ok_bind]
                  have h₁ := (spt_remove_page_removes h.registered hq hs₁).1
                  have hshort := h₁.length_lt (by rw [hq]; exact Option.some_ne_none q)
                  exact ih (spt_remove_page_sane h hq hs₁) (by omega)
              | panic => rfl
              | undefined => rfl
              | diverge => rfl
      | panic => rfl
      | undefined => rfl
      | diverge => rfl

/-! ## `do_munmap` -/

end vm

end Pintos
