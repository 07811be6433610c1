/-
Loads and stores by user code keep the memory map coherent, under the condition
on evictions that page faults have.
-/
import Pintos.Vm.Destroy

set_option autoImplicit false

namespace Pintos

namespace vm

variable {s s' : vm} {t va p : ℕ} {pg : Pintos.page}

/-! ## Accesses -/

section Access

variable {addr rsp : ℕ} {write : Bool}

/-- If the access faults and the handler has to evict, it evicts a page of `t`. -/
def AccessOk (s : vm) (t addr rsp : ℕ) (write : Bool) : Prop :=
  pte_allows s t addr write = none →
    ∀ s₀, frame_demand (s.set_rsp t rsp) t (pg_round_down addr) write = some s₀ → s₀.EvictsOwn t

theorem pte_allows_eq_some {e : pte} (h : pte_allows s t addr write = some e) :
    s.pte_at t (pg_round_down addr) = some e ∧ e.present = true
      ∧ (write = true → e.writable = true) := by
  unfold pte_allows at h
  cases he : s.pte_at t (pg_round_down addr) with
  | none =>
      rw [he] at h
      cases h
  | some e' =>
      rw [he] at h
      dsimp only at h
      by_cases hb : (e'.present && (!write || e'.writable)) = true
      · rw [if_pos hb] at h
        obtain rfl := Option.some.inj h
        rw [Bool.and_eq_true] at hb
        refine ⟨rfl, hb.1, fun hw => ?_⟩
        simpa [hw] using hb.2
      · rw [if_neg hb] at h
        cases h

/-- A read faults only where nothing is present. -/
theorem not_maps_of_read (h : pte_allows s t addr false = none) (k : ℕ) :
    ¬ s.Maps t (pg_round_down addr) k := by
  rintro ⟨e, he, hpres, -⟩
  unfold pte_allows at h
  rw [he] at h
  simp [hpres] at h

/-- **An access** that does not evict a page of somebody else. -/
theorem accessed_coherent {e : Option pte} (hc : s.Coherent) (hok : AccessOk s t addr rsp write)
    (h : Accessed s t addr rsp write e s') :
    s'.Coherent ∧ (pte_allows s t addr write = none →
      NoStale (s.set_rsp t rsp) t (pg_round_down addr) write s') := by
  have hc₀ := (SameMap.set_rsp s t rsp).coherent hc
  have hread : pte_allows s t addr write = none → write = false →
      ∀ f, ¬ (s.set_rsp t rsp).Resident t (pg_round_down addr) f := by
    rintro hno rfl f hr
    obtain ⟨fr, -, hmap⟩ := hc₀.mapped.resident hr
    exact not_maps_of_read hno fr.kva (((SameMap.set_rsp s t rsp).maps _ _ _).mp hmap)
  have hfaulted : ∀ {done : Bool} {s₁ : vm}, pte_allows s t addr write = none →
      Faulted (s.set_rsp t rsp) t (pg_round_down addr) write done s₁ →
      s₁.Coherent ∧ NoStale (s.set_rsp t rsp) t (pg_round_down addr) write s₁ :=
    fun hno hf => Faulted.coherent hc₀ (pg_round_down_idem addr) (hread hno) (hok hno) hf
  cases h with
  | direct hdir =>
      refine ⟨hc, fun hno => ?_⟩
      rw [hdir] at hno
      cases hno
  | handled hno hf _ => exact ⟨(hfaulted hno hf).1, fun _ => (hfaulted hno hf).2⟩
  | killed hno hf hexit =>
      obtain ⟨hc₁, hst⟩ := hfaulted hno hf
      obtain ⟨hc', hmaps, -⟩ := process_cleanup_coherent hc₁ hexit
      refine ⟨hc', fun _ => ?_⟩
      intro s₀ v s₁ fr hdem hpal hv hfr t' va' hmap
      exact hst s₀ v s₁ fr hdem hpal hv hfr t' va' (hmaps t' va' _ hmap)

/-- An access that goes through leaves the entry it went through. -/
theorem accessed_pte_at {e : pte} (h : Accessed s t addr rsp write (some e) s') :
    s'.pte_at t (pg_round_down addr) = some e ∧ e.present = true
      ∧ (write = true → e.writable = true) := by
  cases h with
  | direct hdir => exact pte_allows_eq_some hdir
  | handled _ _ hdir => exact pte_allows_eq_some hdir

theorem SameTables.noStale {s₀ : vm} {va : ℕ} (h : SameTables s s')
    (hst : NoStale s₀ t va write s) : NoStale s₀ t va write s' := by
  intro s₁ v s₂ fr hdem hpal hv hfr t' va' hmap
  exact hst s₁ v s₂ fr hdem hpal hv hfr t' va' ((h.maps t' va' _).mp hmap)

theorem user_read_cases {b : Option UInt8} (h : user_read s t addr rsp = .ok (b, s')) :
    (b = none ∧ Accessed s t addr rsp false none s')
      ∨ ∃ e s₁, Accessed s t addr rsp false (some e) s₁
        ∧ b = some (s₁.mem e.kva (pg_ofs addr))
        ∧ s' = s₁.set_pte t (pg_round_down addr) { e with accessed := true } := by
  unfold user_read at h
  obtain ⟨⟨e, s₁⟩, hacc, h⟩ := Outcome.bind_eq_ok.mp h
  cases e with
  | none =>
      obtain ⟨rfl, rfl⟩ := Outcome.ok_pair h
      exact .inl ⟨rfl, user_access_cases hacc⟩
  | some e =>
      obtain ⟨rfl, rfl⟩ := Outcome.ok_pair h
      exact .inr ⟨e, s₁, user_access_cases hacc, rfl, rfl⟩

theorem user_write_cases {b : UInt8} {done : Bool}
    (h : user_write s t addr rsp b = .ok (done, s')) :
    (done = false ∧ Accessed s t addr rsp true none s')
      ∨ ∃ e s₁, done = true ∧ Accessed s t addr rsp true (some e) s₁
        ∧ s' = (s₁.set_mem e.kva (Function.update (s₁.mem e.kva) (pg_ofs addr) b)).set_pte t
          (pg_round_down addr) { e with accessed := true, dirty := true } := by
  unfold user_write at h
  obtain ⟨⟨e, s₁⟩, hacc, h⟩ := Outcome.bind_eq_ok.mp h
  cases e with
  | none =>
      obtain ⟨rfl, rfl⟩ := Outcome.ok_pair h
      exact .inl ⟨rfl, user_access_cases hacc⟩
  | some e =>
      obtain ⟨rfl, rfl⟩ := Outcome.ok_pair h
      exact .inr ⟨e, s₁, rfl, user_access_cases hacc, rfl⟩

theorem user_read_coherent {b : Option UInt8} (hc : s.Coherent)
    (hok : AccessOk s t addr rsp false) (h : user_read s t addr rsp = .ok (b, s')) :
    s'.Coherent ∧ (pte_allows s t addr false = none →
      NoStale (s.set_rsp t rsp) t (pg_round_down addr) false s') := by
  rcases user_read_cases h with ⟨-, hacc⟩ | ⟨e, s₁, hacc, -, rfl⟩
  · exact accessed_coherent hc hok hacc
  · obtain ⟨hc₁, hst⟩ := accessed_coherent hc hok hacc
    have hsame : SameMap s₁ (s₁.set_pte t (pg_round_down addr) { e with accessed := true }) :=
      .set_pte s₁ (accessed_pte_at hacc).1 rfl
    exact ⟨hsame.coherent hc₁, fun hno => hsame.sameTables.noStale (hst hno)⟩

theorem user_write_coherent {b : UInt8} {done : Bool} (hc : s.Coherent)
    (hok : AccessOk s t addr rsp true) (h : user_write s t addr rsp b = .ok (done, s')) :
    s'.Coherent ∧ (pte_allows s t addr true = none →
      NoStale (s.set_rsp t rsp) t (pg_round_down addr) true s') := by
  rcases user_write_cases h with ⟨-, hacc⟩ | ⟨e, s₁, -, hacc, rfl⟩
  · exact accessed_coherent hc hok hacc
  · obtain ⟨hc₁, hst⟩ := accessed_coherent hc hok hacc
    have hsame : SameTables s₁
        ((s₁.set_mem e.kva (Function.update (s₁.mem e.kva) (pg_ofs addr) b)).set_pte t
          (pg_round_down addr) { e with accessed := true, dirty := true }) :=
      (SameTables.set_mem s₁ e.kva _).trans (.set_pte _ (accessed_pte_at hacc).1 rfl rfl)
    exact ⟨hsame.coherent hc₁ rfl, fun hno => hsame.noStale (hst hno)⟩

end Access

end vm

end Pintos
