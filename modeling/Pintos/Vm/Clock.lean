/-
The clock of `vm_get_victim`, as the code runs it.

The hand is a raw pointer into `frame_table`, and the loop goes round from it until it is
back at its start. `Round.round` turns that into a walk down a list, which is what
`clock_scan` of `Vm.lean` is. The accessed bits are those of the page table in memory.

The function asserts that `victim` is not null before it has a value. What the stack holds
there is an argument of the model.
-/
import Mathlib.Data.List.TakeWhile
import Pintos.Lib.Round
import Pintos.Threads.PageMap
import Pintos.Vm.SwapSlots

set_option autoImplicit false

namespace Pintos.mmu

open Radix

/-! ## The accessed bits -/

/-- `pml4_is_accessed`. -/
def pml4_is_accessed (m : memory) (pml4 vpage : ℕ) : Outcome Bool := do
  let (pte, m) ← pml4e_walk m pml4 vpage false
  match pte with
  | some (table, idx) => return (m.word table idx).accessed
  | none => return false

/-- The accessed bit of an address. -/
def accessed (m : memory) (pml4 va : ℕ) : Bool :=
  (reach (child m) pml4 (path va)).elim false fun t => (m.word t (PTX va)).accessed

/-- The entry after `*pte &= ~(uint32_t) PTE_A`. -/
def entry.passed (e : entry) : entry := { e.low with accessed := false }

/-- The bits of the pages of `vas` are cleared, and nothing else is stored. -/
structure Cleared (m : memory) (pml4 : ℕ) (vas : List ℕ) (m' : memory) : Prop where
  tree : UserTree m' pml4
  kernel_pool : m'.kernel_pool = m.kernel_pool
  user_pool : m'.user_pool = m.user_pool
  base : m'.base_pml4 = m.base_pml4
  tables : ∀ va, is_user_vaddr va → reach (child m') pml4 (path va) = reach (child m) pml4 (path va)
  bits : ∀ va, is_user_vaddr va → accessed m' pml4 va
    = (accessed m pml4 va && decide (∀ v ∈ vas, pg_round_down v ≠ pg_round_down va))
  word : ∀ t i, m'.word t i = m.word t i
    ∨ m'.word t i = (m.word t i).passed ∧ ∃ va ∈ vas, is_user_vaddr va
      ∧ reach (child m) pml4 (path va) = some t ∧ i = PTX va

/-- The entry of an address keeps all its bits under a mask of 32 bits: its page is below 4 GB. -/
def Low (m : memory) (pml4 va : ℕ) : Prop :=
  ∀ t, reach (child m) pml4 (path va) = some t → (m.word t (PTX va)).low = m.word t (PTX va)

/-- The bits are cleared, and no other bit of an entry is. -/
def ClearedOnly (m : memory) (pml4 : ℕ) (vas : List ℕ) (m' : memory) : Prop :=
  Cleared m pml4 vas m'
    ∧ ∀ t i, m'.word t i = m.word t i ∨ m'.word t i = { m.word t i with accessed := false }

section Cleared

variable {m m' m₁ m₂ : memory} {pml4 va : ℕ} {vas vas' : List ℕ}

theorem pml4_is_accessed_eq : pml4_is_accessed m pml4 va = .ok (accessed m pml4 va) := by
  unfold pml4_is_accessed accessed
  rw [pml4e_walk_lookup, Outcome.ok_bind, path]
  cases reach (child m) pml4 [PML4 va, PDPE va, PDX va] with
  | none => rfl
  | some t => rfl

theorem Cleared.refl (h : UserTree m pml4) : Cleared m pml4 [] m :=
  ⟨h, rfl, rfl, rfl, fun _ _ => rfl, by simp, fun _ _ => .inl rfl⟩

/-- **Exactly the accessed bits** of set ones are cleared if and only if the entries keep what the
mask is too short for. -/
theorem Cleared.only_iff (h : Cleared m pml4 vas m') (huser : ∀ v ∈ vas, is_user_vaddr v)
    (hset : ∀ v ∈ vas, accessed m pml4 v = true) : ClearedOnly m pml4 vas m' ↔ ∀ v ∈ vas,
    Low m pml4 v := by
  constructor
  · rintro ⟨-, honly⟩ v hv t ht
    have hbefore : (m.word t (PTX v)).accessed = true := by
      have hv := hset v hv
      rwa [accessed, ht] at hv
    have hafter : (m'.word t (PTX v)).accessed = false := by
      have hbit := h.bits v (huser v hv)
      rw [accessed, h.tables v (huser v hv), ht] at hbit
      exact hbit.trans (by
        rw [decide_eq_false fun hall => hall v hv rfl, Bool.and_false])
    have hchanged : m'.word t (PTX v) ≠ m.word t (PTX v) := fun heq => by
      rw [heq, hbefore] at hafter
      cases hafter
    have hpassed := ((h.word t (PTX v)).resolve_left hchanged).1
    have hexact := (honly t (PTX v)).resolve_left hchanged
    -- the two agree, so the mask has taken no more than the bit
    have hpage := congrArg entry.page (hpassed.symm.trans hexact)
    unfold entry.passed at hpage
    generalize m.word t (PTX v) = e at hpage ⊢
    unfold entry.low at hpage ⊢
    cases e
    simpa using hpage
  · intro hlow
    refine ⟨h, fun t i => (h.word t i).imp_right ?_⟩
    rintro ⟨hword, v, hv, -, ht, rfl⟩
    rw [hword, entry.passed, hlow v hv t ht]

theorem passed_passed (e : entry) : e.passed.passed = e.passed := by
  unfold entry.passed entry.low
  simp

theorem Cleared.trans (h₁ : Cleared m pml4 vas m₁) (h₂ : Cleared m₁ pml4 vas' m₂) :
    Cleared m pml4 (vas ++ vas') m₂ where
  tree := h₂.tree
  kernel_pool := h₂.kernel_pool.trans h₁.kernel_pool
  user_pool := h₂.user_pool.trans h₁.user_pool
  base := h₂.base.trans h₁.base
  tables va hva := (h₂.tables va hva).trans (h₁.tables va hva)
  bits va hva := by
    rw [h₂.bits va hva, h₁.bits va hva, Bool.and_assoc, ← Bool.decide_and]
    congr 2
    simp only [List.mem_append, or_imp, forall_and]
  word t i := by
    rcases h₂.word t i with heq₂ | ⟨heq₂, va, hmem, huser, hreach, hi⟩
    · rcases h₁.word t i with heq₁ | ⟨heq₁, va, hmem, hva⟩
      · exact .inl (heq₂.trans heq₁)
      · exact .inr ⟨heq₂.trans heq₁, va, List.mem_append_left _ hmem, hva⟩
    · rw [h₁.tables va huser] at hreach
      refine .inr ⟨?_, va, List.mem_append_right _ hmem, huser, hreach, hi⟩
      rcases h₁.word t i with heq₁ | ⟨heq₁, -⟩
      · rw [heq₂, heq₁]
      · rw [heq₂, heq₁, passed_passed]

/-- **`pml4_set_accessed (.., false)`** clears the bit of one page. -/
theorem pml4_set_accessed_cleared (h : UserTree m pml4) (hva : is_user_vaddr va) :
    ∃ m', pml4_set_accessed m pml4 va false = .ok m' ∧ Cleared m pml4 [va] m' := by
  unfold pml4_set_accessed update_pte
  rw [pml4e_walk_lookup, Outcome.ok_bind]
  have hpath : path va = [PML4 va, PDPE va, PDX va] := rfl
  rw [← hpath]
  cases ht : reach (child m) pml4 (path va) with
  | none =>
      refine ⟨m, rfl, h, rfl, rfl, rfl, fun _ _ => rfl, ?_, fun _ _ => .inl rfl⟩
      intro va' _
      by_cases hpage : pg_round_down va = pg_round_down va'
      · -- no table, no bit
        have hnone : accessed m pml4 va' = false := by
          unfold accessed
          rw [← (path_congr hpage).1, ht]
          rfl
        rw [hnone, Bool.false_and]
      · simp [hpage]
  | some t =>
      have hs := stored_below hva ht (m.word t (PTX va)).passed
      refine ⟨m.set_entry t (PTX va) (m.word t (PTX va)).passed, rfl,
        h.set_entry hva ht _, rfl, rfl, rfl, ?_, ?_, ?_⟩
      · intro va' hva'
        exact h.forest.reach_stored hs ⟨rfl, .of_path hva'⟩
      · intro va' hva'
        have hreach := h.forest.reach_stored hs ⟨rfl, .of_path hva'⟩
        unfold accessed
        rw [hreach]
        cases ht' : reach (child m) pml4 (path va') with
        | none => rfl
        | some t' =>
            show ((m.set_entry t (PTX va) _).word t' (PTX va')).accessed
              = ((m.word t' (PTX va')).accessed && _)
            by_cases hpage : pg_round_down va = pg_round_down va'
            · obtain ⟨hp, hidx⟩ := path_congr hpage
              rw [← hp, ht] at ht'
              obtain rfl := Option.some.inj ht'
              rw [← hidx, memory.set_entry_word, Function.update_self, Function.update_self]
              simp [hpage, entry.passed]
            · have hne : ¬ (t' = t ∧ PTX va' = PTX va) := by
                rintro ⟨rfl, hidx⟩
                obtain ⟨-, hp⟩ := h.forest.unique ⟨rfl, .of_path hva⟩ ⟨rfl, .of_path hva'⟩ ht ht'
                exact hpage (page_eq_of_path hva hva' hp hidx.symm)
              rw [set_entry_word_ne hne]
              simp [hpage]
      · intro t' i
        by_cases hboth : t' = t ∧ i = PTX va
        · obtain ⟨rfl, rfl⟩ := hboth
          right
          refine ⟨?_, va, List.mem_singleton.mpr rfl, hva, ht, rfl⟩
          rw [memory.set_entry_word, Function.update_self, Function.update_self]
        · exact .inl (set_entry_word_ne hboth _)

end Cleared

end Pintos.mmu

namespace Pintos.clock

open Round

/-! ## The loop -/

section Loop

variable {σ : Type} (table : List ℕ) (va_of : ℕ → Outcome ℕ)
  (is_accessed : σ → ℕ → Outcome Bool) (set_accessed : σ → ℕ → Bool → Outcome σ)

/-- The loop of `vm_get_victim`: the victim, and the new hand. -/
def victim_loop (clock_start : list_elem ℕ) :
    ℕ → list_elem ℕ → σ → Outcome ((ℕ × list_elem ℕ) × σ)
  | 0, _, _ => .diverge
  | n + 1, clock_now, m => do
      let victim ← list_entry clock_now
      let va ← va_of victim
      let success ← is_accessed m va
      if success = false then
        let hand ← list_next table clock_now
        return ((victim, hand), m)
      else
        let m ← set_accessed m va false
        let clock_now ← list_next_round table clock_now
        if clock_now ≠ clock_start then victim_loop clock_start n clock_now m
        else
          let victim ← list_entry clock_now
          let hand ← list_next table clock_now
          return ((victim, hand), m)

/-- The first frame of a list whose bit is clear; the bits before it are cleared. -/
def scan : List ℕ → σ → Outcome (Option ℕ × σ)
  | [], m => .ok (none, m)
  | f :: fs, m => do
      let va ← va_of f
      let success ← is_accessed m va
      if success = false then return (some f, m)
      else
        let m ← set_accessed m va false
        scan fs m

variable {table}

/-- **The loop is a scan** in the order from the hand on. -/
theorem victim_loop_eq {p : list_elem ℕ} {before rest : List ℕ} {f hand : ℕ} {zs : List ℕ}
    (hnd : table.Nodup) (hhand : round table p = hand :: zs)
    (hround : round table p = before ++ f :: rest) {n : ℕ} (hn : rest.length < n) (m : σ) :
    victim_loop table va_of is_accessed set_accessed (list_begin (round table p)) n (.elem f) m
      = scan va_of is_accessed set_accessed (f :: rest) m >>= fun r => do
          let next ← list_next table (.elem (r.1.getD hand))
          return ((r.1.getD hand, next), r.2) := by
  have hnext := list_next_round_eq hnd hround
  induction rest generalizing before f n m with
  | nil =>
      obtain ⟨n, rfl⟩ : ∃ k, n = k + 1 := ⟨n - 1, by omega⟩
      unfold victim_loop scan
      simp only [list_entry, Outcome.ok_bind, Outcome.bind_assoc]
      apply Outcome.bind_congr
      intro va _
      apply Outcome.bind_congr
      intro success _
      cases success with
      | false => simp
      | true =>
          simp only [Bool.true_eq_false, if_false]
          rw [Outcome.bind_assoc]
          apply Outcome.bind_congr
          intro m' _
          -- back at the start
          rw [hnext, Outcome.ok_bind, List.nil_append, if_neg (by simp), hhand]
          rfl
  | cons g rest ih =>
      obtain ⟨n, rfl⟩ : ∃ k, n = k + 1 := ⟨n - 1, by omega⟩
      have hround' : round table p = (before ++ [f]) ++ g :: rest := by
        rw [hround, List.append_assoc, List.singleton_append]
      have hne : list_begin ((g :: rest) ++ round table p) ≠ list_begin (round table p) := by
        have hnd' : (round table p).Nodup := (round_isRotated table p).nodup_iff.mpr hnd
        have hin : hand ∈ before ++ [f] := by
          rw [hhand] at hround'
          cases before with
          | nil => simp [(List.cons.inj hround').1]
          | cons b before => simp [(List.cons.inj hround').1]
        rw [hround', List.nodup_append] at hnd'
        rw [hhand]
        intro heq
        exact hnd'.2.2 hand hin g (List.mem_cons_self ..) (list_elem.elem.inj heq).symm
      rw [victim_loop, scan]
      simp only [list_entry, Outcome.ok_bind, Outcome.bind_assoc]
      apply Outcome.bind_congr
      intro va _
      apply Outcome.bind_congr
      intro success _
      cases success with
      | false => simp
      | true =>
          simp only [Bool.true_eq_false, if_false]
          rw [Outcome.bind_assoc]
          apply Outcome.bind_congr
          intro m' _
          rw [hnext, Outcome.ok_bind, if_pos hne]
          apply ih hround' (by simpa using hn)
          exact list_next_round_eq hnd hround'

end Loop

/-! ## `vm_get_victim` over one page table for each process -/

/-- The hand that `clock_start` of the state stands for. -/
def hand_of : Option ℕ → list_elem ℕ
  | none => .null
  | some f => .elem f

/-- Null and the end are one value there. -/
def hand_ptr : list_elem ℕ → Option ℕ
  | .elem f => some f
  | _ => none

section State

variable {s : vm} {t : ℕ}

/-- The loop of `vm_get_victim` with the page table of the process `t`. -/
def state_loop (s₀ : vm) (t fuel : ℕ) (clock_start : list_elem ℕ) (s : vm) :
    Outcome ((ℕ × list_elem ℕ) × vm) :=
  victim_loop s₀.frame_table (victim_va s₀) (fun s va => .ok (pml4_is_accessed s t va))
    (fun s va accessed => .ok (pml4_set_accessed s t va accessed)) clock_start fuel clock_start s

theorem clock_scan_eq {s₀ : vm} (fs : List ℕ) (hva : victim_va s = victim_va s₀) :
    clock_scan t fs s = scan (victim_va s₀) (fun s va => .ok (pml4_is_accessed s t va))
      (fun s va accessed => .ok (pml4_set_accessed s t va accessed)) fs s := by
  induction fs generalizing s with
  | nil => rfl
  | cons f fs ih =>
      unfold clock_scan scan
      rw [hva]
      apply Outcome.bind_congr
      intro va _
      rw [Outcome.ok_bind, Outcome.ok_bind]
      cases pml4_is_accessed s t va with
      | false => rfl
      | true => exact ih hva

/-- A scan finds a frame of its list, and leaves the table alone. -/
theorem clock_scan_found {fs : List ℕ} {found : Option ℕ} {s' : vm}
    (h : clock_scan t fs s = .ok (found, s')) :
    s'.frame_table = s.frame_table ∧ ∀ f ∈ found, f ∈ fs := by
  induction fs generalizing s with
  | nil =>
      cases h
      exact ⟨rfl, fun _ hf => by cases hf⟩
  | cons f fs ih =>
      rw [clock_scan] at h
      obtain ⟨va, -, h⟩ := Outcome.bind_eq_ok.mp h
      by_cases hbit : pml4_is_accessed s t va
      · rw [if_pos hbit] at h
        obtain ⟨htable, hmem⟩ := ih h
        exact ⟨htable, fun g hg => List.mem_cons_of_mem _ (hmem g hg)⟩
      · rw [if_neg hbit] at h
        cases h
        refine ⟨rfl, fun g hg => ?_⟩
        obtain rfl := Option.some.inj hg
        exact List.mem_cons_self ..

theorem clock_order_eq (hhand : ∀ f, s.clock_start = some f → f ∈ s.frame_table) :
    clock_order s = .ok (round s.frame_table (hand_of s.clock_start)) := by
  unfold clock_order
  cases hclock : s.clock_start with
  | none => rfl
  | some f => exact if_pos (hhand f hclock)

/-- **The list walk of `vm_get_victim` is the clock.** -/
theorem vm_get_victim_eq (hnd : s.frame_table.Nodup) (hne : s.frame_table ≠ [])
    (hhand : ∀ f, s.clock_start = some f → f ∈ s.frame_table) {fuel : ℕ}
    (hfuel : s.frame_table.length ≤ fuel) :
    Pintos.vm_get_victim s t
      = state_loop s t fuel (list_begin (round s.frame_table (hand_of s.clock_start)))
      s >>= fun r =>
          .ok (r.1.1, r.2.set_clock (hand_ptr r.1.2)) := by
  have hrot := round_isRotated s.frame_table (hand_of s.clock_start)
  obtain ⟨f, zs, hround, hlen⟩ := exists_round_cons hne (hand_of s.clock_start)
  have hlen : zs.length < fuel := hlen.trans_le hfuel
  have hround' : round s.frame_table (hand_of s.clock_start) = [] ++ f :: zs := hround
  have hstart : list_begin (round s.frame_table (hand_of s.clock_start)) = .elem f := by
    rw [hround]
    rfl
  have hloop := victim_loop_eq (victim_va s) (fun s va => .ok (pml4_is_accessed s t va))
    (fun s va accessed => .ok (pml4_set_accessed s t va accessed)) hnd hround hround' hlen s
  rw [← clock_scan_eq (f :: zs) rfl] at hloop
  unfold Pintos.vm_get_victim state_loop
  rw [clock_order_eq hhand, Outcome.ok_bind, hround]
  rw [hstart] at hloop
  show (clock_scan t (f :: zs) s >>= _) = victim_loop _ _ _ _ (.elem f) fuel (.elem f) s >>= _
  rw [hloop, Outcome.bind_assoc]
  apply Outcome.bind_congr
  rintro ⟨found, s'⟩ hscan
  obtain ⟨htable, hfound⟩ := clock_scan_found hscan
  have hmem : found.getD f ∈ s.frame_table := by
    rw [← hrot.perm.mem_iff, hround]
    cases found with
    | none => exact List.mem_cons_self ..
    | some g => exact hfound g rfl
  dsimp only
  rw [list_next_eq hmem, htable]
  unfold frame_table_split
  cases (s.frame_table.dropWhile (· ≠ found.getD f)).tail with
  | nil => rfl
  | cons g gs => rfl

end State

/-! ## The victim -/

/-- `vm_get_victim`: the victim, and the new `clock_start`. `garbage` is what the stack
holds where `victim` will be. -/
def vm_get_victim (s : vm) (m : mmu.memory) (pml4 : ℕ) (garbage : Option ℕ)
    (clock_start : list_elem ℕ) (fuel : ℕ) : Outcome ((ℕ × list_elem ℕ) × mmu.memory) := do
  Outcome.assert (garbage ≠ none)
  let clock_start :=
    if clock_start = .null ∨ clock_start = .tail then list_begin s.frame_table else clock_start
  victim_loop s.frame_table (victim_va s) (fun m va => mmu.pml4_is_accessed m pml4 va)
    (fun m va accessed => mmu.pml4_set_accessed m pml4 va accessed) clock_start fuel clock_start m

/-- Every frame of the table has a page, and no two of the pages have the same place in a
page table. -/
structure Resident (s : vm) (va : ℕ → ℕ) : Prop where
  nodup : s.frame_table.Nodup
  page : ∀ f ∈ s.frame_table, victim_va s f = .ok (va f)
  user : ∀ f ∈ s.frame_table, mmu.is_user_vaddr (va f)
  distinct : ∀ f ∈ s.frame_table, ∀ g ∈ s.frame_table,
    pg_round_down (va f) = pg_round_down (va g) → f = g

/-- The victim is the first frame from the hand on whose bit is clear, or, after a full
round, the frame under the hand; `C` holds of the frames before it, and the new hand is its
successor. -/
def Visits (C : mmu.memory → ℕ → List ℕ → mmu.memory → Prop) (s : vm) (m : mmu.memory) (pml4 : ℕ)
    (va : ℕ → ℕ) (hand : list_elem ℕ)
    (x : Outcome ((ℕ × list_elem ℕ) × mmu.memory)) : Prop :=
  ∃ victim next m', x = .ok ((victim, next), m') ∧ list_next s.frame_table (.elem victim) = .ok next
    ∧ ((∃ before after, round s.frame_table hand = before ++ victim :: after
        ∧ (∀ f ∈ before, mmu.accessed m pml4 (va f) = true)
        ∧ mmu.accessed m pml4 (va victim) = false ∧ C m pml4 (before.map va) m')
      ∨ ((∀ f ∈ s.frame_table, mmu.accessed m pml4 (va f) = true)
        ∧ (round s.frame_table hand).head? = some victim
        ∧ C m pml4 ((round s.frame_table hand).map va) m'))

/-- The victim is selected so, and exactly the accessed bits of the frames before it are cleared. -/
def Selects (s : vm) (m : mmu.memory) (pml4 : ℕ) (va : ℕ → ℕ) (hand : list_elem ℕ)
    (x : Outcome ((ℕ × list_elem ℕ) × mmu.memory)) : Prop :=
  Visits mmu.ClearedOnly s m pml4 va hand x

/-- The frames that are passed over: those from the hand on up to the first whose bit is clear. -/
def passed_frames (s : vm) (m : mmu.memory) (pml4 : ℕ) (va : ℕ → ℕ) (hand : list_elem ℕ) : List ℕ :=
  (round s.frame_table hand).takeWhile fun f => mmu.accessed m pml4 (va f)

section Victim

variable {s : vm} {m : mmu.memory} {pml4 : ℕ} {va : ℕ → ℕ} {hand : list_elem ℕ}

/-- **A scan** clears the bits it passes. -/
theorem scan_cleared {fs : List ℕ} (htree : mmu.UserTree m pml4)
    (hpage : ∀ f ∈ fs, victim_va s f = .ok (va f)) (huser : ∀ f ∈ fs, mmu.is_user_vaddr (va f))
    (hdistinct : fs.Pairwise fun f g => pg_round_down (va f) ≠ pg_round_down (va g)) :
    ∃ found m', scan (victim_va s) (fun m va => mmu.pml4_is_accessed m pml4 va)
        (fun m va accessed => mmu.pml4_set_accessed m pml4 va accessed) fs m = .ok (found, m')
      ∧ ((∃ before f after, found = some f ∧ fs = before ++ f :: after
          ∧ (∀ g ∈ before, mmu.accessed m pml4 (va g) = true)
          ∧ mmu.accessed m pml4 (va f) = false ∧ mmu.Cleared m pml4 (before.map va) m')
        ∨ (found = none ∧ (∀ g ∈ fs, mmu.accessed m pml4 (va g) = true)
          ∧ mmu.Cleared m pml4 (fs.map va) m')) := by
  induction fs generalizing m with
  | nil => exact ⟨none, m, rfl, .inr ⟨rfl, by simp, .refl htree⟩⟩
  | cons f fs ih =>
      have hf := List.mem_cons_self (a := f) (l := fs)
      obtain ⟨hfirst, hrest⟩ := List.pairwise_cons.mp hdistinct
      unfold scan
      rw [hpage f hf, Outcome.ok_bind, mmu.pml4_is_accessed_eq, Outcome.ok_bind]
      cases hbit : mmu.accessed m pml4 (va f) with
      | false => 
          exact ⟨some f, m, rfl, .inl ⟨[], f, fs, rfl, rfl, by simp, hbit, .refl htree⟩⟩
      | true => 
          rw [if_neg (by simp)]
          obtain ⟨m₁, hset, hc⟩ := mmu.pml4_set_accessed_cleared htree (huser f hf)
          rw [hset, Outcome.ok_bind]
          -- the bits of the other frames are as before
          have hkeep : ∀ g ∈ fs, mmu.accessed m₁ pml4 (va g) = mmu.accessed m pml4 (va g) := by
            intro g hg
            rw [hc.bits _ (huser g (List.mem_cons_of_mem _ hg))]
            simp [hfirst g hg]
          obtain ⟨found, m', hscan, hres⟩ := ih hc.tree
            (fun g hg => hpage g (List.mem_cons_of_mem _ hg))
            (fun g hg => huser g (List.mem_cons_of_mem _ hg)) hrest
          refine ⟨found, m', hscan, ?_⟩
          rcases hres with ⟨before, g, after, rfl, rfl, hset_bits, hclear, hc'⟩ | ⟨rfl,
            hset_bits, hc'⟩
          · left
            refine ⟨f :: before, g, after, rfl, rfl, ?_, ?_, ?_⟩
            · intro x hx
              rcases List.mem_cons.mp hx with rfl | hx
              · exact hbit
              · rw [← hkeep x (List.mem_append_left _ hx)]
                exact hset_bits x hx
            · rw [← hkeep g (by simp)]
              exact hclear
            · exact hc.trans hc'
          · right
            refine ⟨rfl, ?_, hc.trans hc'⟩
            intro x hx
            rcases List.mem_cons.mp hx with rfl | hx
            · exact hbit
            · rw [← hkeep x hx]
              exact hset_bits x hx

/-- **With a value in `victim`**, the clock visits the frames up to the victim. -/
theorem vm_get_victim_visits (hr : Resident s va) (htree : mmu.UserTree m pml4)
    (hne : s.frame_table ≠ []) (hhand : ∀ f, hand = .elem f → f ∈ s.frame_table) {fuel : ℕ}
    (hfuel : s.frame_table.length ≤ fuel) (v : ℕ) :
    Visits mmu.Cleared s m pml4 va hand (vm_get_victim s m pml4 (some v) hand fuel) := by
  have hrot := round_isRotated s.frame_table hand
  have hmem : ∀ f ∈ round s.frame_table hand, f ∈ s.frame_table :=
    fun f hf => hrot.perm.mem_iff.mp hf
  obtain ⟨f, zs, hround, hlen⟩ := exists_round_cons hne hand
  have hlen : zs.length < fuel := hlen.trans_le hfuel
  have hstart : list_begin (round s.frame_table hand) = .elem f := by
    rw [hround]
    rfl
  unfold vm_get_victim
  rw [Outcome.assert_pos (by simp), Outcome.ok_bind]
  simp only [start_eq hhand]
  have hpairs : (f :: zs).Pairwise fun x y => pg_round_down (va x) ≠ pg_round_down (va y) := by
    have hnd : (f :: zs).Nodup := by
      rw [← hround]
      exact hrot.nodup_iff.mpr hr.nodup
    apply List.Pairwise.imp_of_mem ?_ hnd
    intro x y hx hy hxy heq
    rw [← hround] at hx hy
    exact hxy (hr.distinct x (hmem x hx) y (hmem y hy) heq)
  have hpage : ∀ x ∈ f :: zs, victim_va s x = .ok (va x) := by
    intro x hx
    rw [← hround] at hx
    exact hr.page x (hmem x hx)
  have huser : ∀ x ∈ f :: zs, mmu.is_user_vaddr (va x) := by
    intro x hx
    rw [← hround] at hx
    exact hr.user x (hmem x hx)
  obtain ⟨found, m', hscan, hres⟩ := scan_cleared htree hpage huser hpairs
  have hround' : round s.frame_table hand = [] ++ f :: zs := hround
  have hloop := victim_loop_eq (victim_va s) (fun m va => mmu.pml4_is_accessed m pml4 va)
    (fun m va accessed => mmu.pml4_set_accessed m pml4 va accessed) hr.nodup hround hround' hlen m
  rw [hscan, Outcome.ok_bind] at hloop
  -- the successor of a frame of the table
  have hnext : ∀ x ∈ f :: zs, ∃ next, list_next s.frame_table (.elem x) = .ok next := by
    intro x hx
    rw [← hround] at hx
    exact ⟨_, list_next_eq (hmem x hx)⟩
  rcases hres with ⟨before, g, after, rfl, hsplit, hset, hclear, hc⟩ | ⟨rfl, hset, hc⟩
  · obtain ⟨next, hg⟩ := hnext g (by rw [hsplit]; simp)
    refine ⟨g, next, m', ?_, hg, .inl ⟨before, after, by rw [hround, hsplit], hset, hclear, hc⟩⟩
    rw [← hstart] at hloop
    rw [hloop, Option.getD_some, hg]
    rfl
  · obtain ⟨next, hf⟩ := hnext f (List.mem_cons_self ..)
    refine ⟨f, next, m', ?_, hf, .inr ⟨?_, by rw [hround]; rfl, by rw [hround]; exact hc⟩⟩
    · rw [← hstart] at hloop
      rw [hloop, Option.getD_none, hf]
      rfl
    · intro x hx
      apply hset
      rw [← hround]
      exact hrot.perm.mem_iff.mpr hx

/-- **No other bit gets lost** if and only if the pages of the frames that are passed over are
low. -/
theorem Visits.selects_iff {x : Outcome ((ℕ × list_elem ℕ) × mmu.memory)} (hr : Resident s va)
    (h : Visits mmu.Cleared s m pml4 va hand x) :
    Selects s m pml4 va hand x ↔ ∀ f ∈ passed_frames s m pml4 va hand, mmu.Low m pml4 (va f) := by
  have hmem : ∀ f ∈ round s.frame_table hand, f ∈ s.frame_table := fun f hf =>
    (round_isRotated s.frame_table hand).perm.mem_iff.mp hf
  have honly : ∀ {fs : List ℕ} {m' : mmu.memory}, (∀ f ∈ fs, f ∈ s.frame_table) →
      (∀ f ∈ fs, mmu.accessed m pml4 (va f) = true) →
      mmu.Cleared m pml4 (fs.map va) m' →
      (mmu.ClearedOnly m pml4 (fs.map va) m' ↔ ∀ f ∈ fs, mmu.Low m pml4 (va f)) := by
    intro fs m' htable hset hc
    rw [hc.only_iff (List.forall_mem_map.mpr fun f hf => hr.user f (htable f hf))
      (List.forall_mem_map.mpr hset), List.forall_mem_map]
  have hstop : ∀ {before : List ℕ} {f : ℕ} {after : List ℕ},
    round s.frame_table hand = before ++ f :: after →
      (∀ g ∈ before, mmu.accessed m pml4 (va g) = true) → mmu.accessed m pml4 (va f) = false →
      passed_frames s m pml4 va hand = before := by
    intro before f after hround hset hclear
    rw [passed_frames, hround, List.takeWhile_append_of_pos hset,
      List.takeWhile_cons_of_neg (by simp [hclear]), List.append_nil]
  have hfull : (∀ f ∈ s.frame_table, mmu.accessed m pml4 (va f) = true) →
      passed_frames s m pml4 va hand = round s.frame_table hand := fun hset =>
    List.takeWhile_eq_self_iff.mpr fun f hf => hset f (hmem f hf)
  constructor
  · rintro ⟨victim, next, m', -, -, ⟨before, after, hround, hset, hclear, hc⟩ | ⟨hset, -, hc⟩⟩
    · rw [hstop hround hset hclear]
      exact (honly (fun f hf => hmem f (by rw [hround]; exact List.mem_append_left _ hf))
        hset hc.1).mp hc
    · rw [hfull hset]
      exact (honly hmem (fun f hf => hset f (hmem f hf)) hc.1).mp hc
  · intro hlow
    obtain ⟨victim, next, m', hx, hnext,
      ⟨before, after, hround, hset, hclear, hc⟩ | ⟨hset, hhead, hc⟩⟩ := h
    · rw [hstop hround hset hclear] at hlow
      exact ⟨victim, next, m', hx, hnext, .inl ⟨before, after, hround, hset, hclear,
        (honly (fun f hf => hmem f (by rw [hround]; exact List.mem_append_left _ hf)) hset
          hc).mpr hlow⟩⟩
    · rw [hfull hset] at hlow
      exact ⟨victim, next, m', hx, hnext, .inr ⟨hset, hhead,
        (honly hmem (fun f hf => hset f (hmem f hf)) hc).mpr hlow⟩⟩

/-- **The clock selects a victim** if and only if the assertion on the local without a value
passes, and the entries of the frames it passes over name pages below 4 GB. -/
theorem vm_get_victim_selects_iff (hr : Resident s va) (htree : mmu.UserTree m pml4)
    (hne : s.frame_table ≠ []) (hhand : ∀ f, hand = .elem f → f ∈ s.frame_table) {fuel : ℕ}
    (hfuel : s.frame_table.length ≤ fuel) (garbage : Option ℕ) :
    Selects s m pml4 va hand (vm_get_victim s m pml4 garbage hand fuel)
      ↔ garbage ≠ none ∧ ∀ f ∈ passed_frames s m pml4 va hand, mmu.Low m pml4 (va f) := by
  cases garbage with
  | some v =>
      simp only [ne_eq, reduceCtorEq, not_false_eq_true, true_and]
      exact (vm_get_victim_visits hr htree hne hhand hfuel v).selects_iff hr
  | none =>
      -- the assertion on the local fails before any frame is looked at
      simp only [ne_eq, not_true_eq_false, false_and, iff_false]
      rintro ⟨victim, next, m', heq, -⟩
      cases heq

end Victim

/-- Two frames, with the pages at two addresses. -/
def two_frames : vm :=
  { swap.one_slot with
    page := fun p =>
      some { va := 0x400000 + p * PGSIZE, frame := some p, writable := true, kind := .anon (-1) }
    frame := fun f => if f < 2 then some { kva := f, ref_cnt := 1, page := some f } else none
    frame_table := [0, 1] }

theorem two_frames_resident : Resident two_frames fun f => 0x400000 + f * PGSIZE := by
  have htable : ∀ f ∈ two_frames.frame_table, f = 0 ∨ f = 1 := by
    intro f hf
    simpa [two_frames] using hf
  refine ⟨by decide, ?_, ?_, ?_⟩
  · intro f hf
    rcases htable f hf with rfl | rfl
    · rfl
    · rfl
  · intro f hf
    rcases htable f hf with rfl | rfl
    · decide
    · decide
  · intro f hf g hg heq
    unfold pg_round_down PGSIZE at heq
    omega

/-- The hand is at the second frame, and no bit is set. -/
theorem two_frames_selects : Selects two_frames mmu.spare 0 (fun f => 0x400000 + f * PGSIZE)
    (.elem 1) (vm_get_victim two_frames mmu.spare 0 (some 7) (.elem 1) 2) := by
  have hhand : ∀ f, list_elem.elem 1 = .elem f → f ∈ two_frames.frame_table := by
    intro f hf
    cases hf
    decide
  have hnone : passed_frames two_frames mmu.spare 0 (fun f => 0x400000 + f * PGSIZE)
      (.elem 1) = [] := by
    decide
  refine (vm_get_victim_selects_iff two_frames_resident mmu.spare_user_tree (by decide) hhand le_rfl
    (some 7)).mpr ⟨by decide, fun f hf => ?_⟩
  rw [hnone] at hf
  cases hf

/-- With a null word on the stack the kernel panics before it looks at a frame. -/
theorem two_frames_null_on_stack : Resident two_frames (fun f => 0x400000 + f * PGSIZE)
    ∧ mmu.UserTree mmu.spare 0
    ∧ vm_get_victim two_frames mmu.spare 0 none (.elem 1) 2 = .panic
    ∧ ¬ Selects two_frames mmu.spare 0 (fun f => 0x400000 + f * PGSIZE) (.elem 1)
      (vm_get_victim two_frames mmu.spare 0 none (.elem 1) 2) := by
  refine ⟨two_frames_resident, mmu.spare_user_tree, rfl, ?_⟩
  rintro ⟨victim, next, m', heq, -⟩
  cases heq

end Pintos.clock
