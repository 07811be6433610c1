/-
`pml4_set_dirty` and `pml4_set_accessed` on whole 64-bit entries.

`Mmu.lean` keeps of an entry what the walks read. Here memory holds the words themselves, and
`view` is what that model sees of them. Setting a bit is done with a 64-bit mask. The mask that
clears one is built in 32 bits and extended with zeros, so the upper half of the entry goes
with the bit: the page that the entry names changes if it is at 4 GB or above.
-/
import Pintos.Threads.AddressSpace

set_option autoImplicit false

namespace Pintos.mmu

open Radix

/-! ## `threads/pte.h` -/

/-- `PTE_P`. -/
def PTE_P : BitVec 64 := 0x1

/-- `PTE_W`. -/
def PTE_W : BitVec 64 := 0x2

/-- `PTE_U`. -/
def PTE_U : BitVec 64 := 0x4

/-- `PTE_A`. -/
def PTE_A : BitVec 64 := 0x20

/-- `PTE_D`. -/
def PTE_D : BitVec 64 := 0x40

/-- `PTE_ADDR`. -/
def PTE_ADDR (pte : BitVec 64) : BitVec 64 := pte &&& ~~~0xFFF

/-- `~(uint32_t) bit`, as the 64-bit operand of `&=`. -/
def clear_mask (bit : BitVec 64) : BitVec 64 := (~~~(bit.setWidth 32)).setWidth 64

/-! ## Memory -/

/-- Memory with the words of every page. -/
structure raw_memory where
  kernel_pool : pool
  user_pool : pool
  word : ℕ → Fin 512 → BitVec 64
  base_pml4 : ℕ

/-- What the walks read of a word. -/
def entry.of_word (pte : BitVec 64) : entry :=
  { page := (PTE_ADDR pte).toNat / PGSIZE
    present := pte &&& PTE_P ≠ 0
    writable := pte &&& PTE_W ≠ 0
    user := pte &&& PTE_U ≠ 0
    accessed := pte &&& PTE_A ≠ 0
    dirty := pte &&& PTE_D ≠ 0 }

/-- Memory as page tables see it. -/
def raw_memory.view (m : raw_memory) : memory :=
  { kernel_pool := m.kernel_pool
    user_pool := m.user_pool
    word := fun table idx => entry.of_word (m.word table idx)
    base_pml4 := m.base_pml4 }

/-- `table[idx] = pte`. -/
def raw_memory.set_word (m : raw_memory) (table : ℕ) (idx : Fin 512)
    (pte : BitVec 64) : raw_memory :=
  { m with word := Function.update m.word table (Function.update (m.word table) idx pte) }

namespace raw

/-- What `pml4_set_dirty` and `pml4_set_accessed` do with the word. -/
def update_pte (f : BitVec 64 → BitVec 64) (m : raw_memory) (pml4 vpage : ℕ) :
    Outcome raw_memory := do
  let (pte, _) ← pml4e_walk m.view pml4 vpage false
  match pte with
  | some (table, idx) => return m.set_word table idx (f (m.word table idx))
  | none => return m

/-- `pml4_set_dirty`. -/
def pml4_set_dirty (m : raw_memory) (pml4 vpage : ℕ) (dirty : Bool) : Outcome raw_memory :=
  update_pte (fun pte => if dirty then pte ||| PTE_D else pte &&& clear_mask PTE_D) m pml4 vpage

/-- `pml4_set_accessed`. -/
def pml4_set_accessed (m : raw_memory) (pml4 vpage : ℕ) (accessed : Bool) : Outcome raw_memory :=
  update_pte (fun pte => if accessed then pte ||| PTE_A else pte &&& clear_mask PTE_A) m pml4 vpage

/-- `pml4_get_page`. -/
def pml4_get_page (m : raw_memory) (pml4 uaddr : ℕ) : Outcome (Option ℕ) :=
  mmu.pml4_get_page m.view pml4 uaddr

/-- A call of one of the two. -/
inductive bit_call
  | set_dirty (pml4 vpage : ℕ) (dirty : Bool)
  | set_accessed (pml4 vpage : ℕ) (accessed : Bool)
  deriving DecidableEq, Repr

/-- The map, the page and the flag of a call. -/
def bit_call.pml4 : bit_call → ℕ
  | set_dirty pml4 _ _ => pml4
  | set_accessed pml4 _ _ => pml4

@[inherit_doc bit_call.pml4]
def bit_call.vpage : bit_call → ℕ
  | set_dirty _ vpage _ => vpage
  | set_accessed _ vpage _ => vpage

@[inherit_doc bit_call.pml4]
def bit_call.flag : bit_call → Bool
  | set_dirty _ _ dirty => dirty
  | set_accessed _ _ accessed => accessed

/-- One call. -/
def bit_step (m : raw_memory) : bit_call → Outcome raw_memory
  | .set_dirty pml4 vpage dirty => pml4_set_dirty m pml4 vpage dirty
  | .set_accessed pml4 vpage accessed => pml4_set_accessed m pml4 vpage accessed

/-- A sequence of calls. -/
def bit_run : List bit_call → raw_memory → Outcome raw_memory
  | [], m => .ok m
  | c :: cs, m => do
      let m ← bit_step m c
      bit_run cs m

/-! ## Bits -/

section Bits

variable {pte pte' : BitVec 64} {j : ℕ}

/-- The only bits that the calls are about. -/
def Flag (j : ℕ) : Prop := j = 5 ∨ j = 6

instance : DecidablePred Flag := fun j => inferInstanceAs (Decidable (j = 5 ∨ j = 6))

theorem pte_bits : ∀ j : Fin 64, (PTE_P.getLsbD j = decide (j.val = 0))
    ∧ (PTE_A.getLsbD j = decide (j.val = 5)) ∧ (PTE_D.getLsbD j = decide (j.val = 6))
    ∧ ((clear_mask PTE_A).getLsbD j = decide (j.val < 32 ∧ j.val ≠ 5))
    ∧ ((clear_mask PTE_D).getLsbD j = decide (j.val < 32 ∧ j.val ≠ 6))
    ∧ ((~~~(PTE_A ||| PTE_D)).getLsbD j = decide (¬ (j.val = 5 ∨ j.val = 6)))
    ∧ ((~~~0xFFF : BitVec 64).getLsbD j = decide (12 ≤ j.val)) := by
  decide

/-- A word below 4 GB has no bit in its upper half. -/
theorem toNat_lt_iff : pte.toNat < 2 ^ 32 ↔ ∀ j, 32 ≤ j → pte.getLsbD j = false := by
  constructor
  · intro h j hj
    exact Nat.testBit_lt_two_pow (h.trans_le (Nat.pow_le_pow_right (by decide) hj))
  · intro h
    exact Nat.lt_pow_two_of_testBit _ h

/-- Two words that differ at most in the dirty and the accessed bit. -/
theorem masked_eq_iff : pte' &&& ~~~(PTE_A ||| PTE_D) = pte &&& ~~~(PTE_A ||| PTE_D)
    ↔ ∀ j, ¬ Flag j → pte'.getLsbD j = pte.getLsbD j := by
  constructor
  · intro h j hj
    by_cases hlt : j < 64
    · have hbit := congrArg (fun w => w.getLsbD j) h
      have hmask := (pte_bits ⟨j, hlt⟩).2.2.2.2.2.1
      simp only [BitVec.getLsbD_and] at hbit
      unfold Flag at hj
      rw [hmask] at hbit
      simpa [hj] using hbit
    · rw [BitVec.getLsbD_of_ge _ _ (by omega), BitVec.getLsbD_of_ge _ _ (by omega)]
  · intro h
    apply BitVec.eq_of_getLsbD_eq
    intro j hlt
    have hmask := (pte_bits ⟨j, hlt⟩).2.2.2.2.2.1
    rw [BitVec.getLsbD_and, BitVec.getLsbD_and, hmask]
    by_cases hj : Flag j
    · unfold Flag at hj
      simp [hj]
    · rw [h j hj]

end Bits

/-! ## What a call does -/

section Calls

variable {m m' : raw_memory} {c : bit_call} {pml4 va : ℕ}

/-- The page table of an address, in the map `pml4`. -/
def table_of (m : raw_memory) (pml4 va : ℕ) : Option ℕ := reach (child m.view) pml4 (path va)

/-- What a call makes of the word it finds. -/
def bit_call.update : bit_call → BitVec 64 → BitVec 64
  | set_dirty _ _ dirty, pte => if dirty then pte ||| PTE_D else pte &&& clear_mask PTE_D
  | set_accessed _ _ accessed, pte => if accessed then pte ||| PTE_A else pte &&& clear_mask PTE_A

/-- The memory after a call. -/
def bit_call.after (c : bit_call) (m : raw_memory) : raw_memory :=
  match table_of m c.pml4 c.vpage with
  | some table => m.set_word table (PTX c.vpage) (c.update (m.word table (PTX c.vpage)))
  | none => m

theorem update_pte_eq (f : BitVec 64 → BitVec 64) (m : raw_memory) (pml4 vpage : ℕ) :
    update_pte f m pml4 vpage = .ok (match table_of m pml4 vpage with
      | some table => m.set_word table (PTX vpage) (f (m.word table (PTX vpage)))
      | none => m) := by
  unfold update_pte table_of path
  rw [pml4e_walk_lookup, Outcome.ok_bind]
  cases reach (child m.view) pml4 [PML4 vpage, PDPE vpage, PDX vpage] with
  | none => rfl
  | some table => rfl

theorem bit_step_eq (m : raw_memory) (c : bit_call) : bit_step m c = .ok (c.after m) := by
  cases c with
  | set_dirty pml4 vpage dirty =>
      show update_pte (bit_call.update (.set_dirty pml4 vpage dirty)) m pml4 vpage = _
      rw [update_pte_eq]
      rfl
  | set_accessed pml4 vpage accessed =>
      show update_pte (bit_call.update (.set_accessed pml4 vpage accessed)) m pml4 vpage = _
      rw [update_pte_eq]
      rfl

/-- **One update of a word**: the bits that are no flags stay, except that clearing a bit clears
the upper half. -/
theorem update_bits (c : bit_call) (pte : BitVec 64) {j : ℕ} (hj : ¬ Flag j) :
    (c.update pte).getLsbD j = (pte.getLsbD j && (c.flag || decide (j < 32))) := by
  by_cases hlt : j < 64
  · obtain ⟨-, hA, hD, hclearA, hclearD, -, -⟩ := pte_bits ⟨j, hlt⟩
    unfold Flag at hj
    push Not at hj
    dsimp only at hA hD hclearA hclearD
    cases c with
    | set_dirty pml4 vpage dirty =>
        cases dirty with
        | true => simp [bit_call.update, bit_call.flag, hD, hj]
        | false => simp [bit_call.update, bit_call.flag, hclearD, hj]
    | set_accessed pml4 vpage accessed =>
        cases accessed with
        | true => simp [bit_call.update, bit_call.flag, hA, hj]
        | false => simp [bit_call.update, bit_call.flag, hclearA, hj]
  · rw [BitVec.getLsbD_of_ge _ _ (by omega), BitVec.getLsbD_of_ge _ _ (by omega), Bool.false_and]

/-- Every word after a call: the one that was found is updated. -/
theorem after_word (c : bit_call) (m : raw_memory) (table : ℕ) (idx : Fin 512) :
    (c.after m).word table idx
      = if table_of m c.pml4 c.vpage = some table ∧ idx = PTX c.vpage
        then c.update (m.word table idx) else m.word table idx := by
  unfold bit_call.after
  cases htable : table_of m c.pml4 c.vpage with
  | none => simp
  | some found =>
      show Function.update m.word found _ table idx = _
      by_cases ht : table = found
      · subst ht
        rw [Function.update_self]
        by_cases hi : idx = PTX c.vpage
        · rw [hi, Function.update_self, if_pos ⟨rfl, rfl⟩]
        · rw [Function.update_of_ne hi, if_neg fun h => hi h.2]
      · rw [Function.update_of_ne ht, if_neg fun h => ht (Option.some.inj h.1).symm]

end Calls

/-! ## The calls of the model of entries

What `Mmu.lean` says of the two calls is what the masks do to the words. -/

section View

variable (pte : BitVec 64)

theorem and_twoPow_ne (k : ℕ) : decide (pte &&& BitVec.twoPow 64 k ≠ 0)
    = (pte.getLsbD k && decide (k < 64)) := by
  rw [BitVec.and_twoPow]
  by_cases hk : k < 64
  · have hne : BitVec.twoPow 64 k ≠ 0#64 := by
      intro h
      have hbit := congrArg (fun w => w.getLsbD k) h
      simp [hk] at hbit
    cases pte.getLsbD k <;> simp [hk, hne]
  · rw [BitVec.getLsbD_of_ge _ _ (by omega)]
    simp

/-- The fields of an entry are bits of the word. -/
theorem of_word_flags : (entry.of_word pte).present = pte.getLsbD 0
    ∧ (entry.of_word pte).writable = pte.getLsbD 1 ∧ (entry.of_word pte).user = pte.getLsbD 2
    ∧ (entry.of_word pte).accessed = pte.getLsbD 5 ∧ (entry.of_word pte).dirty = pte.getLsbD 6 := by
  have hbit : ∀ k < 64, decide (pte &&& BitVec.twoPow 64 k ≠ 0) = pte.getLsbD k := by
    intro k hk
    rw [and_twoPow_ne]
    simp [hk]
  exact ⟨hbit 0 (by decide), hbit 1 (by decide), hbit 2 (by decide), hbit 5 (by decide),
    hbit 6 (by decide)⟩

theorem of_word_page (j : ℕ) : (entry.of_word pte).page.testBit j = pte.getLsbD (j + 12) := by
  show ((PTE_ADDR pte).toNat / 2 ^ 12).testBit j = _
  rw [Nat.testBit_div_two_pow, BitVec.testBit_toNat, PTE_ADDR, BitVec.getLsbD_and]
  by_cases hlt : j + 12 < 64
  · have hmask := (pte_bits ⟨j + 12, hlt⟩).2.2.2.2.2.2
    dsimp only at hmask
    rw [hmask]
    simp
  · rw [BitVec.getLsbD_of_ge pte _ (by omega), Bool.false_and]

theorem update_page (c : bit_call) : (entry.of_word (c.update pte)).page
    = if c.flag then (entry.of_word pte).page else (entry.of_word pte).page % 2 ^ 20 := by
  apply Nat.eq_of_testBit_eq
  intro j
  have hj : ¬ Flag (j + 12) := by
    unfold Flag
    omega
  rw [of_word_page, update_bits c pte hj]
  cases c.flag with
  | true => simp [of_word_page]
  | false =>
      rw [if_neg (by simp), Nat.testBit_mod_two_pow, of_word_page, Bool.and_comm]
      congr 1
      simp only [Bool.false_or, decide_eq_decide]
      omega

/-- The other bits, which the calls leave alone. -/
theorem update_rights (c : bit_call) :
    (entry.of_word (c.update pte)).present = (entry.of_word pte).present
      ∧ (entry.of_word (c.update pte)).writable = (entry.of_word pte).writable
      ∧ (entry.of_word (c.update pte)).user = (entry.of_word pte).user := by
  have hplain : ∀ j, ¬ Flag j → j < 32 → (c.update pte).getLsbD j = pte.getLsbD j := by
    intro j hj hlt
    rw [update_bits c pte hj]
    simp [hlt]
  obtain ⟨h0, h1, h2, -, -⟩ := of_word_flags (c.update pte)
  obtain ⟨k0, k1, k2, -, -⟩ := of_word_flags pte
  rw [h0, h1, h2, k0, k1, k2]
  exact ⟨hplain 0 (by decide) (by decide), hplain 1 (by decide) (by decide),
    hplain 2 (by decide) (by decide)⟩

/-- What a call makes of the entry in the model of entries. -/
def bit_call.update_entry : bit_call → entry → entry
  | set_dirty _ _ dirty, e => if dirty then { e with dirty := true }
        else { e.low with dirty := false }
  | set_accessed _ _ accessed, e =>
      if accessed then { e with accessed := true } else { e.low with accessed := false }

theorem flag_masks : PTE_A[5] = true ∧ PTE_A[6] = false ∧ PTE_D[5] = false ∧ PTE_D[6] = true
    ∧ (clear_mask PTE_A)[5] = false ∧ (clear_mask PTE_A)[6] = true
    ∧ (clear_mask PTE_D)[5] = true ∧ (clear_mask PTE_D)[6] = false := by decide

/-- The new entry, as the model of entries has it. -/
theorem of_word_update (c : bit_call) :
    entry.of_word (c.update pte) = c.update_entry (entry.of_word pte) := by
  have hpage := update_page pte c
  obtain ⟨h0, h1, h2⟩ := update_rights pte c
  obtain ⟨-, -, -, hA, hD⟩ := of_word_flags (c.update pte)
  obtain ⟨-, -, -, kA, kD⟩ := of_word_flags pte
  generalize entry.of_word (c.update pte) = new at *
  obtain ⟨page, present, writable, user, accessed, dirty⟩ := new
  dsimp only at hpage h0 h1 h2 hA hD
  cases c with
  | set_dirty pml4 vpage d =>
      cases d <;>
        simp [bit_call.update, bit_call.flag, bit_call.update_entry, entry.low, flag_masks, *]
  | set_accessed pml4 vpage a =>
      cases a <;>
        simp [bit_call.update, bit_call.flag, bit_call.update_entry, entry.low, flag_masks, *]

/-- A call in the model of entries. -/
def bit_call.on_view : bit_call → memory → Outcome memory
  | set_dirty pml4 vpage dirty, m => mmu.pml4_set_dirty m pml4 vpage dirty
  | set_accessed pml4 vpage accessed, m => mmu.pml4_set_accessed m pml4 vpage accessed

/-- **The model of entries** sees what the words become. -/
theorem on_view_eq (m : raw_memory) (c : bit_call) : c.on_view m.view = .ok (c.after m).view := by
  have hset : ∀ table idx w, (m.set_word table idx w).view
      = m.view.set_entry table idx (entry.of_word w) := by
    intro table idx w
    unfold raw_memory.set_word raw_memory.view memory.set_entry
    congr 1
    funext t i
    dsimp only
    by_cases ht : t = table
    · subst ht
      by_cases hi : i = idx
      · subst hi
        simp
      · simp [hi]
    · simp [ht]
  have hcall : ∀ f : entry → entry, (∀ pte, entry.of_word (c.update pte) = f (entry.of_word pte)) →
      mmu.update_pte f m.view c.pml4 c.vpage = .ok (c.after m).view := by
    intro f hf
    unfold mmu.update_pte bit_call.after table_of path
    rw [pml4e_walk_lookup, Outcome.ok_bind]
    cases reach (child m.view) c.pml4 [PML4 c.vpage, PDPE c.vpage, PDX c.vpage] with
    | none => rfl
    | some table =>
        dsimp only [Option.map_some]
        rw [hset, hf]
        rfl
  cases c with
  | set_dirty pml4 vpage dirty => exact hcall _ fun pte => of_word_update pte _
  | set_accessed pml4 vpage accessed => exact hcall _ fun pte => of_word_update pte _

end View

/-! ## What is kept -/

/-- The page map of the memory before is that of the memory after: the same pages are mapped at the
same addresses, and in each entry only the dirty and the accessed bit can differ. -/
structure Preserved (m m' : raw_memory) : Prop where
  get_page : ∀ pml4 uaddr, is_user_vaddr uaddr
    → pml4_get_page m' pml4 uaddr = pml4_get_page m pml4 uaddr
  bits : ∀ table idx,
    m'.word table idx &&& ~~~(PTE_A ||| PTE_D) = m.word table idx &&& ~~~(PTE_A ||| PTE_D)

/-- The entries agree outside the two flags. -/
def Agree (m m' : raw_memory) : Prop :=
  ∀ table idx j, ¬ Flag j → (m'.word table idx).getLsbD j = (m.word table idx).getLsbD j

section Agree

variable {m m' m₁ : raw_memory} {c : bit_call}

/-- The flags are not read by a walk. -/
theorem Agree.child_eq (h : Agree m m') : child m'.view = child m.view := by
  funext table idx
  have hw := h table idx
  have haddr : PTE_ADDR (m'.word table idx) = PTE_ADDR (m.word table idx) := by
    apply BitVec.eq_of_getLsbD_eq
    intro j hlt
    have hmask := (pte_bits ⟨j, hlt⟩).2.2.2.2.2.2
    unfold PTE_ADDR
    rw [BitVec.getLsbD_and, BitVec.getLsbD_and, hmask]
    by_cases hj : 12 ≤ j
    · have hflag : ¬ Flag j := by
        unfold Flag
        omega
      rw [hw j hflag]
    · simp [hj]
  have hpresent : m'.word table idx &&& PTE_P = m.word table idx &&& PTE_P := by
    apply BitVec.eq_of_getLsbD_eq
    intro j hlt
    have hmask := (pte_bits ⟨j, hlt⟩).1
    rw [BitVec.getLsbD_and, BitVec.getLsbD_and, hmask]
    by_cases hj : j = 0
    · have hflag : ¬ Flag j := by
        unfold Flag
        omega
      rw [hw j hflag]
    · simp [hj]
  have hread : (entry.of_word (m'.word table idx)).present
    = (entry.of_word (m.word table idx)).present
      ∧ (entry.of_word (m'.word table idx)).page = (entry.of_word (m.word table idx)).page := by
    simp [entry.of_word, haddr, hpresent]
  unfold child raw_memory.view
  dsimp only
  rw [hread.1, hread.2]

theorem preserved_iff : Preserved m m' ↔ Agree m m' := by
  constructor
  · intro h table idx
    exact masked_eq_iff.mp (h.bits table idx)
  · intro h
    refine ⟨fun pml4 uaddr huser => ?_, fun table idx => masked_eq_iff.mpr (h table idx)⟩
    unfold pml4_get_page
    rw [pml4_get_page_eq huser, pml4_get_page_eq huser, h.child_eq]

theorem Agree.refl : Agree m m := fun _ _ _ _ => rfl

theorem Agree.trans (h₁ : Agree m m₁) (h₂ : Agree m₁ m') : Agree m m' := fun table idx j hj =>
  (h₂ table idx j hj).trans (h₁ table idx j hj)

/-- The condition on a call: if it clears a bit, the entry it finds is below 4 GB. -/
def bit_call.Low (m : raw_memory) (c : bit_call) : Prop :=
  c.flag = false → ∀ table, table_of m c.pml4 c.vpage = some table →
    (m.word table (PTX c.vpage)).toNat < 2 ^ 32

theorem agree_after_iff : Agree m (c.after m) ↔ c.Low m := by
  constructor
  · intro h hflag table htable
    rw [toNat_lt_iff]
    intro j hj
    have hf : ¬ Flag j := by
      unfold Flag
      omega
    have hbit := h table (PTX c.vpage) j hf
    rw [after_word, if_pos ⟨htable, rfl⟩, update_bits c _ hf, hflag, Bool.false_or,
      decide_eq_false (by omega), Bool.and_false] at hbit
    exact hbit.symm
  · intro h table idx j hj
    rw [after_word]
    split
    · rename_i hfound
      obtain ⟨htable, rfl⟩ := hfound
      rw [update_bits c _ hj]
      cases hflag : c.flag with
      | true => simp
      | false =>
          by_cases hlow : j < 32
          · simp [hlow]
          · have hzero := toNat_lt_iff.mp (h hflag table htable) j (by omega)
            rw [hzero]
            rfl
    · rfl

/-- A bit that is no flag is never set. -/
def Shrinks (m m' : raw_memory) : Prop :=
  ∀ table idx j, ¬ Flag j → (m'.word table idx).getLsbD j = true
    → (m.word table idx).getLsbD j = true

theorem shrinks_after (c : bit_call) (m : raw_memory) : Shrinks m (c.after m) := by
  intro table idx j hj hbit
  rw [after_word] at hbit
  split at hbit
  · rw [update_bits c _ hj] at hbit
    exact (Bool.and_eq_true_iff.mp hbit).1
  · exact hbit

theorem shrinks_run (cs : List bit_call) : ∀ {m m' : raw_memory}, bit_run cs m = .ok m' →
    Shrinks m m' := by
  induction cs with
  | nil =>
      intro m m' h
      obtain rfl := Outcome.ok.inj h
      exact fun _ _ _ _ => id
  | cons c cs ih =>
      intro m m' h
      rw [bit_run, bit_step_eq, Outcome.ok_bind] at h
      exact fun table idx j hj hbit => shrinks_after c m table idx j hj (ih h table idx j hj hbit)

/-- What is lost on the way is not found again, so both halves of the way have kept everything. -/
theorem Agree.split (h : Agree m m') (h₁ : Shrinks m m₁) (h₂ : Shrinks m₁ m') :
    Agree m m₁ ∧ Agree m₁ m' := by
  have hmid : Agree m m₁ := by
    intro table idx j hj
    apply Bool.eq_iff_iff.mpr
    refine ⟨h₁ table idx j hj, fun hbit => h₂ table idx j hj ?_⟩
    rw [h table idx j hj]
    exact hbit
  exact ⟨hmid, fun table idx j hj => (h table idx j hj).trans (hmid table idx j hj).symm⟩

end Agree

/-- Every call of a sequence that clears a bit finds an entry below 4 GB. -/
def LowAlong : List bit_call → raw_memory → Prop
  | [], _ => True
  | c :: cs, m => c.Low m ∧ LowAlong cs (c.after m)

/-- **Dirty and accessed updates.** For any entries and any sequence of calls: the mapping is as
before and only the two flags differ, if and only if no call clears a bit in an entry that has a
bit in its upper half. -/
theorem updates_preserve_iff (cs : List bit_call) (m : raw_memory) :
    ∃ m', bit_run cs m = .ok m' ∧ (Preserved m m' ↔ LowAlong cs m) := by
  induction cs generalizing m with
  | nil => exact ⟨m, rfl, preserved_iff.trans ⟨fun _ => trivial, fun _ => .refl⟩⟩
  | cons c cs ih =>
      obtain ⟨m', hrun, hiff⟩ := ih (c.after m)
      refine ⟨m', ?_, ?_⟩
      · rw [bit_run, bit_step_eq, Outcome.ok_bind, hrun]
      · rw [preserved_iff] at hiff ⊢
        constructor
        · intro h
          obtain ⟨hfirst, hrest⟩ := h.split (shrinks_after c m) (shrinks_run cs hrun)
          exact ⟨agree_after_iff.mp hfirst, hiff.mp hrest⟩
        · rintro ⟨hfirst, hrest⟩
          exact (agree_after_iff.mpr hfirst).trans (hiff.mpr hrest)

/-- Four tables, at the pages 1 to 4, and a user page at 4 GB. -/
def high_page : raw_memory where
  kernel_pool := { base := 1, page_cnt := 4, used_map := fun _ => true }
  user_pool := { base := 0x100000, page_cnt := 1, used_map := fun _ => true }
  word table idx :=
    if idx ≠ 0 then 0
    else if table = 1 then 0x2007 else if table = 2 then 0x3007 else if table = 3 then 0x4007
    else if table = 4 then 0x100000027 else 0
  base_pml4 := 9

/-- The clock clears the accessed bit of the page, and the address names page 0. -/
theorem accessed_moves_page :
    pml4_get_page high_page 1 0 = .ok (some (KERN_BASE + 2 ^ 32))
      ∧ ∃ m, bit_run [.set_accessed 1 0 false] high_page = .ok m
        ∧ pml4_get_page m 1 0 = .ok (some KERN_BASE) ∧ ¬ Preserved high_page m := by
  have hbefore : pml4_get_page high_page 1 0 = .ok (some (KERN_BASE + 2 ^ 32)) := by decide
  have hafter : pml4_get_page (bit_call.after (.set_accessed 1 0 false) high_page) 1 0
      = .ok (some KERN_BASE) := by decide
  refine ⟨hbefore, _, rfl, hafter, fun h => ?_⟩
  have hsame := h.get_page 1 0 (by decide)
  rw [hbefore] at hsame
  have hne := hafter.symm.trans hsame
  exact absurd hne (by decide)

end raw

end Pintos.mmu
