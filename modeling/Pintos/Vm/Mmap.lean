/-
`mmap`: which pages a mapping enters, and what they hold.

`sys_mmap` looks for pages in the way over the range that the caller asked for; `do_mmap` never
looks at that length and enters pages up to the end of the file, without checking whether
`vm_alloc_page_with_initializer` succeeded. The two ranges agree only if the file does.
-/
import Mathlib.Tactic.Linarith
import Mathlib.Tactic.Ring
import Pintos.Vm.DemandLoad
import Pintos.Vm.StackGrowth

set_option autoImplicit false

namespace Pintos

/-- `sys_mmap`, with what it returns: the address, or none for `MAP_FAILED`. -/
def sys_mmap_value (s : vm) (t addr length : ℕ) (writable : Bool) (file : ℕ) (offset : ℤ) :
    Outcome (Option ℕ × vm) := do
  let file_size ← file_length s.files file
  if mmap_checks s t addr length file_size offset then
    let s ← do_mmap s t addr writable file offset
    return (some addr, s)
  else return (none, s)

/-- `cur_offset` after `i` turns of the loop of `do_mmap`. -/
def offset_at : ℕ → ℤ → ℤ
  | 0, o => o
  | i + 1, o => offset_at i (i32 (o + PGSIZE))

/-- The page that turn `i` enters, never touched, in a mapping of `n` bytes. -/
def mapped_page (addr : ℕ) (writable : Bool) (file : ℕ) (o : ℤ) (n : ℕ) (c : ℤ) (i : ℕ) : page :=
  lazy_page (addr + i * PGSIZE) writable
    { init := some .lazy_load_segment, type := .VM_MMAP
      aux := .mmap (make_info file (offset_at i o) (min PGSIZE (n - i * PGSIZE))) (c + i)
      page_initializer := .file_backed_initializer }

theorem mapped_page_succ (addr : ℕ) (writable : Bool) (file : ℕ) (o : ℤ) (n : ℕ) (c : ℤ) (i : ℕ) :
    mapped_page addr writable file o n c (i + 1)
      = mapped_page (addr + PGSIZE) writable file (i32 (o + PGSIZE)) (n - PGSIZE) (c + 1) i := by
  have hva : addr + (i + 1) * PGSIZE = addr + PGSIZE + i * PGSIZE := by ring
  have hleft : n - (i + 1) * PGSIZE = n - PGSIZE - i * PGSIZE := by
    rw [Nat.sub_sub]
    congr 1
    ring
  have hcnt : c + ((i + 1 : ℕ) : ℤ) = c + 1 + (i : ℤ) := by omega
  unfold mapped_page
  rw [hva, hleft, hcnt, offset_at]

/-- Inside a file the offset does not wrap. -/
theorem offset_at_eq {n : ℕ} (hlt : n < 2 ^ 31) (i : ℕ) : ∀ {o : ℕ}, o + i * PGSIZE < n →
    offset_at i o = ((o + i * PGSIZE : ℕ) : ℤ) := by
  induction i with
  | zero =>
      intro o _
      rw [offset_at, Nat.zero_mul, Nat.add_zero]
  | succ i ih =>
      intro o h
      have hnext : o + (i + 1) * PGSIZE = o + PGSIZE + i * PGSIZE := by ring
      rw [hnext] at h ⊢
      have hi32 : i32 ((o : ℤ) + PGSIZE) = ((o + PGSIZE : ℕ) : ℤ) := by
        rw [i32_of_isI32, Nat.cast_add]
        unfold IsI32
        omega
      rw [offset_at, hi32]
      exact ih h

namespace vm

variable {s s' : vm} {t addr length file o : ℕ} {writable : Bool} {offset : ℤ} {b : List UInt8}

/-- The value is all that was added. -/
theorem sys_mmap_value_state (s : vm) (t addr length : ℕ) (writable : Bool) (file : ℕ)
    (offset : ℤ) : sys_mmap s t addr length writable file offset
      = sys_mmap_value s t addr length writable file offset >>= fun r => .ok r.2 := by
  unfold sys_mmap sys_mmap_value
  cases file_length s.files file with
  | ok file_size =>
      simp only [Outcome.ok_bind]
      split
      · cases do_mmap s t addr writable file offset <;> rfl
      · rfl
  | panic => rfl
  | undefined => rfl
  | diverge => rfl

/-- **The loop of `do_mmap`** enters the pages of the file, whatever the offset. -/
theorem mmap_loop_entered (t file : ℕ) (writable : Bool) (fuel : ℕ) :
    ∀ {s : vm} {n addr : ℕ} {o c : ℤ},
    s.Registered → pg_round_down addr = addr → n / PGSIZE < fuel → 0 ≤ c →
      c + (n / PGSIZE : ℕ) + 1 < 2 ^ 31 →
      ∃ s', mmap_loop t file writable fuel s n addr o c = .ok s'
        ∧ Entered s s' t addr (page_count n) (mapped_page addr writable file o n c) := by
  induction fuel with
  | zero =>
      intro s n addr o c _ _ hfuel
      exact absurd hfuel (Nat.not_lt_zero _)
  | succ fuel ih =>
      intro s n addr o c hr hround hfuel hc hcount
      rw [mmap_loop]
      by_cases hn : n = 0
      · rw [if_pos hn, hn, page_count_zero]
        exact ⟨s, rfl, .zero s t addr _⟩
      rw [if_neg hn]
      have hlen : (if n > PGSIZE then PGSIZE else n) = min PGSIZE n := by
        split <;> omega
      have hfirst : Entered s (vm_alloc_page_with_initializer s t .VM_MMAP addr writable
          (some .lazy_load_segment) (.mmap (make_info file o (min PGSIZE n)) c)).2 t addr 1
          (mapped_page addr writable file o n c) := by
        refine .alloc hr hround rfl ?_
        unfold mapped_page
        simp [offset_at]
      rw [hlen]
      dsimp only
      by_cases hlast : n < PGSIZE
      · rw [if_pos hlast, page_count_last (by omega) hlast]
        exact ⟨_, rfl, hfirst⟩
      · rw [if_neg hlast, page_count_step (by omega)]
        have hround' : pg_round_down (addr + PGSIZE) = addr + PGSIZE := by
          rw [pg_round_down_add_PGSIZE, hround]
        rw [Nat.div_eq_sub_div (by decide) (Nat.le_of_not_lt hlast)] at hfuel hcount
        have hfuel' : (n - PGSIZE) / PGSIZE < fuel := Nat.lt_of_succ_lt_succ hfuel
        have hcount' : c + 1 + ((n - PGSIZE) / PGSIZE : ℕ) + 1 < 2 ^ 31 := by
          rw [Nat.cast_succ] at hcount
          linarith
        have hc' : i32 (c + 1) = c + 1 := by
          have hq := Int.natCast_nonneg ((n - PGSIZE) / PGSIZE)
          apply i32_of_isI32
          unfold IsI32
          constructor
          · linarith
          · linarith
        rw [hc']
        obtain ⟨s', hrun, hrest⟩ := ih (hr.alloc hround) hround' hfuel' (by linarith) hcount'
        refine ⟨s', hrun, hfirst.cons ?_⟩
        have hshift : (fun i => mapped_page addr writable file o n c (i + 1))
            = mapped_page (addr + PGSIZE) writable file (i32 (o + PGSIZE))
            (n - PGSIZE) (c + 1) := by
          funext i
          exact mapped_page_succ addr writable file o n c i
        rw [hshift]
        exact hrest

/-- **`do_mmap`** enters the pages up to the end of the file, under a file of its own. -/
theorem do_mmap_entered (hr : s.Registered) (hround : pg_round_down addr = addr)
    (hrun : do_mmap s t addr writable file offset = .ok s') :
    ∃ file_size file' fs n, file_length s.files file = .ok file_size
      ∧ file_reopen s.files file = .ok (file', fs) ∧ n = (i32 (file_size - offset)).toNat
      ∧ Entered (s.set_files fs) s' t addr (page_count n)
      (mapped_page addr writable file' offset n 0) := by
  unfold do_mmap at hrun
  obtain ⟨file_size, hsize, hrun⟩ := Outcome.bind_eq_ok.mp hrun
  obtain ⟨⟨file', fs⟩, hreopen, hrun⟩ := Outcome.bind_eq_ok.mp hrun
  refine ⟨file_size, file', fs, _, hsize, hreopen, rfl, ?_⟩
  dsimp only at hrun
  generalize hn : (i32 (file_size - offset)).toNat = n at hrun ⊢
  have hlt : n < 2 ^ 31 := by
    have := (isI32_i32 (file_size - offset)).2
    omega
  have hdiv : n / PGSIZE ≤ 2 ^ 19 := by
    rw [Nat.div_le_iff_le_mul (by decide)]
    unfold PGSIZE
    omega
  have hcount : (0 : ℤ) + (n / PGSIZE : ℕ) + 1 < 2 ^ 31 := by
    have hcast : ((n / PGSIZE : ℕ) : ℤ) ≤ 2 ^ 19 := by exact_mod_cast hdiv
    linarith
  obtain ⟨s₁, hloop, hentered⟩ := mmap_loop_entered t file' writable (n / PGSIZE + 2) (o := offset)
    (s := s.set_files fs) (hr.congr (fun _ _ => rfl) (fun _ => rfl) rfl rfl fun t ht => ht) hround
    (Nat.lt_add_of_pos_right Nat.two_pos) le_rfl hcount
  rw [hloop] at hrun
  obtain rfl := Outcome.ok.inj hrun
  exact hentered

/-- The same for a file whose bytes are known, at an offset that is not negative. -/
theorem do_mmap_file (hr : s.Registered) (hround : pg_round_down addr = addr)
    (hb : FileHas s.files file b) (ho : o < 2 ^ 31)
    (hrun : do_mmap s t addr writable file (o : ℕ) = .ok s') :
    ∃ file' fs, FileHas s'.files file' b ∧ Entered (s.set_files fs) s' t addr
      (page_count (b.length - o)) (mapped_page addr writable file' o (b.length - o) 0) := by
  have hlt := hb.length_lt
  obtain ⟨file_size, file', fs, n, hsize, hreopen, hn, hentered⟩ := do_mmap_entered hr hround hrun
  rw [hb.length_eq] at hsize
  obtain rfl := Outcome.ok.inj hsize
  have hlen : (i32 ((b.length : ℤ) - o)).toNat = b.length - o := by
    rw [i32_of_isI32 (by unfold IsI32; omega)]
    omega
  rw [hlen] at hn
  subst hn
  obtain ⟨f, fs', hreopen', hb'⟩ := hb.reopen
  rw [hreopen] at hreopen'
  obtain ⟨rfl, rfl⟩ := Outcome.ok_pair hreopen'
  refine ⟨file', fs, ?_, hentered⟩
  rw [hentered.files]
  exact hb'

/-- **`mmap` maps what was asked for**: page by page the range, nothing else, with the bytes of the
file from `offset` on and zeros behind its end. -/
structure MapsExactly (s s' : vm) (t addr length : ℕ) (offset : ℤ) (b : List UInt8) : Prop where
  gained : ∀ t' va, (s.page_at t' va = none ∧ s'.page_at t' va ≠ none)
    ↔ t' = t ∧ ∃ i < page_count length, va = addr + i * PGSIZE
  user : ∀ i < page_count length, addr + i * PGSIZE < KERN_BASE
  kept : ∀ t' va p, s.page_at t' va = some p → s'.page_at t' va = some p ∧ s'.page p = s.page p
  contents : ∃ o : ℕ, offset = o ∧ ∀ i < page_count length,
    DemandLoads s' t (addr + i * PGSIZE) b fun j => b.getD (o + i * PGSIZE + j) 0

/-- What a call has to do: for `MAP_FAILED`, nothing. -/
def MmapOk (s : vm) (t addr length : ℕ) (offset : ℤ) (b : List UInt8) : Option ℕ × vm → Prop
  | (none, s') => ∀ t' va, s'.page_at t' va = s.page_at t' va
  | (some a, s') => a = addr ∧ MapsExactly s s' t addr length offset b

/-- The file reaches over the range, up to pages that are there already, and the range ends below
the kernel. -/
def FileFits (s : vm) (t addr length : ℕ) (offset : ℤ) (b : List UInt8) : Prop :=
  0 ≤ offset ∧ addr + length ≤ KERN_BASE
    ∧ page_count length ≤ page_count (b.length - offset.toNat)
    ∧ ∀ i, page_count length ≤ i → i < page_count (b.length - offset.toNat) →
      s.page_at t (addr + i * PGSIZE) ≠ none

/-- The checks that were passed. -/
theorem mmap_checks_true {file_size : ℤ} (h : mmap_checks s t addr length file_size offset = true) :
    pg_round_down addr = addr ∧ 0 < length ∧ addr < KERN_BASE
      ∧ ∀ i < page_count length, s.page_at t (addr + i * PGSIZE) = none := by
  unfold mmap_checks at h
  rw [Bool.and_eq_true, decide_eq_true_iff, List.all_eq_true] at h
  obtain ⟨⟨-, hlen, -, -, halign, -, huser⟩, hfree⟩ := h
  have hround : ∀ i, pg_round_down (addr + i * PGSIZE) = addr + i * PGSIZE := by
    intro i
    unfold pg_round_down PGSIZE at *
    omega
  refine ⟨?_, Nat.pos_of_ne_zero hlen, huser, fun i hi => ?_⟩
  · have hzero := hround 0
    rw [Nat.zero_mul, Nat.add_zero] at hzero
    exact hzero
  · have hmem : i ∈ List.range ((pg_round_up (addr + length) - addr) / PGSIZE) := by
      rw [List.mem_range]
      rw [lt_page_count] at hi
      unfold pg_round_up PGSIZE at *
      omega
    have hnone := hfree i hmem
    unfold spt_find_page at hnone
    rw [hround] at hnone
    exact Option.isNone_iff_eq_none.mp hnone

/-- Page `i` of a mapping waits for its part of the file. -/
theorem mapped_page_awaits (addr : ℕ) (writable : Bool) (file : ℕ) {n : ℕ} (c : ℤ) {i : ℕ}
    (hlt : o + n < 2 ^ 31) (hi : i * PGSIZE < n) :
    Awaits file (o + i * PGSIZE) (min PGSIZE (n - i * PGSIZE))
      (mapped_page addr writable file o n c i).kind := by
  refine .mmap rfl (offset_at_eq hlt i (by omega)) rfl ?_
  show min PGSIZE (n - i * PGSIZE) + (PGSIZE + 2 ^ 64 - min PGSIZE (n - i * PGSIZE)) %
    2 ^ 64 = PGSIZE
  have hle : min PGSIZE (n - i * PGSIZE) ≤ PGSIZE := Nat.min_le_left _ _
  generalize min PGSIZE (n - i * PGSIZE) = r at hle
  unfold PGSIZE at *
  omega

theorem page_addr_inj {i j : ℕ} (h : addr + i * PGSIZE = addr + j * PGSIZE) : i = j :=
  Nat.eq_of_mul_eq_mul_right (by decide) (Nat.add_left_cancel h)

/-- The last page of a range ends below the kernel when it starts there. -/
theorem range_below_kernel (hround : pg_round_down addr = addr) :
    (∀ i < page_count length, addr + i * PGSIZE < KERN_BASE) ↔ length = 0
    ∨ addr + length ≤ KERN_BASE := by
  have halign : addr % 4096 = 0 := by
    unfold pg_round_down PGSIZE at hround
    omega
  constructor
  · intro h
    by_cases hzero : length = 0
    · exact .inl hzero
    have hlast := h (page_count length - 1)
    rw [lt_page_count] at hlast
    unfold page_count PGSIZE KERN_BASE at *
    omega
  · intro h i hi
    rw [lt_page_count] at hi
    unfold PGSIZE KERN_BASE at *
    omega

/-- The mapping is exact. -/
theorem maps_exactly_of_fits {file' : ℕ} {fs : filesys} (hr : s.Registered)
    (hround : pg_round_down addr = addr)
    (hfree : ∀ i < page_count length, s.page_at t (addr + i * PGSIZE) = none)
    (hb : FileHas s'.files file' b) (h : Entered (s.set_files fs) s' t addr
      (page_count (b.length - o)) (mapped_page addr writable file' o (b.length - o) 0))
    (hfits : FileFits s t addr length o b) : MapsExactly s s' t addr length o b := by
  obtain ⟨-, huser, hreach, hthere⟩ := hfits
  rw [Int.toNat_natCast] at hreach hthere
  have hbelow := (range_below_kernel hround).mpr (.inr huser)
  refine ⟨fun t' va => ⟨?_, ?_⟩, hbelow, fun t' va p hp => ⟨h.old hp, ?_⟩, o, rfl, fun i hi => ?_⟩
  · rintro ⟨hnone, hsome⟩
    by_contra hout
    by_cases hin : t' = t ∧ ∃ i < page_count (b.length - o), va = addr + i * PGSIZE
    · -- a page of the file behind the range was there before
      obtain ⟨rfl, i, hi, rfl⟩ := hin
      refine hthere i (Nat.le_of_not_lt fun hlt => hout ⟨rfl, i, hlt, rfl⟩) hi hnone
    · exact hsome ((h.outside hin).trans hnone)
  · rintro ⟨rfl, i, hi, rfl⟩
    obtain ⟨p, hp, -⟩ := h.inside i (Nat.lt_of_lt_of_le hi hreach) (hfree i hi)
    exact ⟨hfree i hi, by rw [hp]; exact Option.some_ne_none p⟩
  · obtain ⟨pg, hpg, -⟩ := hr.page hp
    rw [hpg]
    exact h.page hpg
  · obtain ⟨p, hp, hpg⟩ := h.inside i (Nat.lt_of_lt_of_le hi hreach) (hfree i hi)
    have hlt := lt_page_count.mp (Nat.lt_of_lt_of_le hi hreach)
    have hround' : pg_round_down (addr + i * PGSIZE) = addr + i * PGSIZE := by
      unfold pg_round_down PGSIZE at *
      omega
    have hlen : o + (b.length - o) < 2 ^ 31 := by
      have := hb.length_lt
      omega
    have hfit : o + i * PGSIZE + min PGSIZE (b.length - o - i * PGSIZE) ≤ b.length := by omega
    have hloads := Awaits.demandLoads (mapped_page_awaits addr writable file' 0 hlen hlt) hp hpg rfl
      hb hfit hround' (hbelow i hi)
    refine hloads.congr fun j hj => ?_
    unfold loaded_byte
    split
    · rfl
    · rw [List.getD_eq_default _ _ (by omega)]

/-- **`mmap` maps exactly what was asked for** when the file fits the range, and then only; a call
that fails changes no table. -/
theorem mmap_exact_iff (hr : s.Registered) (hb : FileHas s.files file b) (ho : IsI32 offset)
    {r : Option ℕ × vm} (hrun : sys_mmap_value s t addr length writable file offset = .ok r) :
    MmapOk s t addr length offset b r
      ↔ (mmap_checks s t addr length b.length offset = true
        → FileFits s t addr length offset b) := by
  unfold sys_mmap_value at hrun
  rw [hb.length_eq, Outcome.ok_bind] at hrun
  by_cases hchecks : mmap_checks s t addr length b.length offset = true
  · rw [if_pos hchecks] at hrun
    obtain ⟨s', hdo, hrun⟩ := Outcome.bind_eq_ok.mp hrun
    obtain rfl := Outcome.ok.inj hrun
    obtain ⟨hround, hlen, haddr, hfree⟩ := mmap_checks_true hchecks
    have hpos : 0 < page_count length := lt_page_count.mpr (by omega)
    constructor
    · rintro ⟨-, hexact⟩ -
      obtain ⟨o, rfl, -⟩ := hexact.contents
      have ho' : o < 2 ^ 31 := Int.ofNat_lt.mp ho.2
      obtain ⟨file', fs, -, hentered⟩ := do_mmap_file hr hround hb ho' hdo
      have hlast := (range_below_kernel hround).mp hexact.user
      refine ⟨Int.natCast_nonneg o, hlast.resolve_left (by omega), ?_, fun i hge hlt hnone => ?_⟩
      · by_contra hshort
        rw [Int.toNat_natCast] at hshort
        have hi : page_count length - 1 < page_count length := Nat.sub_lt hpos Nat.zero_lt_one
        refine ((hexact.gained t _).mpr ⟨rfl, _, hi, rfl⟩).2
          ((hentered.outside ?_).trans (hfree _ hi))
        rintro ⟨-, j, hj, heq⟩
        have := page_addr_inj heq
        omega
      · rw [Int.toNat_natCast] at hlt
        obtain ⟨p, hp, -⟩ := hentered.inside i hlt hnone
        obtain ⟨-, j, hj, heq⟩ := (hexact.gained t _).mp
          ⟨hnone, by rw [hp]; exact Option.some_ne_none p⟩
        have := page_addr_inj heq
        omega
    · intro hfits
      have hfits := hfits hchecks
      obtain ⟨o, rfl⟩ := Int.eq_ofNat_of_zero_le hfits.1
      obtain ⟨file', fs, hb', hentered⟩ := do_mmap_file hr hround hb (Int.ofNat_lt.mp ho.2) hdo
      exact ⟨rfl, maps_exactly_of_fits hr hround hfree hb' hentered hfits⟩
  · rw [if_neg hchecks] at hrun
    obtain rfl := Outcome.ok.inj hrun
    exact ⟨fun _ h => absurd h hchecks, fun _ _ _ => rfl⟩

/-! ## A file of one page, and one of two -/

/-- A process with nothing mapped, and an open file of 100 zeros. -/
def file_machine : vm :=
  { fresh_stack USER_STACK with
    proc := fun t => { process.empty with alive := t = 0 }
    files :=
      { disk := blank_disk
        fat := one_cluster_fat
        inode := fun i => if i = 0 then some (one_cluster_inode 100) else none
        next_inode := 1
        open_inodes := [0]
        file := fun f =>
          if f = 0 then some { inode := 0, pos := 0, deny_write := false, dup_count := 1 } else none
        next_file := 1 } }

theorem file_machine_alive (t : ℕ) (ht : (file_machine.proc t).alive = true) : t < 1 := by
  have hzero : t = 0 := of_decide_eq_true ht
  rw [hzero]
  exact Nat.zero_lt_one

theorem file_machine_registered : file_machine.Registered :=
  .of_no_page (fun _ _ => rfl) (fun _ => rfl) file_machine_alive

theorem file_machine_has : FileHas file_machine.files 0 (List.replicate 100 0) := by
  have hback := (one_cluster_covered 100 (by decide) (by decide)).backed (by decide)
  refine ⟨_, _, [2], rfl, rfl, hback, ?_⟩
  apply List.ext_getElem?
  intro k
  rw [getElem?_file_contents, List.getElem?_replicate]
  rfl

/-- The file has 5000 bytes, in the clusters from 2 to 11. -/
def two_page_machine : vm :=
  { file_machine with
    files := { file_machine.files with
      disk := { blank_disk with capacity := 32 }
      fat := { one_cluster_fat with
        bs := { one_cluster_fat.bs with total_sectors := 32 }
        fat := fun k => if k < 2 then EOChain else if k < 11 then k + 1
          else if k < 13 then EOChain else 0
        fat_length := 16
        last_clst := 12 }
      inode := fun i => if i = 0 then some
        { one_cluster_inode 5000 with sector := 13 } else none } }

theorem two_page_machine_registered : two_page_machine.Registered :=
  .of_no_page (fun _ _ => rfl) (fun _ => rfl) file_machine_alive

theorem two_page_machine_has : FileHas two_page_machine.files 0 (List.replicate 5000 0) := by
  have hback : Backed two_page_machine.files.disk two_page_machine.files.fat
      { one_cluster_inode 5000 with sector := 13 } [2, 3, 4, 5, 6, 7, 8, 9, 10, 11] :=
    { geometry := ⟨by decide, by decide, by decide, by decide⟩
      chain := .inr ⟨by decide, show Path two_page_machine.files.fat.fat 2
        [2, 3, 4, 5, 6, 7, 8, 9, 10, 11] EOChain by decide, by decide⟩
      length_nonneg := by decide
      length_lt := by decide
      covers := by decide
      on_disk := by decide
      inode_on_disk := by decide
      apart := by decide }
  refine ⟨_, _, [2, 3, 4, 5, 6, 7, 8, 9, 10, 11], rfl, rfl, hback, ?_⟩
  apply List.ext_getElem?
  intro k
  rw [getElem?_file_contents, List.getElem?_replicate]
  rfl

/-- Both pages of that file are mapped where they should be. -/
theorem two_pages_mapped : ∃ r, sys_mmap_value two_page_machine 0 0x10000000 5000 true 0 0 = .ok r
    ∧ MmapOk two_page_machine 0 0x10000000 5000 0 (List.replicate 5000 0) r := by
  obtain ⟨r, hr⟩ : ∃ r, sys_mmap_value two_page_machine 0 0x10000000 5000 true 0 0 = .ok r :=
    ⟨_, rfl⟩
  refine ⟨r, hr, (mmap_exact_iff two_page_machine_registered two_page_machine_has (by decide)
    hr).mpr fun _ => ?_⟩
  rw [FileFits, List.length_replicate]
  exact ⟨le_rfl, by decide, by decide, fun i hge hlt => absurd hlt (Nat.not_lt_of_le hge)⟩

/-- Two pages are asked for, and one is mapped. -/
theorem second_page_missing : ∃ s', sys_mmap_value file_machine 0 0x10000000 8192 true 0 0
      = .ok (some 0x10000000, s')
    ∧ ¬ MmapOk file_machine 0 0x10000000 8192 0 (List.replicate 100 0) (some 0x10000000, s') := by
  obtain ⟨s', hs', hnone⟩ : ∃ s', sys_mmap_value file_machine 0 0x10000000 8192 true 0 0
      = .ok (some 0x10000000, s') ∧ s'.page_at 0 (0x10000000 + 1 * PGSIZE) = none := ⟨_, rfl, rfl⟩
  refine ⟨s', hs', ?_⟩
  rintro ⟨-, hexact⟩
  exact ((hexact.gained 0 _).mpr ⟨rfl, 1, by decide, rfl⟩).2 hnone

end vm

end Pintos
