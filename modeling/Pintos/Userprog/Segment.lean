/-
Segments of an executable: which headers are accepted, and what `load_segment` makes of them.

A header is checked in 64 bits, against the end of the user address space, which lies above 2 ^ 39.
`load` then computes how much to read and how much to zero in 32 bits, and gives the position in
the file to `load_segment` as an `off_t`. `load_segment` itself reads nothing: it enters one page
after the other with a record of what to read, and `lazy_load_segment` reads it on the first fault.
-/
import Mathlib.Tactic.Ring
import Pintos.Vm.Backing
import Pintos.Vm.Mmap

set_option autoImplicit false

namespace Pintos

/-! ## Headers -/

/-- `struct Phdr`, for a segment `PT_LOAD`. -/
structure Phdr where
  p_flags : ℕ
  p_offset : ℕ
  p_vaddr : ℕ
  p_filesz : ℕ
  p_memsz : ℕ
  flags_lt : p_flags < 2 ^ 32
  offset_lt : p_offset < 2 ^ 64
  vaddr_lt : p_vaddr < 2 ^ 64
  filesz_lt : p_filesz < 2 ^ 64
  memsz_lt : p_memsz < 2 ^ 64

/-- `(uint64_t) file_length (file)`. -/
def u64_of_off (length : ℤ) : ℕ := (length % 2 ^ 64).toNat

/-- `validate_segment`, for a file of this length. -/
def validate_segment (phdr : Phdr) (length : ℤ) : Bool :=
  if phdr.p_offset % PGSIZE ≠ phdr.p_vaddr % PGSIZE then false
  else if phdr.p_offset > u64_of_off length then false
  else if phdr.p_memsz < phdr.p_filesz then false
  else if phdr.p_memsz = 0 then false
  else if ¬ phdr.p_vaddr < KERN_BASE then false
  else if ¬ (phdr.p_vaddr + phdr.p_memsz) % 2 ^ 64 < KERN_BASE then false
  else if (phdr.p_vaddr + phdr.p_memsz) % 2 ^ 64 < phdr.p_vaddr then false
  else if phdr.p_vaddr < PGSIZE then false
  else true

/-- `ROUND_UP (x, PGSIZE)`, in 64 bits. -/
def round_up_64 (x : ℕ) : ℕ := (x + PGSIZE - 1) % 2 ^ 64 / PGSIZE * PGSIZE

namespace Phdr

/-- `file_page`, as it is computed. -/
def file_page (phdr : Phdr) : ℕ := pg_round_down phdr.p_offset

def mem_page (phdr : Phdr) : ℕ := pg_round_down phdr.p_vaddr

def page_offset (phdr : Phdr) : ℕ := pg_ofs phdr.p_vaddr

/-- `file_page` as the argument `ofs` of `load_segment`. -/
def ofs (phdr : Phdr) : ℤ := i32 phdr.file_page

def read_bytes (phdr : Phdr) : ℕ :=
  if phdr.p_filesz > 0 then (phdr.page_offset + phdr.p_filesz) % 2 ^ 64 % 2 ^ 32 else 0

def zero_bytes (phdr : Phdr) : ℕ :=
  let rounded := round_up_64 ((phdr.page_offset + phdr.p_memsz) % 2 ^ 64)
  if phdr.p_filesz > 0 then (rounded + 2 ^ 64 - phdr.read_bytes) % 2 ^ 64 % 2 ^ 32
  else rounded % 2 ^ 32

/-- The bytes of its pages that come from the file. -/
def file_bytes (phdr : Phdr) : ℕ := if phdr.p_filesz
    > 0 then phdr.page_offset + phdr.p_filesz else 0

/-- How many pages it takes. -/
def pages (phdr : Phdr) : ℕ := vm.page_count (phdr.page_offset + phdr.p_memsz)

/-- The numbers that `load` passes on are what they stand for. -/
structure Exact (phdr : Phdr) : Prop where
  read : phdr.read_bytes = phdr.file_bytes
  zero : phdr.zero_bytes = phdr.pages * PGSIZE - phdr.file_bytes
  ofs : phdr.ofs = phdr.file_page
  size : phdr.read_bytes + phdr.zero_bytes = phdr.pages * PGSIZE

/-- They fit the types they are passed in. -/
def Fits (phdr : Phdr) : Prop :=
  phdr.file_bytes < 2 ^ 32 ∧ phdr.pages * PGSIZE - phdr.file_bytes < 2 ^ 32
    ∧ phdr.file_page < 2 ^ 31

instance (phdr : Phdr) : Decidable phdr.Fits := inferInstanceAs (Decidable (_ ∧ _ ∧ _))

end Phdr

section Headers

variable {phdr : Phdr} {length : ℤ}

/-- A header that was accepted. -/
structure Phdr.Accepted (phdr : Phdr) (length : ℤ) : Prop where
  same_offset : phdr.p_offset % PGSIZE = phdr.p_vaddr % PGSIZE
  in_file : phdr.p_offset ≤ u64_of_off length
  filesz_le : phdr.p_filesz ≤ phdr.p_memsz
  nonempty : 0 < phdr.p_memsz
  user : phdr.p_vaddr + phdr.p_memsz < KERN_BASE
  not_zero : PGSIZE ≤ phdr.p_vaddr

theorem accepted_of_validate (h : validate_segment phdr length = true) : phdr.Accepted length := by
  have hvaddr := phdr.vaddr_lt
  have hmemsz := phdr.memsz_lt
  unfold validate_segment at h
  repeat' split at h
  all_goals cases h
  rename_i hsame hin hle hzero huser hend hwrap hfirst
  refine ⟨not_not.mp hsame, Nat.le_of_not_lt hin, Nat.le_of_not_lt hle,
    Nat.pos_of_ne_zero hzero, ?_, Nat.le_of_not_lt hfirst⟩
  unfold KERN_BASE at *
  omega

theorem Phdr.Accepted.size_le (h : phdr.Accepted length) :
    phdr.page_offset + phdr.p_memsz < KERN_BASE ∧ phdr.pages * PGSIZE ≤ KERN_BASE
      ∧ phdr.file_bytes ≤ phdr.page_offset + phdr.p_memsz
      ∧ phdr.page_offset + phdr.p_memsz ≤ phdr.pages * PGSIZE := by
  have huser := h.user
  have hle := h.filesz_le
  have hofs : phdr.page_offset ≤ phdr.p_vaddr := Nat.mod_le _ _
  have hbytes : phdr.file_bytes ≤ phdr.page_offset + phdr.p_filesz := by
    unfold Phdr.file_bytes
    split
    · exact le_rfl
    · exact Nat.zero_le _
  unfold Phdr.pages vm.page_count KERN_BASE PGSIZE at *
  omega

/-- The rounded size does not wrap. -/
theorem Phdr.Accepted.rounded (h : phdr.Accepted length) :
    round_up_64 ((phdr.page_offset + phdr.p_memsz) % 2 ^ 64) = phdr.pages * PGSIZE := by
  obtain ⟨hlt, -⟩ := h.size_le
  unfold KERN_BASE at hlt
  have hmod : (phdr.page_offset + phdr.p_memsz) % 2 ^ 64 = phdr.page_offset + phdr.p_memsz :=
    Nat.mod_eq_of_lt (by omega)
  have hmod' : (phdr.page_offset + phdr.p_memsz + PGSIZE - 1) % 2 ^ 64
      = phdr.page_offset + phdr.p_memsz + PGSIZE - 1 := by
    apply Nat.mod_eq_of_lt
    unfold PGSIZE
    omega
  unfold round_up_64
  rw [hmod, hmod']
  rfl

/-- What `load` computes: the numbers, each cut to 32 bits. -/
theorem Phdr.Accepted.read_bytes_eq (h : phdr.Accepted length) :
    phdr.read_bytes = phdr.file_bytes % 2 ^ 32 := by
  obtain ⟨hlt, -, hle, -⟩ := h.size_le
  unfold Phdr.read_bytes Phdr.file_bytes at *
  unfold KERN_BASE at hlt
  split
  · rename_i hpos
    rw [if_pos hpos] at hle
    rw [Nat.mod_eq_of_lt (by omega : _ < 2 ^ 64)]
  · rfl

theorem Phdr.Accepted.zero_bytes_eq (h : Accepted phdr length) (hread : phdr.file_bytes < 2 ^ 32) :
    phdr.zero_bytes = (phdr.pages * PGSIZE - phdr.file_bytes) % 2 ^ 32 := by
  obtain ⟨-, hlt, hle, hle'⟩ := h.size_le
  have hrb : phdr.read_bytes = phdr.file_bytes := h.read_bytes_eq.trans (Nat.mod_eq_of_lt hread)
  unfold Phdr.zero_bytes
  rw [h.rounded]
  unfold KERN_BASE at hlt
  dsimp only
  split
  · rw [hrb]
    congr 1
    omega
  · rename_i hzero
    have hbytes : phdr.file_bytes = 0 := if_neg hzero
    rw [hbytes, Nat.sub_zero]

/-- **A header that was accepted is passed on exactly** if its numbers fit 32 bits, and then
only. -/
theorem narrowed_exact_iff (hvalid : validate_segment phdr length = true) :
    phdr.Exact ↔ phdr.Fits := by
  have h := accepted_of_validate hvalid
  obtain ⟨-, -, hle, hle'⟩ := h.size_le
  constructor
  · intro hexact
    have hread : phdr.file_bytes < 2 ^ 32 := by
      have heq := hexact.read
      rw [h.read_bytes_eq] at heq
      omega
    refine ⟨hread, ?_, ?_⟩
    · have heq := hexact.zero
      rw [h.zero_bytes_eq hread] at heq
      omega
    · have heq := hexact.ofs
      have hword := (isI32_i32 (phdr.file_page : ℤ)).2
      unfold Phdr.ofs at heq
      omega
  · rintro ⟨hread, hzero, hpage⟩
    have hread' : phdr.read_bytes = phdr.file_bytes :=
      h.read_bytes_eq.trans (Nat.mod_eq_of_lt hread)
    have hzero' : phdr.zero_bytes = phdr.pages * PGSIZE - phdr.file_bytes :=
      (h.zero_bytes_eq hread).trans (Nat.mod_eq_of_lt hzero)
    refine ⟨hread', hzero', ?_, ?_⟩
    · apply i32_of_isI32
      unfold IsI32
      omega
    · rw [hread', hzero']
      omega

/-- Where the pages of the file and of memory start alike. -/
theorem Phdr.Accepted.file_page_add (h : phdr.Accepted length) :
    phdr.file_page + phdr.page_offset = phdr.p_offset := by
  have hsame := h.same_offset
  have hle := Nat.mod_le phdr.p_offset PGSIZE
  unfold Phdr.file_page Phdr.page_offset pg_round_down pg_ofs
  rw [← hsame]
  exact Nat.sub_add_cancel hle

/-- What is read of the file lies inside of it. -/
theorem Phdr.Accepted.file_bytes_le (h : phdr.Accepted length) {n : ℕ}
    (hbytes : phdr.p_offset + phdr.p_filesz ≤ n) : phdr.file_page + phdr.file_bytes ≤ n := by
  have hpage := h.file_page_add
  unfold Phdr.file_bytes
  split <;> omega

/-- Byte `i` of the segment, as byte `j` of its page `k`. -/
theorem Phdr.Accepted.loaded_byte (h : phdr.Accepted length) {b : List UInt8} {i j k : ℕ}
    (hj : j < PGSIZE) (hi : phdr.page_offset + i = k * PGSIZE + j) :
    loaded_byte b (phdr.file_page + min phdr.file_bytes (k * PGSIZE))
        (min PGSIZE (phdr.file_bytes - k * PGSIZE)) j
      = if i < phdr.p_filesz then b.getD (phdr.p_offset + i) 0 else 0 := by
  have hpage := h.file_page_add
  have hin : j < min PGSIZE (phdr.file_bytes - k * PGSIZE) ↔ i < phdr.p_filesz := by
    rw [Nat.lt_min]
    unfold Phdr.file_bytes
    split <;> omega
  unfold Pintos.loaded_byte
  by_cases hlt : i < phdr.p_filesz
  · rw [if_pos (hin.mpr hlt), if_pos hlt]
    have hbytes : phdr.file_bytes = phdr.page_offset + phdr.p_filesz := if_pos (by omega)
    congr 1
    rw [Nat.min_eq_right (by omega)]
    omega
  · rw [if_neg fun hj => hlt (hin.mp hj), if_neg hlt]

/-- 50 bytes of a file and zeros behind them, on two pages. -/
def small_phdr : Phdr where
  p_flags := 6
  p_offset := 0x10
  p_vaddr := 0x400010
  p_filesz := 50
  p_memsz := 4096
  flags_lt := by decide
  offset_lt := by decide
  vaddr_lt := by decide
  filesz_lt := by decide
  memsz_lt := by decide

theorem small_phdr_exact : validate_segment small_phdr 100 = true ∧ small_phdr.Exact :=
  ⟨by decide, (narrowed_exact_iff (by decide : validate_segment small_phdr 100 = true)).mpr (by decide)⟩

/-- 4 GiB of zeros: none is left of them in 32 bits. -/
def large_phdr : Phdr where
  p_flags := 6
  p_offset := 0
  p_vaddr := 0x400000
  p_filesz := 0
  p_memsz := 2 ^ 32
  flags_lt := by decide
  offset_lt := by decide
  vaddr_lt := by decide
  filesz_lt := by decide
  memsz_lt := by decide

theorem large_phdr_truncated : validate_segment large_phdr 0x2000 = true ∧ large_phdr.zero_bytes = 0
    ∧ ¬ large_phdr.Exact := by
  refine ⟨by decide, by decide, fun h => ?_⟩
  have hzero := h.zero
  revert hzero
  decide

end Headers

/-! ## `load_segment` -/

/-- The loop of `load_segment`. -/
def load_segment_loop (t file : ℕ) (writable : Bool) :
    ℕ → vm → ℤ → ℕ → ℕ → ℕ → Outcome (Bool × vm)
  | 0, _, _, _, _, _ => .diverge
  | fuel + 1, s, ofs, upage, read_bytes, zero_bytes =>
      if read_bytes > 0 ∨ zero_bytes > 0 then do
        let page_read_bytes := if read_bytes < PGSIZE then read_bytes else PGSIZE
        let page_zero_bytes := PGSIZE - page_read_bytes
        let (reopen_file, fs) ← file_reopen s.files file
        let aux : aux_ptr := .info { file := reopen_file, offset := ofs, readbyte := page_read_bytes
                                     zerobyte := page_zero_bytes }
        let (done, s) := vm_alloc_page_with_initializer (s.set_files fs) t .VM_ANON upage writable
          (some .lazy_load_segment) aux
        if done then
          load_segment_loop t file writable fuel s (i32 (ofs + page_read_bytes)) (upage + PGSIZE)
            (read_bytes - page_read_bytes) ((zero_bytes + 2 ^ 32 - page_zero_bytes) % 2 ^ 32)
        else return (false, s)
      else return (true, s)

/-- `load_segment`. -/
def load_segment (s : vm) (t file : ℕ) (ofs : ℤ) (upage read_bytes zero_bytes : ℕ)
    (writable : Bool) : Outcome (Bool × vm) := do
  Outcome.assert ((read_bytes + zero_bytes) % 2 ^ 32 % PGSIZE = 0)
  Outcome.assert (pg_ofs upage = 0)
  Outcome.assert (ofs.tmod PGSIZE = 0)
  load_segment_loop t file writable ((read_bytes + zero_bytes) / PGSIZE + 1) s ofs upage read_bytes
    zero_bytes

/-- `load`, the case `PT_LOAD`. -/
def load_phdr (s : vm) (t file : ℕ) (phdr : Phdr) : Outcome (Bool × vm) := do
  let length ← file_length s.files file
  if validate_segment phdr length then
    let writable := decide (phdr.p_flags / 2 % 2 = 1)
    load_segment s t file phdr.ofs phdr.mem_page phdr.read_bytes phdr.zero_bytes writable
  else return (false, s)

namespace vm

variable {s s' : vm} {t file upage read_bytes zero_bytes o : ℕ} {b : List UInt8}

/-- The page that turn `i` enters. -/
def segment_page (upage : ℕ) (writable : Bool) (f : ℕ → ℕ) (o read_bytes i : ℕ) : Pintos.page :=
  lazy_page (upage + i * PGSIZE) writable
    { init := some .lazy_load_segment, type := .VM_ANON
      aux := .info { file := f i, offset := ((o + min read_bytes (i * PGSIZE) : ℕ) : ℤ)
                     readbyte := min PGSIZE (read_bytes - i * PGSIZE)
                     zerobyte := PGSIZE - min PGSIZE (read_bytes - i * PGSIZE) }
      page_initializer := .anon_initializer }

theorem segment_page_succ (upage : ℕ) (writable : Bool) (f : ℕ → ℕ) (o read_bytes i : ℕ) :
    segment_page upage writable f o read_bytes (i + 1)
      = segment_page (upage + PGSIZE) writable (fun i => f (i + 1)) (o + min read_bytes PGSIZE)
          (read_bytes - PGSIZE) i := by
  have hva : upage + (i + 1) * PGSIZE = upage + PGSIZE + i * PGSIZE := by ring
  have hleft : read_bytes - (i + 1) * PGSIZE = read_bytes - PGSIZE - i * PGSIZE := by
    rw [Nat.sub_sub]
    congr 1
    ring
  have hofs : o + min read_bytes ((i + 1) * PGSIZE)
      = o + min read_bytes PGSIZE + min (read_bytes - PGSIZE) (i * PGSIZE) := by
    unfold PGSIZE
    omega
  unfold segment_page
  rw [hva, hleft, hofs]

theorem segment_page_awaits (upage : ℕ) (writable : Bool) (f : ℕ → ℕ) (o read_bytes i : ℕ) :
    Awaits (f i) (o + min read_bytes (i * PGSIZE)) (min PGSIZE (read_bytes - i * PGSIZE))
      (segment_page upage writable f o read_bytes i).kind :=
  .anon rfl rfl rfl (Nat.add_sub_cancel' (Nat.min_le_left _ _))

/-- Other files do not matter to what was entered. -/
theorem Entered.with_files {n : ℕ} {new : ℕ → Pintos.page} (h : Entered s s' t upage n new)
    (fs : filesys) : Entered (s.set_files fs) (s'.set_files fs) t upage n new :=
  ⟨rfl, h.old, h.page, h.outside, h.inside⟩

/-- What a successful `load_segment` has entered. -/
structure SegmentEntered (s s' : vm) (t upage n : ℕ) (writable : Bool) (o read_bytes : ℕ)
    (b : List UInt8) : Prop where
  free : ∀ i < n, s.page_at t (upage + i * PGSIZE) = none
  kept : ∀ {g}, FileHas s.files g b → FileHas s'.files g b
  pages : ∃ f : ℕ → ℕ, (∀ i < n, FileHas s'.files (f i) b)
    ∧ Entered (s.set_files s'.files) s' t upage n (segment_page upage writable f o read_bytes)

/-- What is left after one page: it is filled up, and the rest is whole pages. -/
theorem segment_rest {r z n : ℕ} (hsize : r + z = (n + 1) * PGSIZE) (hz : z < 2 ^ 32) :
    (z + 2 ^ 32 - (PGSIZE - min r PGSIZE)) % 2 ^ 32 = z - (PGSIZE - min r PGSIZE)
      ∧ r - PGSIZE + (z - (PGSIZE - min r PGSIZE)) = n * PGSIZE
      ∧ z - (PGSIZE - min r PGSIZE) < 2 ^ 32 := by
  unfold PGSIZE at *
  omega

/-- The file of the first page, then those of the others. -/
def first_file (f : ℕ) (g : ℕ → ℕ) : ℕ → ℕ
  | 0 => f
  | i + 1 => g i

/-- **The loop of `load_segment`** returns, and has entered all pages if it succeeds. -/
theorem load_segment_loop_entered (t file : ℕ) (writable : Bool) (n : ℕ) : ∀ {fuel : ℕ} {s : vm}
    (o upage read_bytes zero_bytes : ℕ), n < fuel → s.Registered → pg_round_down upage = upage →
      FileHas s.files file b → read_bytes + zero_bytes = n * PGSIZE → zero_bytes < 2 ^ 32 →
      o + read_bytes ≤ b.length →
      ∃ done s', load_segment_loop t file writable fuel s o upage read_bytes zero_bytes
        = .ok (done, s')
        ∧ (done = true → SegmentEntered s s' t upage n writable o read_bytes b) := by
  induction n with
  | zero =>
      intro fuel s o upage read_bytes zero_bytes hfuel _ _ _ hsize _ _
      cases fuel with
      | zero => exact absurd hfuel (Nat.not_lt_zero 0)
      | succ fuel =>
          rw [load_segment_loop, if_neg (by omega)]
          refine ⟨true, s, rfl, fun _ => ⟨fun i hi => absurd hi (Nat.not_lt_zero i), fun h => h,
            fun _ => 0, fun i hi => absurd hi (Nat.not_lt_zero i), .zero s t upage _⟩⟩
  | succ n ih =>
      intro fuel s o upage read_bytes zero_bytes hfuel hr hround hb hsize hzero hfit
      cases fuel with
      | zero => exact absurd hfuel (Nat.not_lt_zero _)
      | succ fuel =>
          have hpos : read_bytes > 0 ∨ zero_bytes > 0 := by
            unfold PGSIZE at hsize
            omega
          have hpr : (if read_bytes < PGSIZE then read_bytes else PGSIZE)
              = min read_bytes PGSIZE := by
            split <;> omega
          obtain ⟨f, fs, hreopen, hb'⟩ := hb.reopen
          rw [load_segment_loop, if_pos hpos, hpr, hreopen, Outcome.ok_bind]
          dsimp only
          generalize halloc : vm_alloc_page_with_initializer (s.set_files fs) t .VM_ANON
            upage writable (some .lazy_load_segment) _ = x
          obtain ⟨done, s₁⟩ := x
          dsimp only
          rcases vm_alloc_page_cases halloc with ⟨rfl, rfl⟩ | ⟨rfl, hnone, pi, hpi, hs₁⟩
          · exact ⟨false, _, rfl, fun hdone => by cases hdone⟩
          obtain rfl := Option.some.inj hpi
          have hr' : (s.set_files fs).Registered :=
            hr.congr (fun _ _ => rfl) (fun _ => rfl) rfl rfl fun t ht => ht
          have hr₁ : s₁.Registered := by
            rw [hs₁]
            exact hr'.register t _ hround
          have hfiles : s₁.files = fs := by rw [hs₁]; rfl
          have hb₁ : FileHas s₁.files file b := by
            rw [hfiles]
            exact hb.kept hb hreopen
          have hofs : i32 ((o : ℤ) + (min read_bytes PGSIZE : ℕ))
              = ((o + min read_bytes PGSIZE : ℕ) : ℤ) := by
            have hlt := hb.length_lt
            rw [i32_of_isI32, Nat.cast_add]
            unfold IsI32 PGSIZE at *
            omega
          obtain ⟨hzero', hsize', hlt'⟩ := segment_rest hsize hzero
          have hread' : read_bytes - min read_bytes PGSIZE = read_bytes - PGSIZE :=
            (Nat.sub_eq_sub_min _ _).symm
          have hfit' : o + min read_bytes PGSIZE + (read_bytes - PGSIZE) ≤ b.length := by
            rw [Nat.add_assoc, Nat.add_comm (min _ _), Nat.sub_add_min_cancel]
            exact hfit
          rw [if_pos rfl, hofs, hzero', hread']
          obtain ⟨done, s', hrun, hrest⟩ := ih (o + min read_bytes PGSIZE) (upage + PGSIZE)
            (read_bytes - PGSIZE) (zero_bytes - (PGSIZE - min read_bytes PGSIZE))
            (Nat.lt_of_succ_lt_succ hfuel) hr₁ (by rw [pg_round_down_add_PGSIZE, hround]) hb₁ hsize'
            hlt' hfit'
          refine ⟨done, s', hrun, fun hdone => ?_⟩
          obtain ⟨hfree, hkept, g, hgs, hentered⟩ := hrest hdone
          have hfirst : Entered (s.set_files fs) s₁ t upage 1
              (segment_page upage writable (first_file f g) o read_bytes) := by
            refine .one hr' (Nat.add_zero _) (.inr ⟨?_, hnone⟩)
            rw [hs₁]
            unfold segment_page
            simp [first_file, Nat.min_comm]
          have hshift : (fun i => segment_page upage writable (first_file f g) o read_bytes (i + 1))
              = segment_page (upage + PGSIZE) writable g (o + min read_bytes PGSIZE)
                  (read_bytes - PGSIZE) := by
            funext i
            exact segment_page_succ upage writable (first_file f g) o read_bytes i
          refine ⟨fun i hi => ?_, fun hg => hkept ?_, first_file f g, fun i hi => ?_, ?_⟩
          · cases i with
            | zero =>
                rw [Nat.zero_mul, Nat.add_zero]
                exact hnone
            | succ i =>
                have hva : upage + (i + 1) * PGSIZE = upage + PGSIZE + i * PGSIZE := by ring
                rw [hva]
                cases hold : s.page_at t (upage + PGSIZE + i * PGSIZE) with
                | none => rfl
                | some p =>
                    have hgone := hfree i (Nat.lt_of_succ_lt_succ hi)
                    rw [hfirst.old hold] at hgone
                    cases hgone
          · rw [hfiles]
            exact hg.kept hb hreopen
          · cases i with
            | zero =>
                apply hkept
                rw [hfiles]
                exact hb'
            | succ i => exact hgs i (Nat.lt_of_succ_lt_succ hi)
          · rw [← hshift] at hentered
            exact (hfirst.with_files s'.files).cons hentered

/-! ## The image -/

/-- A page that holds a byte of the segment. -/
def Covers (phdr : Phdr) (va : ℕ) : Prop :=
  pg_round_down va = va ∧ va < phdr.p_vaddr + phdr.p_memsz ∧ phdr.p_vaddr < va + PGSIZE

/-- **The law of an ELF image**: the pages of the segment are entered and no others, in user space,
and their first faults load the bytes of the file, and zeros behind them. -/
structure ImageLaw (s s' : vm) (t : ℕ) (phdr : Phdr) (b : List UInt8) : Prop where
  gained : ∀ t' va, (s.page_at t' va = none ∧ s'.page_at t' va ≠ none) ↔ t' = t ∧ Covers phdr va
  kept : ∀ {t' va p}, s.page_at t' va = some p → s'.page_at t' va = some p ∧ s'.page p = s.page p
  user : ∀ {va}, Covers phdr va → PGSIZE ≤ va ∧ va + PGSIZE ≤ KERN_BASE
  bytes : ∀ i < phdr.p_memsz, ∃ m, DemandLoads s' t (pg_round_down (phdr.p_vaddr + i)) b m
    ∧ m (pg_ofs (phdr.p_vaddr + i)) = if i < phdr.p_filesz then b.getD (phdr.p_offset + i) 0 else 0

section Image

variable {phdr : Phdr} {length : ℤ}

theorem covers_user (h : phdr.Accepted length) {va : ℕ} (hva : Covers phdr va) :
    PGSIZE ≤ va ∧ va + PGSIZE ≤ KERN_BASE := by
  obtain ⟨hround, hend, hstart⟩ := hva
  have huser := h.user
  have hpage := h.not_zero
  unfold pg_round_down KERN_BASE PGSIZE at *
  omega

/-- They are the pages that `load_segment` is told to enter. -/
theorem covers_iff (h : phdr.Accepted length) (va : ℕ) :
    Covers phdr va ↔ ∃ i < phdr.pages, va = phdr.mem_page + i * PGSIZE := by
  have hpos := h.nonempty
  unfold Covers Phdr.pages Phdr.mem_page Phdr.page_offset
  constructor
  · rintro ⟨hround, hend, hstart⟩
    refine ⟨(va - pg_round_down phdr.p_vaddr) / PGSIZE, ?_, ?_⟩
    · rw [lt_page_count]
      unfold pg_round_down pg_ofs PGSIZE at *
      omega
    · unfold pg_round_down PGSIZE at *
      omega
  · rintro ⟨i, hi, rfl⟩
    rw [lt_page_count] at hi
    unfold pg_round_down pg_ofs PGSIZE at *
    omega

/-- The asserts of `load_segment` hold. -/
theorem load_phdr_eq (hb : FileHas s.files file b) (hvalid : validate_segment phdr b.length = true)
    (hfits : phdr.Fits) :
    load_phdr s t file phdr = load_segment_loop t file (decide (phdr.p_flags / 2 % 2 = 1))
      (phdr.pages + 1) s phdr.file_page phdr.mem_page phdr.read_bytes phdr.zero_bytes := by
  have hexact := (narrowed_exact_iff hvalid).mpr hfits
  have hsize : (phdr.read_bytes + phdr.zero_bytes) % 2 ^ 32 % PGSIZE = 0 := by
    rw [hexact.size]
    unfold PGSIZE
    omega
  have hupage : pg_ofs phdr.mem_page = 0 := by
    unfold Phdr.mem_page pg_ofs pg_round_down PGSIZE
    omega
  have hofs : phdr.ofs.tmod PGSIZE = 0 := by
    rw [hexact.ofs, ← Int.ofNat_tmod]
    unfold Phdr.file_page pg_round_down PGSIZE
    omega
  unfold load_phdr load_segment
  rw [hb.length_eq, Outcome.ok_bind, if_pos hvalid, Outcome.assert_pos hsize, Outcome.ok_bind,
    Outcome.assert_pos hupage, Outcome.ok_bind, Outcome.assert_pos hofs,
      Outcome.ok_bind, hexact.size,
    hexact.ofs, Nat.mul_div_cancel _ (by decide : 0 < PGSIZE)]

/-- **The image of a segment.** `load_segment` of an accepted header returns, and after a success
the law holds. -/
theorem elf_image_law (hr : s.Registered) (hb : FileHas s.files file b)
    (hvalid : validate_segment phdr b.length = true) (hfits : phdr.Fits)
    (hbytes : phdr.p_offset + phdr.p_filesz ≤ b.length) :
    ∃ done s', load_phdr s t file phdr = .ok (done, s')
      ∧ (done = true → ImageLaw s s' t phdr b) := by
  have h := accepted_of_validate hvalid
  have hexact := (narrowed_exact_iff hvalid).mpr hfits
  have hround : pg_round_down phdr.mem_page = phdr.mem_page := pg_round_down_idem _
  have hfit := h.file_bytes_le hbytes
  have hzero : phdr.zero_bytes < 2 ^ 32 := hexact.zero ▸ hfits.2.1
  rw [load_phdr_eq hb hvalid hfits]
  rw [hexact.read] at *
  obtain ⟨done, s', hrun, hentered⟩ := load_segment_loop_entered t file
    (decide (phdr.p_flags / 2 % 2 = 1)) phdr.pages phdr.file_page phdr.mem_page phdr.file_bytes
    phdr.zero_bytes (Nat.lt_succ_self _) hr hround hb (hexact.read ▸ hexact.size) hzero hfit
  refine ⟨done, s', hrun, fun hdone => ?_⟩
  obtain ⟨hfree, -, f, hfiles, hpages⟩ := hentered hdone
  have hcovers := covers_iff h
  refine ⟨fun t' va => ⟨?_, ?_⟩, fun {t' va p} hp => ⟨hpages.old hp, ?_⟩, covers_user h,
    fun i hi => ?_⟩
  · rintro ⟨hnone, hsome⟩
    by_contra hout
    refine hsome ((hpages.outside fun hin => hout ⟨hin.1, ?_⟩).trans hnone)
    exact (hcovers va).mpr hin.2
  · rintro ⟨rfl, hva⟩
    obtain ⟨i, hi, rfl⟩ := (hcovers va).mp hva
    obtain ⟨p, hp, -⟩ := hpages.inside i hi (hfree i hi)
    exact ⟨hfree i hi, by rw [hp]; exact Option.some_ne_none p⟩
  · obtain ⟨pg, hpg, -⟩ := hr.page hp
    rw [hpg]
    exact hpages.page hpg
  · have hva : Covers phdr (pg_round_down (phdr.p_vaddr + i)) := by
      refine ⟨pg_round_down_idem _, ?_, ?_⟩
      · unfold pg_round_down
        omega
      · unfold pg_round_down PGSIZE
        omega
    obtain ⟨k, hk, hat⟩ := (hcovers _).mp hva
    obtain ⟨p, hp, hpg⟩ := hpages.inside k hk (hfree k hk)
    have huser := (covers_user h hva).2
    rw [hat] at huser ⊢
    have hround' : pg_round_down (phdr.mem_page + k * PGSIZE) = phdr.mem_page + k * PGSIZE := by
      rw [← hat]
      exact pg_round_down_idem _
    refine ⟨_, Awaits.demandLoads (segment_page_awaits _ _ f _ _ k) hp hpg rfl (hfiles k hk)
      ?_ hround' ?_, h.loaded_byte (pg_ofs_lt _) ?_⟩
    · omega
    · unfold PGSIZE at huser ⊢
      omega
    · have hsum := pg_round_down_add_pg_ofs (phdr.p_vaddr + i)
      rw [hat] at hsum
      have hpage : phdr.mem_page + phdr.page_offset = phdr.p_vaddr := pg_round_down_add_pg_ofs _
      omega

/-- It is loaded from a file of 100 bytes. -/
theorem small_image : ∃ s', load_phdr file_machine 0 0 small_phdr = .ok (true, s')
    ∧ ImageLaw file_machine s' 0 small_phdr (List.replicate 100 0) := by
  have hvalid : validate_segment small_phdr 100 = true := by decide
  have hfits : small_phdr.Fits := by decide
  have hturns : small_phdr.pages + 1 = 3 := by decide
  have hread : small_phdr.read_bytes = 66 := by decide
  have hzero : small_phdr.zero_bytes = 8126 := by decide
  obtain ⟨s', hs'⟩ : ∃ s', load_phdr file_machine 0 0 small_phdr = .ok (true, s') := by
    rw [load_phdr_eq file_machine_has hvalid hfits, hturns, hread, hzero]
    exact ⟨_, rfl⟩
  obtain ⟨done, s'', hrun, hlaw⟩ := elf_image_law (t := 0) file_machine_registered file_machine_has
    hvalid hfits (by decide)
  rw [hs'] at hrun
  obtain ⟨rfl, rfl⟩ := Outcome.ok_pair hrun
  exact ⟨s', hs', hlaw rfl⟩

end Image

end vm

end Pintos
