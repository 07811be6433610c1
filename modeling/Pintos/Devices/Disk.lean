/-
`devices/disk.c`: the sector interface the file system and the swap area use.

A disk is an array of 512-byte sectors behind two range assertions
(`select_sector`): the sector number is below the capacity, and it fits the 28
address bits of the controller. What the controller does with a sector is taken
as documented: a read returns what the last write of that sector stored.

`written` is a ghost. The C keeps only the counter `write_cnt`; the properties
about isolation speak of *which* sectors were written, also where a write
happens to store what was there before.
-/
import Pintos.Lib.Outcome
import Pintos.Lib.Word

set_option autoImplicit false

namespace Pintos

/-- `DISK_SECTOR_SIZE`. -/
def DISK_SECTOR_SIZE : ℕ := 512

/-- A disk: `struct disk`, with the medium's contents in place of the channel. -/
structure disk where
  /-- Size in sectors. -/
  capacity : ℕ
  /-- The contents of each sector, in the first 512 bytes of a buffer. -/
  sectors : ℕ → Bytes
  /-- Ghost: the sectors written so far, the last one first. -/
  written : List ℕ

/-- The two assertions of `select_sector`. -/
def select_sector (d : disk) (sec_no : ℕ) : Prop :=
  sec_no < d.capacity ∧ sec_no < 2 ^ 28

instance (d : disk) (sec_no : ℕ) : Decidable (select_sector d sec_no) :=
  inferInstanceAs (Decidable (_ ∧ _))

/-- The assertions look at the size of the disk only. -/
theorem select_sector_congr {d d' : disk} {sec_no : ℕ} (hc : d'.capacity = d.capacity)
    (h : select_sector d sec_no) : select_sector d' sec_no := by
  unfold select_sector at h ⊢
  rw [hc]
  exact h

/-- `disk_size`. -/
def disk_size (d : disk) : ℕ := d.capacity

/-- `disk_read`: the sector's bytes, once it passes `select_sector`. -/
def disk_read (d : disk) (sec_no : ℕ) : Outcome Bytes := do
  Outcome.assert (select_sector d sec_no)
  return d.sectors sec_no

/-- `disk_write`. -/
def disk_write (d : disk) (sec_no : ℕ) (buffer : Bytes) : Outcome disk := do
  Outcome.assert (select_sector d sec_no)
  return { d with
    sectors := Function.update d.sectors sec_no buffer
    written := sec_no :: d.written }

/-- The disk after a write that passed `select_sector`. -/
def disk.put (d : disk) (sec_no : ℕ) (buffer : Bytes) : disk :=
  { d with sectors := Function.update d.sectors sec_no buffer, written := sec_no :: d.written }

namespace disk

variable (d : disk) (sec_no s : ℕ) (buffer : Bytes)

@[simp] theorem put_capacity : (d.put sec_no buffer).capacity = d.capacity := rfl

@[simp] theorem put_written : (d.put sec_no buffer).written = sec_no :: d.written := rfl

@[simp] theorem put_sectors_self : (d.put sec_no buffer).sectors sec_no = buffer :=
  Function.update_self _ _ _

theorem put_sectors_of_ne {d : disk} {sec_no s : ℕ} {buffer : Bytes} (h : s ≠ sec_no) :
    (d.put sec_no buffer).sectors s = d.sectors s :=
  Function.update_of_ne h _ _

@[simp] theorem select_sector_put :
    select_sector (d.put sec_no buffer) s ↔ select_sector d s := Iff.rfl

end disk

theorem disk_read_ok {d : disk} {sec_no : ℕ} (h : select_sector d sec_no) :
    disk_read d sec_no = .ok (d.sectors sec_no) := by
  simp [disk_read, Outcome.assert_pos h]

theorem disk_read_panic {d : disk} {sec_no : ℕ} (h : ¬ select_sector d sec_no) :
    disk_read d sec_no = .panic := by
  simp [disk_read, Outcome.assert_neg h]

theorem disk_read_eq_ok {d : disk} {sec_no : ℕ} {b : Bytes} :
    disk_read d sec_no = .ok b ↔ select_sector d sec_no ∧ b = d.sectors sec_no := by
  by_cases h : select_sector d sec_no
  · simp [disk_read_ok h, h, eq_comm]
  · simp [disk_read_panic h, h]

theorem disk_write_ok {d : disk} {sec_no : ℕ} (h : select_sector d sec_no) (buffer : Bytes) :
    disk_write d sec_no buffer = .ok (d.put sec_no buffer) := by
  simp [disk_write, Outcome.assert_pos h, disk.put]

theorem disk_write_eq_ok {d d' : disk} {sec_no : ℕ} {buffer : Bytes} :
    disk_write d sec_no buffer = .ok d' ↔
      select_sector d sec_no ∧ d' = d.put sec_no buffer := by
  by_cases h : select_sector d sec_no
  · simp [disk_write_ok h, h, eq_comm]
  · rw [disk_write, Outcome.assert_neg h]
    simp [h]

end Pintos
