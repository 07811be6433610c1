/-
`filesys/inode.c`: inodes on disk, and reading and writing through a chain.

The functions work on the disk, the table and one in-memory inode. They are the
C's, statement by statement; kernel heap allocation (`malloc`, `calloc`) is
taken to succeed.

Offsets and sizes are `off_t`, a signed 32-bit type: `offset + size` wraps
(`i32`), and the division and remainder are C's, which round toward zero. A
missing sector is `(disk_sector_t) -1`; no code checks for it, it simply fails
the range assertion of the disk.
-/
import Pintos.Devices.Disk
import Pintos.Filesys.FatChain

set_option autoImplicit false

namespace Pintos

/-! ## On-disk and in-memory inodes -/

/-- `INODE_MAGIC`. -/
def INODE_MAGIC : ℕ := 0x494e4f44

/-- `struct inode_disk`, less its padding `unused`. -/
structure inode_disk where
  start : ℕ
  length : ℤ
  magic : ℕ
  isdir : Bool
  deriving DecidableEq, Repr

namespace inode_disk

/-- The 512 bytes of an inode sector. -/
def encode (i : inode_disk) : Bytes := fun k =>
  if k < 4 then byteOf i.start k
  else if k < 8 then byteOf (u32OfInt i.length) (k - 4)
  else if k < 12 then byteOf i.magic (k - 8)
  else if k = 12 then (if i.isdir then 1 else 0)
  else 0

/-- What a sector holds when it is read as an inode. -/
def decode (b : Bytes) : inode_disk where
  start := wordAt b 0
  length := i32 (wordAt b 4)
  magic := wordAt b 8
  isdir := b 12 ≠ 0

/-- The fields fit their C types. -/
structure Fits (i : inode_disk) : Prop where
  start : i.start < 2 ^ 32
  length : IsI32 i.length
  magic : i.magic < 2 ^ 32

/-- An inode that is written and read back is the same inode. -/
theorem decode_encode {i : inode_disk} (h : i.Fits) : decode (encode i) = i := by
  have hstart : wordAt (encode i) 0 = i.start :=
    wordAt_of_bytes h.start fun k hk => by simp [encode, hk]
  have hlength : wordAt (encode i) 4 = u32OfInt i.length :=
    wordAt_of_bytes (u32OfInt_lt _) fun k hk => by
      have h1 : ¬ 4 + k < 4 := by omega
      have h2 : 4 + k < 8 := by omega
      simp [encode, h2]
  have hmagic : wordAt (encode i) 8 = i.magic :=
    wordAt_of_bytes h.magic fun k hk => by
      have h1 : ¬ 8 + k < 4 := by omega
      have h2 : ¬ 8 + k < 8 := by omega
      have h3 : 8 + k < 12 := by omega
      simp [encode, h1, h3]
  have hisdir : decide (encode i 12 ≠ 0) = i.isdir := by
    cases hd : i.isdir <;> simp [encode, hd]
  simp only [decode, hstart, hlength, hmagic, hisdir, i32_u32OfInt h.length]

end inode_disk

/-- `struct inode`. The list element is the position in `open_inodes`. -/
structure inode where
  sector : ℕ
  open_cnt : ℤ
  removed : Bool
  deny_write_cnt : ℤ
  data : inode_disk
  deriving DecidableEq, Repr

/-- The inode with other data: what the extension of a file assigns to. -/
def inode.set_data (ino : inode) (start : ℕ) (length : ℤ) : inode :=
  { ino with data := { ino.data with start := start, length := length } }

section SetData

variable (ino : inode) (start start' : ℕ) (length length' : ℤ)

@[simp] theorem inode.set_data_start : (ino.set_data start length).data.start = start := rfl

@[simp] theorem inode.set_data_length : (ino.set_data start length).data.length = length := rfl

@[simp] theorem inode.set_data_set_data :
    (ino.set_data start length).set_data start' length' = ino.set_data start' length' := rfl

end SetData

/-- `inode_length`. -/
def inode_length (ino : inode) : ℤ := ino.data.length

/-- `bytes_to_sectors`: `DIV_ROUND_UP` in `int` arithmetic, returned as a `size_t`. -/
def bytes_to_sectors (size : ℤ) : ℕ := ((i32 (size + 511)).tdiv 512 % 2 ^ 64).toNat

theorem bytes_to_sectors_eq {n : ℕ} (h : n + 511 < 2 ^ 31) :
    bytes_to_sectors n = (n + 511) / 512 := by
  have h32 : i32 ((n : ℤ) + 511) = ((n + 511 : ℕ) : ℤ) := by
    rw [i32_of_isI32 (by unfold IsI32; omega)]
    push_cast
    rfl
  unfold bytes_to_sectors
  rw [h32, Int.tdiv_eq_ediv_of_nonneg (by omega)]
  omega

/-- Past the last multiple of the sector size the sum overflows, and the count
is a negative number read as a `size_t`. -/
theorem bytes_to_sectors_overflow {n : ℕ} (h₁ : 2 ^ 31 ≤ n + 511) (h₂ : n < 2 ^ 31) :
    2 ^ 63 ≤ bytes_to_sectors n := by
  have h32 : i32 ((n : ℤ) + 511) = (n : ℤ) + 511 - 2 ^ 32 := by
    unfold i32
    omega
  have hneg : ((n : ℤ) + 511 - 2 ^ 32).tdiv 512 = -(((2 ^ 32 - 511 - n) / 512 : ℕ) : ℤ) := by
    rw [show (n : ℤ) + 511 - 2 ^ 32 = -((2 ^ 32 - 511 - n : ℕ) : ℤ) by omega, Int.neg_tdiv,
      Int.tdiv_eq_ediv_of_nonneg (by omega)]
    omega
  unfold bytes_to_sectors
  rw [h32, hneg]
  omega

/-! ## From a byte position to a sector -/

/-- `(disk_sector_t) -1`: no sector. -/
def NO_SECTOR : ℕ := 2 ^ 32 - 1

/-- The loop of `byte_to_sector`: `sectors` steps along the chain. -/
def byte_to_sector_loop (fs : fat_fs) : ℕ → ℕ → Outcome ℕ
  | 0, clst_idx => .ok (cluster_to_sector fs clst_idx)
  | sectors + 1, clst_idx => do
      let clst_idx ← fat_get fs clst_idx
      if clst_idx = EOChain then return NO_SECTOR
      byte_to_sector_loop fs sectors clst_idx

/-- `byte_to_sector`. -/
def byte_to_sector (fs : fat_fs) (ino : inode) (pos : ℤ) : Outcome ℕ :=
  if pos > ino.data.length then .ok NO_SECTOR
  else if ino.data.start = 0 ∨ ino.data.start = EOChain then .ok NO_SECTOR
  else byte_to_sector_loop fs (pos.tdiv 512).toNat ino.data.start

/-! ## Creating an inode -/

/-- The zero-filling loop of `inode_create`: `sectors - i` sectors in a row,
counted from the chain's first. -/
def inode_create_loop (first : ℕ) : disk → ℕ → ℕ → Outcome disk
  | d, _, 0 => .ok d
  | d, i, n + 1 => do
      let d ← disk_write d ((first + i) % 2 ^ 32) zeros
      inode_create_loop first d (i + 1) n

/-- `inode_create`. -/
def inode_create (d : disk) (fs : fat_fs) (sector : ℕ) (length : ℤ) (is_dir : Bool) :
    Outcome (Bool × disk × fat_fs) := do
  Outcome.assert (0 ≤ length)
  let sectors := bytes_to_sectors length
  let (allocated, start, fs) ← fat_allocate fs sectors 0
  if allocated then
    let d ← disk_write d sector
      (inode_disk.encode { start, length, magic := INODE_MAGIC, isdir := is_dir })
    let d ← inode_create_loop (cluster_to_sector fs start) d 0 sectors
    return (true, d, fs)
  else
    return (false, d, fs)

/-! ## Reading and writing -/

/-- The loop of `inode_read_at`. -/
def inode_read_at_loop (d : disk) (fs : fat_fs) (ino : inode) :
    ℕ → Bytes → ℤ → ℤ → ℤ → Outcome (ℤ × Bytes)
  | 0, _, _, _, _ => .diverge
  | fuel + 1, buffer, size, offset, bytes_read =>
      if size ≤ 0 then .ok (bytes_read, buffer)
      else do
        let sector_idx ← byte_to_sector fs ino offset
        let sector_ofs := offset.tmod 512
        let inode_left := inode_length ino - offset
        let sector_left := 512 - sector_ofs
        let min_left := if inode_left < sector_left then inode_left else sector_left
        let chunk_size := if size < min_left then size else min_left
        if chunk_size ≤ 0 then return (bytes_read, buffer)
        let sector ← disk_read d sector_idx
        let buffer :=
          if sector_ofs = 0 ∧ chunk_size = 512 then memcpy buffer bytes_read.toNat sector 512
          else memcpy buffer bytes_read.toNat (fun k => sector (sector_ofs.toNat + k))
            chunk_size.toNat
        inode_read_at_loop d fs ino fuel buffer (size - chunk_size) (offset + chunk_size)
          (bytes_read + chunk_size)

/-- `inode_read_at`: the count, and the buffer with what was read. Every turn of
the loop moves at least one byte, so `size` turns are enough. -/
def inode_read_at (d : disk) (fs : fat_fs) (ino : inode) (buffer : Bytes) (size offset : ℤ) :
    Outcome (ℤ × Bytes) :=
  inode_read_at_loop d fs ino (size.toNat + 1) buffer size offset 0

/-- The loop of `inode_write_at` that appends clusters, one for every 512 bytes
of `remain_length`. -/
def inode_extend_loop : ℕ → disk → fat_fs → inode → ℤ → Outcome (disk × fat_fs × inode)
  | 0, _, _, _, _ => .diverge
  | fuel + 1, d, fs, ino, remain_length =>
      if remain_length ≤ 0 then .ok (d, fs, ino)
      else do
        let (new_clst, fs) ← fat_create_chain fs ino.data.start
        let add_size := if remain_length < 512 then remain_length else 512
        let ino := ino.set_data ino.data.start (ino.data.length + add_size)
        let d ← disk_write d (cluster_to_sector fs new_clst) zeros
        inode_extend_loop fuel d fs ino (remain_length - 512)

/-- The extension part of `inode_write_at`, taken when `extend_size` is past the
end of the file. -/
def inode_extend (d : disk) (fs : fat_fs) (ino : inode) (extend_size : ℤ) :
    Outcome (disk × fat_fs × inode) := do
  let last_sector_use_size := (inode_length ino).tmod 512
  let remain_length := extend_size - inode_length ino
  let last_sector_remain_size := 512 - last_sector_use_size
  let (start, fs) ← if ino.data.start = 0 then fat_create_chain fs 0 else .ok (ino.data.start, fs)
  let ino := ino.set_data start (ino.data.length
    + if remain_length < last_sector_remain_size then remain_length else last_sector_remain_size)
  inode_extend_loop (extend_size.toNat + 1) d fs ino (remain_length - last_sector_remain_size)

/-- The copy loop of `inode_write_at`. -/
def inode_write_at_loop (fs : fat_fs) (ino : inode) (buffer : Bytes) :
    ℕ → disk → ℤ → ℤ → ℤ → Outcome (ℤ × disk)
  | 0, _, _, _, _ => .diverge
  | fuel + 1, d, size, offset, bytes_written =>
      if size ≤ 0 then .ok (bytes_written, d)
      else do
        let sector_idx ← byte_to_sector fs ino offset
        let sector_ofs := offset.tmod 512
        let inode_left := inode_length ino - offset
        let sector_left := 512 - sector_ofs
        let min_left := if inode_left < sector_left then inode_left else sector_left
        let chunk_size := if size < min_left then size else min_left
        if chunk_size ≤ 0 then return (bytes_written, d)
        let source : Bytes := fun k => buffer (bytes_written.toNat + k)
        let bounce ←
          if sector_ofs = 0 ∧ chunk_size = 512 then .ok source
          else do
            let bounce ←
              if sector_ofs > 0 ∨ chunk_size < sector_left then disk_read d sector_idx
              else .ok zeros
            .ok (memcpy bounce sector_ofs.toNat source chunk_size.toNat)
        let d ← disk_write d sector_idx bounce
        inode_write_at_loop fs ino buffer fuel d (size - chunk_size) (offset + chunk_size)
          (bytes_written + chunk_size)

/-- `inode_flush`. -/
def inode_flush (d : disk) (ino : inode) : Outcome disk :=
  disk_write d ino.sector ino.data.encode

/-- `inode_write_at`. -/
def inode_write_at (d : disk) (fs : fat_fs) (ino : inode) (buffer : Bytes) (size offset : ℤ) :
    Outcome (ℤ × disk × fat_fs × inode) := do
  if ino.deny_write_cnt ≠ 0 then return (0, d, fs, ino)
  let extend_size := i32 (offset + size)
  let (d, fs, ino) ←
    if extend_size > inode_length ino then inode_extend d fs ino extend_size else .ok (d, fs, ino)
  let (bytes_written, d) ← inode_write_at_loop fs ino buffer (size.toNat + 1) d size offset 0
  let d ← inode_flush d ino
  return (bytes_written, d, fs, ino)

end Pintos
