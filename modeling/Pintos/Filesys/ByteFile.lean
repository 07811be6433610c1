/-
A file is an array of bytes.

`file_contents` is the array: the bytes of the chain, one cluster after the other, up to
the length. Under the conditions of `Backed` a read is a `slice` of it and a write inside
it a `splice`, whichever way each sector goes: straight from the caller's buffer, or
through the bounce buffer. A read that reaches past the end stops there
(`inode_read_at_loop_clip`).
-/
import Pintos.Filesys.InodeGrow
import Pintos.Lib.Slice

set_option autoImplicit false

namespace Pintos

/-! ## The array -/

/-- The first `n` bytes of a buffer. -/
def buffer_bytes (buffer : Bytes) (n : ℕ) : List UInt8 := (List.range n).map buffer

/-- `inode_length`, as a number of bytes. -/
def content_length (ino : inode) : ℕ := (inode_length ino).toNat

/-- The contents of the file whose data chain is `l`. -/
def file_contents (d : disk) (fs : fat_fs) (ino : inode) (l : List ℕ) : List UInt8 :=
  (List.range (content_length ino)).map (file_byte d fs l)

/-- **An inode whose chain covers its length**: the clusters are distinct and in range, they
and the inode's own sector are on the disk, and none of them is the inode's own sector. -/
structure Backed (d : disk) (fs : fat_fs) (ino : inode) (l : List ℕ) : Prop where
  geometry : fs.Geometry
  chain : DataChain fs ino.data.start l
  length_nonneg : 0 ≤ ino.data.length
  length_lt : ino.data.length < 2 ^ 31
  covers : ino.data.length ≤ 512 * l.length
  on_disk : ∀ k ∈ l, select_sector d (cluster_to_sector fs k)
  inode_on_disk : select_sector d ino.sector
  apart : ∀ k ∈ l, cluster_to_sector fs k ≠ ino.sector

theorem Covered.backed {d : disk} {fs : fat_fs} {ino : inode} {l : List ℕ} (h : Covered d fs ino l)
    (hapart : ∀ k ∈ l, cluster_to_sector fs k ≠ ino.sector) : Backed d fs ino l where
  geometry := h.wf.toGeometry
  chain := h.chain
  length_nonneg := h.length_nonneg
  length_lt := h.length_lt
  covers := h.covers
  on_disk := h.on_disk
  inode_on_disk := h.inode_on_disk
  apart := hapart

section Lengths

variable {d : disk} {fs : fat_fs} {ino : inode} {l : List ℕ} {buffer : Bytes} {n k : ℕ}

@[simp] theorem buffer_bytes_length : (buffer_bytes buffer n).length = n := by
  rw [buffer_bytes, List.length_map, List.length_range]

@[simp] theorem file_contents_length : (file_contents d fs ino l).length = content_length ino := by
  rw [file_contents, List.length_map, List.length_range]

theorem getElem?_buffer_bytes : (buffer_bytes buffer n)[k]? = if k < n then some (buffer k)
    else none := by
  rw [buffer_bytes, List.getElem?_map]
  by_cases hk : k < n
  · rw [if_pos hk, List.getElem?_range hk, Option.map_some]
  · rw [if_neg hk, List.getElem?_eq_none (by rw [List.length_range]; omega), Option.map_none]

theorem getElem?_file_contents : (file_contents d fs ino l)[k]?
    = if k < content_length ino then some (file_byte d fs l k) else none :=
  getElem?_buffer_bytes

end Lengths

namespace Backed

variable {d d' : disk} {fs : fat_fs} {ino : inode} {l : List ℕ}

theorem length_eq (h : Backed d fs ino l) : ino.data.length = (content_length ino : ℤ) :=
  (Int.toNat_of_nonneg h.length_nonneg).symm

theorem extent (h : Backed d fs ino l) : Extent d fs ino.data.start l := by
  rcases h.chain with ⟨-, rfl⟩ | ⟨-, hch⟩
  · exact ⟨⟨ino.data.start, rfl⟩, by simp, List.nodup_nil, by simp⟩
  · exact .of_chain h.geometry hch h.on_disk

/-- Only the size of the disk matters. -/
theorem disk_congr (h : Backed d fs ino l) (hc : d'.capacity = d.capacity) : Backed d' fs ino l :=
  { h with
    on_disk := fun k hk => select_sector_congr hc (h.on_disk k hk)
    inode_on_disk := select_sector_congr hc h.inode_on_disk }

/-- Up to the end of the file, the end included, `byte_to_sector` returns: a sector inside
the file, and at its end possibly none. -/
theorem byte_to_sector_ok (h : Backed d fs ino l) {pos : ℕ} (hpos : pos ≤ content_length ino) :
    ∃ s, byte_to_sector fs ino pos = .ok s := by
  have hlen := h.length_eq
  by_cases hin : pos / 512 < l.length
  · exact ⟨_, byte_to_sector_eq h.geometry h.extent pos (by omega) hin⟩
  · exact ⟨NO_SECTOR, byte_to_sector_end h.chain pos (Nat.le_of_not_lt hin)⟩

end Backed

/-! ## Reading -/

/-- `chunk_size` of the C, when the request may reach past the end of the file: the chunk of
the part inside the file. -/
theorem chunk_size_clip {len size offset : ℕ} (hoff : offset ≤ len) :
    (if (size : ℤ) <
        (if (len : ℤ) - offset < 512 - ((offset % 512 : ℕ) : ℤ) then (len : ℤ) - offset
          else 512 - ((offset % 512 : ℕ) : ℤ)) then (size : ℤ)
      else (if (len : ℤ) - offset < 512 - ((offset % 512 : ℕ) : ℤ) then (len : ℤ) - offset
          else 512 - ((offset % 512 : ℕ) : ℤ)))
      = ((chunk (min size (len - offset)) offset : ℕ) : ℤ) := by
  unfold chunk
  split_ifs <;> omega

section Clip

variable {d : disk} {fs : fat_fs} {ino : inode} {len : ℕ}

/-- At the end of the file the loop returns. -/
theorem inode_read_at_loop_at_end (hlen : inode_length ino = len)
    {s : ℕ} (hs : byte_to_sector fs ino len = .ok s) (fuel : ℕ) (buffer : Bytes) (size : ℕ)
    (bytes_read : ℤ) :
    inode_read_at_loop d fs ino (fuel + 1) buffer size len bytes_read
      = .ok (bytes_read, buffer) := by
  rw [inode_read_at_loop]
  split
  · rfl
  · rw [hs]
    simp only [Outcome.ok_bind, tmod_512, hlen, chunk_size_clip (Nat.le_refl len), Nat.sub_self,
      Nat.min_zero]
    rw [if_pos]
    · rfl
    · simp [chunk]

/-- **A request that reaches past the end of the file** is cut off there. -/
theorem inode_read_at_loop_clip (hlen : inode_length ino = len)
    (hsec : ∀ p : ℕ, p ≤ len → ∃ s, byte_to_sector fs ino p = .ok s) :
    ∀ (fuel : ℕ) (buffer : Bytes) (size offset : ℕ) (bytes_read : ℤ), size < fuel → offset ≤ len →
      inode_read_at_loop d fs ino fuel buffer size offset bytes_read
        = inode_read_at_loop d fs ino fuel buffer ((min size (len - offset) : ℕ) : ℤ) offset
            bytes_read := by
  intro fuel
  induction fuel with
  | zero =>
      intro buffer size offset bytes_read hf
      exact absurd hf (Nat.not_lt_zero _)
  | succ fuel ih =>
      intro buffer size offset bytes_read hf hoff
      rcases Nat.eq_zero_or_pos (min size (len - offset)) with hnone | hsome
      · -- nothing of the request is inside the file
        rw [hnone]
        rcases Nat.eq_zero_or_pos size with rfl | hsize
        · rfl
        · obtain rfl : offset = len := by omega
          obtain ⟨s, hs⟩ := hsec offset le_rfl
          rw [inode_read_at_loop_at_end hlen hs, inode_read_at_loop, if_pos (by simp)]
      · -- both take the same chunk
        obtain ⟨s, hs⟩ := hsec offset hoff
        have hpos := chunk_pos hsome offset
        have hle := chunk_le (min size (len - offset)) offset
        have hmin : min (min size (len - offset)) (len - offset) = min size (len - offset) := by
          omega
        rw [inode_read_at_loop, inode_read_at_loop, if_neg (by omega), if_neg (by omega), hs]
        simp only [Outcome.ok_bind, tmod_512, hlen, chunk_size_clip hoff, hmin]
        rw [if_neg (by omega), if_neg (by omega)]
        apply Outcome.bind_congr
        intro sector _
        have hsub : (size : ℤ) - (chunk (min size (len - offset)) offset : ℤ)
            = ((size - chunk (min size (len - offset)) offset : ℕ) : ℤ) := by omega
        have hsub' : ((min size (len - offset) : ℕ) : ℤ)
          - (chunk (min size (len - offset)) offset : ℤ)
            = ((min (size - chunk (min size (len - offset)) offset)
                (len - (offset + chunk (min size (len - offset)) offset)) : ℕ) : ℤ) := by omega
        rw [hsub, hsub', ← Nat.cast_add]
        exact ih _ _ _ _ (by omega) (by omega)

end Clip

section Read

variable {d : disk} {fs : fat_fs} {ino : inode} {l : List ℕ}

/-- How much of a request lies inside the file. -/
def readable (ino : inode) (size offset : ℕ) : ℕ := min size (content_length ino - offset)

/-- **`inode_read_at`** of any request: what of it is inside the file. -/
theorem inode_read_at_readable (h : Backed d fs ino l) (buffer : Bytes) (size offset : ℕ) :
    ∃ buffer', inode_read_at d fs ino buffer size offset
        = .ok (((readable ino size offset : ℕ) : ℤ), buffer')
      ∧ ∀ k, buffer' k
          = if k < readable ino size offset then file_byte d fs l (offset + k) else buffer k := by
  have hlen : inode_length ino = (content_length ino : ℤ) := h.length_eq
  have hcovers := h.covers
  unfold readable
  by_cases hoff : offset ≤ content_length ino
  · have hclip := inode_read_at_loop_clip (d := d) hlen (fun p hp => h.byte_to_sector_ok hp)
      (size + 1) buffer size offset 0 (Nat.lt_succ_self size) hoff
    obtain ⟨buffer', hrun, hb⟩ := inode_read_at_loop_spec h.geometry h.extent (size + 1) buffer
      (min size (content_length ino - offset)) offset 0 (by omega) (by omega)
      (by unfold inode_length at hlen; omega)
    refine ⟨buffer', ?_, fun k => ?_⟩
    · rw [inode_read_at, Int.toNat_natCast, hclip]
      simpa only [Nat.zero_add, Nat.cast_zero] using hrun
    · rw [hb k]
      simp only [Nat.zero_le, true_and, Nat.zero_add, Nat.sub_zero]
  · -- past the end: no sector, and nothing to copy
    have hnone : min size (content_length ino - offset) = 0 := by omega
    have hs : byte_to_sector fs ino offset = .ok NO_SECTOR := by
      unfold inode_length at hlen
      rw [byte_to_sector, if_pos (by omega)]
    refine ⟨buffer, ?_, fun k => by rw [hnone, if_neg (Nat.not_lt_zero k)]⟩
    rw [hnone, inode_read_at, inode_read_at_loop]
    split
    · rfl
    · rw [hs]
      simp only [Outcome.ok_bind, tmod_512, hlen]
      rw [if_pos]
      · rfl
      · split_ifs <;> omega

/-- The same in terms of the array. -/
theorem inode_read_at_slice (h : Backed d fs ino l) (buffer : Bytes) (size offset : ℕ) :
    ∃ buffer', inode_read_at d fs ino buffer size offset
        = .ok (((readable ino size offset : ℕ) : ℤ), buffer')
      ∧ buffer_bytes buffer' (readable ino size offset)
          = slice (file_contents d fs ino l) offset size
      ∧ ∀ k, readable ino size offset ≤ k → buffer' k = buffer k := by
  obtain ⟨buffer', hrun, hb⟩ := inode_read_at_readable h buffer size offset
  refine ⟨buffer', hrun, ?_, fun k hk => ?_⟩
  · apply List.ext_getElem?
    intro k
    rw [getElem?_buffer_bytes, getElem?_slice, getElem?_file_contents]
    unfold readable
    by_cases hk : k < min size (content_length ino - offset)
    · rw [if_pos hk, if_pos (by omega), if_pos (by omega), hb k]
      unfold readable
      rw [if_pos hk]
    · rw [if_neg hk]
      split
      · rw [if_neg (by omega)]
      · rfl
  · rw [hb k, if_neg (by omega)]

end Read

/-! ## Writing in place -/

section Write

variable {d d' : disk} {fs : fat_fs} {ino : inode} {l : List ℕ} {buffer : Bytes}
  {size offset : ℕ}

/-- The bytes of a file that has been written to, and whose inode has been flushed. -/
theorem file_byte_flushed (h : Backed d fs ino l) (hw : FileWritten fs l buffer offset size d d')
    {p : ℕ} (hp : p < 512 * l.length) (b : Bytes) :
    file_byte (d'.put ino.sector b) fs l p
      = if offset ≤ p ∧ p < offset + size then buffer (p - offset) else file_byte d fs l p := by
  have hq : p / 512 < l.length := by omega
  rw [← hw.bytes p hp]
  unfold file_byte
  rw [disk.put_sectors_of_ne]
  rw [List.getD_eq_getElem _ _ hq]
  exact h.apart _ (List.getElem_mem hq)

/-- The array after the write. -/
theorem file_contents_written (h : Backed d fs ino l)
    (hw : FileWritten fs l buffer offset size d d') (hfit : offset + size ≤ content_length ino)
    (b : Bytes) : file_contents (d'.put ino.sector b) fs ino l
      = splice 0 (file_contents d fs ino l) offset (buffer_bytes buffer size) := by
  have hlen := h.length_eq
  have hcovers := h.covers
  apply List.ext_getElem?
  intro p
  rw [getElem?_file_contents]
  by_cases hp : p < content_length ino
  · rw [if_pos hp, file_byte_flushed h hw (by omega) b]
    by_cases hlow : p < offset
    · rw [if_neg (by omega), getElem?_splice_old hlow (by rw [file_contents_length]; omega),
        getElem?_file_contents, if_pos hp]
    · by_cases hmid : p < offset + size
      · rw [if_pos ⟨by omega, hmid⟩, getElem?_splice_mid (by omega) (by rwa [buffer_bytes_length]),
          getElem?_buffer_bytes, if_pos (by omega)]
      · rw [if_neg (by omega), getElem?_splice_high (by rw [buffer_bytes_length]; omega),
          getElem?_file_contents, if_pos hp]
  · rw [if_neg hp, List.getElem?_eq_none]
    rw [splice_length, file_contents_length, buffer_bytes_length]
    omega

/-- Sector `s` holds a byte of the request. -/
def Touches (fs : fat_fs) (l : List ℕ) (offset size s : ℕ) : Prop :=
  ∃ p, offset ≤ p ∧ p < offset + size ∧ s = cluster_to_sector fs (l.getD (p / 512) 0)

/-- A write leaves every sector it does not touch, those of the file itself included. -/
theorem FileWritten.untouched
    (hw : FileWritten fs l buffer offset size d d') {s k : ℕ} (hk : k < 512)
    (hs : ¬ Touches fs l offset size s) : d'.sectors s k = d.sectors s k := by
  by_cases hown : ∃ i < l.length, s = cluster_to_sector fs (l.getD i 0)
  · obtain ⟨i, hi, rfl⟩ := hown
    have hdiv : (512 * i + k) / 512 = i := by omega
    have hmod : (512 * i + k) % 512 = k := by omega
    have hbyte := hw.bytes (512 * i + k) (by omega)
    rw [if_neg] at hbyte
    · unfold file_byte at hbyte
      rwa [hdiv, hmod] at hbyte
    · rintro ⟨hlo, hhi⟩
      exact hs ⟨512 * i + k, hlo, hhi, by rw [hdiv]⟩
  · refine congrFun (hw.frame s fun c hc heq => hown ?_) k
    obtain ⟨i, hi, rfl⟩ := List.getElem_of_mem hc
    exact ⟨i, hi, by rw [List.getD_eq_getElem _ _ hi]; exact heq⟩

/-- **`inode_write_at` inside the file** is the copy loop and the flush, and all of the request
is written. -/
theorem inode_write_at_in_place (h : Backed d fs ino l) (buffer : Bytes)
    (hdeny : ino.deny_write_cnt = 0) (hfit : offset + size ≤ content_length ino) :
    ∃ d₁, inode_write_at d fs ino buffer size offset
        = .ok ((size : ℤ), d₁.put ino.sector ino.data.encode, fs, ino)
      ∧ FileWritten fs l buffer offset size d d₁ := by
  have hlen := h.length_eq
  have hlt := h.length_lt
  have hcovers := h.covers
  obtain ⟨d₁, hloop, hw⟩ := inode_write_at_loop_spec h.geometry buffer (size + 1) size offset 0
    h.extent (Nat.lt_succ_self size) (by unfold inode_length; omega) (by omega)
  have h32 : i32 ((offset : ℤ) + size) = (offset : ℤ) + size :=
    i32_of_isI32 (by unfold IsI32; omega)
  simp only [Nat.zero_add, Nat.cast_zero] at hloop hw
  refine ⟨d₁, ?_, hw⟩
  rw [inode_write_at, if_neg (by simpa using hdeny)]
  simp only [h32, inode_length]
  rw [if_neg (by omega)]
  simp only [Outcome.ok_bind, Int.toNat_natCast, hloop, inode_flush,
    disk_write_ok (select_sector_congr hw.capacity h.inode_on_disk), Outcome.pure_eq]

/-- **`inode_write_at` behind the end of the file**, once the extension has come back with a chain
that is long enough. -/
theorem inode_write_at_extended {d₁ : disk} {fs₁ : fat_fs} {ino₁ : inode} (buffer : Bytes)
    (hdeny : ino.deny_write_cnt = 0) (hend : offset + size < 2 ^ 31)
    (hpast : ino.data.length < (offset : ℤ) + size)
    (hext : inode_extend d fs ino ((offset + size : ℕ) : ℤ) = .ok (d₁, fs₁, ino₁))
    (h : Backed d₁ fs₁ ino₁ l) (hlen : content_length ino₁ = offset + size) :
    ∃ d₂, inode_write_at d fs ino buffer size offset
        = .ok ((size : ℤ), d₂.put ino₁.sector ino₁.data.encode, fs₁, ino₁)
      ∧ inode_write_at_loop fs₁ ino₁ buffer (size + 1) d₁ size offset 0 = .ok ((size : ℤ), d₂)
      ∧ FileWritten fs₁ l buffer offset size d₁ d₂ := by
  have hlen₁ := h.length_eq
  have hcovers := h.covers
  obtain ⟨d₂, hloop, hw⟩ := inode_write_at_loop_spec h.geometry buffer (size + 1) size offset 0
    h.extent (Nat.lt_succ_self size) (by unfold inode_length; omega) (by omega)
  simp only [Nat.zero_add, Nat.cast_zero] at hloop hw
  refine ⟨d₂, ?_, hloop, hw⟩
  rw [inode_write_at_extend buffer hdeny hend hpast hext, hloop]
  simp only [Outcome.ok_bind, inode_flush,
    disk_write_ok (select_sector_congr hw.capacity h.inode_on_disk), Outcome.pure_eq]

/-- What was written is read back. -/
theorem Backed.read_back (h : Backed d fs ino l) (hw : FileWritten fs l buffer offset size d d')
    (hfit : offset + size ≤ content_length ino) (e b : Bytes) :
    ∃ b', inode_read_at (d'.put ino.sector e) fs ino b size offset = .ok ((size : ℤ), b')
      ∧ ∀ k < size, b' k = buffer k := by
  have hlen := h.length_eq
  have hcovers := h.covers
  have hback : Backed (d'.put ino.sector e) fs ino l := h.disk_congr hw.capacity
  obtain ⟨b', hrun, hb⟩ := inode_read_at_readable hback b size offset
  have hall : readable ino size offset = size := by
    unfold readable
    omega
  rw [hall] at hrun hb
  refine ⟨b', hrun, fun k hk => ?_⟩
  rw [hb k, if_pos hk, file_byte_flushed h hw (by omega), if_pos (by omega),
    Nat.add_sub_cancel_left]

end Write

/-! ## The refinement -/

theorem buffer_bytes_add (buffer : Bytes) (n m : ℕ) :
    buffer_bytes buffer (n + m) = buffer_bytes buffer n ++ buffer_bytes
      (fun k => buffer (n + k)) m := by
  simp only [buffer_bytes, List.range_add, List.map_append, List.map_map, Function.comp_def]

/-- A read delivers the slice of the array that is asked for, as far as the array goes, and
leaves the rest of the buffer. -/
def ReadsSlice (d : disk) (fs : fat_fs) (ino : inode) (l : List ℕ) (buffer : Bytes)
    (size offset : ℕ) : Prop :=
  ∃ buffer', inode_read_at d fs ino buffer size offset
      = .ok (((min size (content_length ino - offset) : ℕ) : ℤ), buffer')
    ∧ buffer_bytes buffer' (min size (content_length ino - offset))
        = slice (file_contents d fs ino l) offset size
    ∧ ∀ k, min size (content_length ino - offset) ≤ k → buffer' k = buffer k

/-- A write splices the buffer into the array. The table and the inode are what they were, and
so is every sector but the ones that hold a byte of the request, and the inode's own. -/
def WritesSplice (d : disk) (fs : fat_fs) (ino : inode) (l : List ℕ) (buffer : Bytes)
    (size offset : ℕ) : Prop :=
  ∃ d', inode_write_at d fs ino buffer size offset = .ok ((size : ℤ), d', fs, ino)
    ∧ file_contents d' fs ino l
        = splice 0 (file_contents d fs ino l) offset (buffer_bytes buffer size)
    ∧ d'.capacity = d.capacity
    ∧ ∀ s k, k < 512 → s ≠ ino.sector → ¬ Touches fs l offset size s →
        d'.sectors s k = d.sectors s k

/-- Two requests, the second one right behind the first, do together what the one request for
both does. A whole sector goes straight to the caller's buffer or from it, and each half of it
through the bounce buffer: the two ways agree. -/
def PathsAgree (d : disk) (fs : fat_fs) (ino : inode) (l : List ℕ) (buffer : Bytes)
    (n m offset : ℕ) : Prop :=
  (∃ count count₁ count₂ : ℕ, ∃ b b₁ b₂ : Bytes,
      inode_read_at d fs ino buffer ((n + m : ℕ) : ℤ) offset = .ok ((count : ℤ), b)
      ∧ inode_read_at d fs ino buffer n offset = .ok ((count₁ : ℤ), b₁)
      ∧ inode_read_at d fs ino (fun k => buffer (n + k)) m ((offset + n : ℕ) : ℤ)
          = .ok ((count₂ : ℤ), b₂)
      ∧ buffer_bytes b count = buffer_bytes b₁ count₁ ++ buffer_bytes b₂ count₂)
  ∧ (ino.deny_write_cnt = 0 → offset + (n + m) ≤ content_length ino →
      ∃ d' d₁ d₂, inode_write_at d fs ino buffer ((n + m : ℕ) : ℤ) offset
          = .ok (((n + m : ℕ) : ℤ), d', fs, ino)
        ∧ inode_write_at d fs ino buffer n offset = .ok ((n : ℤ), d₁, fs, ino)
        ∧ inode_write_at d₁ fs ino (fun k => buffer (n + k)) m ((offset + n : ℕ) : ℤ)
            = .ok ((m : ℤ), d₂, fs, ino)
        ∧ file_contents d' fs ino l = file_contents d₂ fs ino l)

section Refines

variable {d : disk} {fs : fat_fs} {ino : inode} {l : List ℕ}

theorem Backed.reads_slice (h : Backed d fs ino l) (buffer : Bytes) (size offset : ℕ) :
    ReadsSlice d fs ino l buffer size offset :=
  inode_read_at_slice h buffer size offset

theorem Backed.writes_splice (h : Backed d fs ino l) (hdeny : ino.deny_write_cnt = 0)
    (buffer : Bytes) {size offset : ℕ} (hfit : offset + size ≤ content_length ino) :
    WritesSplice d fs ino l buffer size offset := by
  obtain ⟨d₁, hrun, hw⟩ := inode_write_at_in_place h buffer hdeny hfit
  refine ⟨_, hrun, file_contents_written h hw hfit _, hw.capacity, fun s k hk hs htouch => ?_⟩
  rw [disk.put_sectors_of_ne hs]
  exact hw.untouched hk htouch

theorem Backed.paths_agree (h : Backed d fs ino l) (buffer : Bytes) (n m offset : ℕ) :
    PathsAgree d fs ino l buffer n m offset := by
  constructor
  · obtain ⟨b, hrun, hb, -⟩ := h.reads_slice buffer (n + m) offset
    obtain ⟨b₁, hrun₁, hb₁, -⟩ := h.reads_slice buffer n offset
    obtain ⟨b₂, hrun₂, hb₂, -⟩ := h.reads_slice (fun k => buffer (n + k)) m (offset + n)
    refine ⟨_, _, _, b, b₁, b₂, hrun, hrun₁, hrun₂, ?_⟩
    rw [hb, hb₁, hb₂, slice_add]
  · intro hdeny hfit
    obtain ⟨d', hrun, hc, -⟩ := h.writes_splice hdeny buffer hfit
    obtain ⟨d₁, hrun₁, hc₁, hcap, -⟩ :=
      h.writes_splice hdeny buffer (show offset + n ≤ content_length ino by omega)
    obtain ⟨d₂, hrun₂, hc₂, -⟩ := (h.disk_congr hcap).writes_splice hdeny (fun k => buffer (n + k))
      (show offset + n + m ≤ content_length ino by omega)
    refine ⟨d', d₁, d₂, hrun, hrun₁, hrun₂, ?_⟩
    have hsplice := splice_splice (z := (0 : UInt8)) (a := file_contents d fs ino l) (o := offset)
      (b := buffer_bytes buffer n) (c := buffer_bytes (fun k => buffer (n + k)) m)
    rw [buffer_bytes_length] at hsplice
    rw [hc, hc₂, hc₁, hsplice, buffer_bytes_add]

/-- **Reads and in-place writes refine a byte array**: for every inode whose chain covers its
length, every buffer, size and offset. -/
theorem inode_refines_byte_array (h : Backed d fs ino l) (buffer : Bytes) (size offset : ℕ) :
    ReadsSlice d fs ino l buffer size offset
    ∧ (ino.deny_write_cnt = 0 → offset + size ≤ content_length ino →
        WritesSplice d fs ino l buffer size offset)
    ∧ ∀ n m, n + m = size → PathsAgree d fs ino l buffer n m offset :=
  ⟨h.reads_slice buffer size offset, fun hdeny hfit => h.writes_splice hdeny buffer hfit,
    fun n m _ => h.paths_agree buffer n m offset⟩

end Refines

/-- A file of two clusters, 2 and 4. -/
def two_cluster_fat : fat_fs where
  bs := one_cluster_fat.bs
  fat := fun k => if k = 2 then 4 else if k < 5 then EOChain else 0
  fat_length := 8
  data_start := 2
  last_clst := 4

/-- 600 bytes asked for at 500 in a file of 1000: the last 500 are delivered; 100 written at 450
are spliced in, across the border of the clusters. -/
theorem thousand_bytes_refine :
    ReadsSlice blank_disk two_cluster_fat (one_cluster_inode 1000) [2, 4] (fun _ => 7) 600 500
    ∧ WritesSplice blank_disk two_cluster_fat (one_cluster_inode 1000) [2, 4]
    (fun _ => 7) 100 450 := by
  have h : Backed blank_disk two_cluster_fat (one_cluster_inode 1000) [2, 4] :=
    { geometry := ⟨by decide, by decide, by decide, by decide⟩
      chain := .inr ⟨by decide, show Path two_cluster_fat.fat 2 [2, 4] EOChain by decide, by decide⟩
      length_nonneg := by decide
      length_lt := by decide
      covers := by decide
      on_disk := by decide
      inode_on_disk := by decide
      apart := by decide }
  exact ⟨(inode_refines_byte_array h (fun _ => 7) 600 500).1,
    (inode_refines_byte_array h (fun _ => 7) 100 450).2.1 rfl (by decide)⟩

end Pintos
