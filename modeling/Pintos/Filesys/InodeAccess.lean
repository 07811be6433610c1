/-
Reading and writing inside a file: what the loops of `inode.c` do to its bytes.

`Inode.lean` is the code. Here a file is the bytes of its clusters, one after
the other (`file_byte`), and each loop gets one specification in those terms:
`byte_to_sector` finds the cluster of a position, `inode_read_at` copies bytes
out, `inode_write_at_loop` replaces bytes and touches no other sector
(`FileWritten`). The precondition they share is `Extent`: the clusters are
reached from the inode's start, in the table, and on the disk. It does not ask
how the walk ends, so it also covers a directory whose chain is not terminated.
-/
import Pintos.Filesys.Inode
import Mathlib.Data.List.GetD

set_option autoImplicit false

namespace Pintos

/-! ## Files as bytes -/

/-- Byte `p` of the file whose data chain is `l`. -/
def file_byte (d : disk) (fs : fat_fs) (l : List ℕ) (p : ℕ) : UInt8 :=
  d.sectors (cluster_to_sector fs (l.getD (p / 512) 0)) (p % 512)

theorem cluster_to_sector_lt (fs : fat_fs) (c : ℕ) : cluster_to_sector fs c < 2 ^ 32 := by
  unfold cluster_to_sector
  omega

theorem cluster_to_sector_congr {fs fs' : fat_fs} (h : fs'.data_start = fs.data_start) (c : ℕ) :
    cluster_to_sector fs' c = cluster_to_sector fs c := by
  rw [cluster_to_sector, cluster_to_sector, h]

/-- The clusters `l` of a file: a walk from `start` through the table, each
cluster once, each on the disk. -/
structure Extent (d : disk) (fs : fat_fs) (start : ℕ) (l : List ℕ) : Prop where
  path : ∃ e, Path fs.fat start l e
  range : ∀ k ∈ l, 1 ≤ k ∧ k < fs.fat_length
  nodup : l.Nodup
  on_disk : ∀ k ∈ l, select_sector d (cluster_to_sector fs k)

namespace Extent

variable {d d' : disk} {fs fs' : fat_fs} {start : ℕ} {l : List ℕ}

theorem of_chain (hg : fs.Geometry) (h : Chain fs start l)
    (hd : ∀ k ∈ l, select_sector d (cluster_to_sector fs k)) : Extent d fs start l :=
  ⟨⟨EOChain, h.path⟩, h.range, h.nodup hg, hd⟩

/-- Only the size of the disk matters. -/
theorem disk_congr (h : Extent d fs start l) (hc : d'.capacity = d.capacity) :
    Extent d' fs start l :=
  ⟨h.path, h.range, h.nodup, fun k hk => select_sector_congr hc (h.on_disk k hk)⟩

/-- Two positions in one sector of the file have one cluster, and conversely. -/
theorem sector_inj (hg : fs.Geometry) (h : Extent d fs start l) {i j : ℕ} (hi : i < l.length)
    (hj : j < l.length)
    (heq : cluster_to_sector fs (l.getD i 0) = cluster_to_sector fs (l.getD j 0)) : i = j := by
  rw [List.getD_eq_getElem _ _ hi, List.getD_eq_getElem _ _ hj] at heq
  have hri := (h.range _ (List.getElem_mem hi)).2
  have hrj := (h.range _ (List.getElem_mem hj)).2
  have hc := cluster_to_sector_inj hg (Nat.le_of_lt hri) (Nat.le_of_lt hrj) heq
  exact (List.Nodup.getElem_inj_iff h.nodup).mp hc

theorem getD_on_disk (h : Extent d fs start l) {i : ℕ} (hi : i < l.length) :
    select_sector d (cluster_to_sector fs (l.getD i 0)) := by
  rw [List.getD_eq_getElem _ _ hi]
  exact h.on_disk _ (List.getElem_mem hi)

end Extent

/-! ## `byte_to_sector` -/

/-- Along a walk through the table the loop finds cluster number `n`. -/
theorem byte_to_sector_loop_eq {fs : fat_fs} (hg : fs.Geometry) (l : List ℕ) :
    ∀ {c e n : ℕ}, Path fs.fat c l e → (∀ k ∈ l, k < fs.fat_length) → n < l.length →
      byte_to_sector_loop fs n c = .ok (cluster_to_sector fs (l.getD n 0)) := by
  induction l with
  | nil =>
      intro c e n _ _ hn
      exact absurd hn (Nat.not_lt_zero _)
  | cons x l ih =>
      intro c e n hp hr hn
      obtain ⟨rfl, hp⟩ := hp
      cases n with
      | zero => rfl
      | succ n =>
          have hn' : n < l.length := by simpa using hn
          have hnext : fs.fat c ∈ l := hp.start_mem (List.ne_nil_of_length_pos (by omega))
          have hne : fs.fat c ≠ EOChain := by
            have := hr _ (List.mem_cons_of_mem _ hnext)
            have := hg.length_le
            omega
          rw [byte_to_sector_loop, fat_get_ok (hr c List.mem_cons_self)]
          simp only [Outcome.ok_bind, if_neg hne]
          rw [ih hp (fun k hk => hr k (List.mem_cons_of_mem _ hk)) hn']
          rfl

/-- Behind the end of a chain the loop finds no sector. -/
theorem byte_to_sector_loop_end {fs : fat_fs} (l : List ℕ) :
    ∀ {c n : ℕ}, Path fs.fat c l EOChain → (∀ k ∈ l, k < fs.fat_length) → l ≠ [] →
      l.length ≤ n → byte_to_sector_loop fs n c = .ok NO_SECTOR := by
  induction l with
  | nil => exact fun _ _ h => absurd rfl h
  | cons x l ih =>
      intro c n hp hr _ hn
      obtain ⟨rfl, hp⟩ := hp
      obtain ⟨n, rfl⟩ : ∃ m, n = m + 1 := ⟨n - 1, by simp at hn; omega⟩
      rw [byte_to_sector_loop, fat_get_ok (hr c List.mem_cons_self)]
      simp only [Outcome.ok_bind]
      by_cases hend : fs.fat c = EOChain
      · rw [if_pos hend]
        rfl
      · rw [if_neg hend]
        refine ih hp (fun k hk => hr k (List.mem_cons_of_mem _ hk)) ?_ (by simpa using hn)
        rintro rfl
        exact hend hp

/-- **`byte_to_sector`** inside the file: the sector of the cluster the position
falls into. -/
theorem byte_to_sector_eq {d : disk} {fs : fat_fs} (hg : fs.Geometry) {ino : inode} {l : List ℕ}
    (hx : Extent d fs ino.data.start l) (pos : ℕ) (hpos : (pos : ℤ) ≤ ino.data.length)
    (hl : pos / 512 < l.length) :
    byte_to_sector fs ino pos = .ok (cluster_to_sector fs (l.getD (pos / 512) 0)) := by
  obtain ⟨e, hp⟩ := hx.path
  have hmem : ino.data.start ∈ l := hp.start_mem (List.ne_nil_of_length_pos (by omega))
  have hr := hx.range _ hmem
  have hle := hg.length_le
  have hq : ((pos : ℤ).tdiv 512).toNat = pos / 512 := by
    rw [Int.tdiv_eq_ediv_of_nonneg (by omega)]
    omega
  rw [byte_to_sector, if_neg (by omega), if_neg (by omega), hq]
  exact byte_to_sector_loop_eq hg l hp (fun k hk => (hx.range k hk).2) hl

/-- Behind the last cluster there is no sector, whatever the length says. -/
theorem byte_to_sector_end {fs : fat_fs} {ino : inode} {l : List ℕ}
    (hch : DataChain fs ino.data.start l) (pos : ℕ) (hl : l.length ≤ pos / 512) :
    byte_to_sector fs ino pos = .ok NO_SECTOR := by
  unfold byte_to_sector
  split
  · rfl
  · split
    · rfl
    · rename_i hstart
      have hq : ((pos : ℤ).tdiv 512).toNat = pos / 512 := by
        rw [Int.tdiv_eq_ediv_of_nonneg (by omega)]
        omega
      rcases hch with ⟨h0, -⟩ | ⟨hne, hch⟩
      · exact absurd (.inl h0) hstart
      · rw [hq]
        exact byte_to_sector_loop_end l hch.path (fun k hk => (hch.range k hk).2) hne hl

/-! ## Positions in C and in Lean -/

theorem tmod_512 (o : ℕ) : (o : ℤ).tmod 512 = ((o % 512 : ℕ) : ℤ) := by
  rw [Int.tmod_eq_emod_of_nonneg (by omega)]
  omega

/-- The bytes one turn of a copy loop moves when `size` bytes are left: up to the
end of the sector. -/
def chunk (size offset : ℕ) : ℕ := min size (512 - offset % 512)

theorem chunk_pos {size : ℕ} (h : 0 < size) (offset : ℕ) : 0 < chunk size offset := by
  unfold chunk
  omega

theorem chunk_le (size offset : ℕ) : chunk size offset ≤ size := Nat.min_le_left _ _

/-- `chunk_size` of the C, when the file reaches to the end of the request. -/
theorem chunk_size_eq {len : ℤ} {size offset : ℕ} (hfit : (offset : ℤ) + size ≤ len) :
    (if (size : ℤ) <
        (if len - offset < 512 - ((offset % 512 : ℕ) : ℤ) then len - (offset : ℤ)
          else 512 - ((offset % 512 : ℕ) : ℤ)) then (size : ℤ)
      else (if len - offset < 512 - ((offset % 512 : ℕ) : ℤ) then len - (offset : ℤ)
          else 512 - ((offset % 512 : ℕ) : ℤ)))
      = ((chunk size offset : ℕ) : ℤ) := by
  unfold chunk
  split_ifs <;> omega

/-! ## Writing -/

/-- `d'` is `d` with the `size` bytes from `offset` on of the file `l` replaced
by the bytes of `buffer`. -/
structure FileWritten (fs : fat_fs) (l : List ℕ) (buffer : Bytes) (offset size : ℕ)
    (d d' : disk) : Prop where
  capacity : d'.capacity = d.capacity
  bytes : ∀ p < 512 * l.length, file_byte d' fs l p
    = if offset ≤ p ∧ p < offset + size then buffer (p - offset) else file_byte d fs l p
  frame : ∀ s, (∀ k ∈ l, s ≠ cluster_to_sector fs k) → d'.sectors s = d.sectors s

namespace FileWritten

variable {fs : fat_fs} {l : List ℕ} {buffer : Bytes} {offset size n m : ℕ} {d d₁ d₂ : disk}

theorem nothing : FileWritten fs l buffer offset 0 d d :=
  ⟨rfl, fun p _ => by rw [if_neg (by omega)], fun _ _ => rfl⟩

/-- Two writes, the second one right behind the first. -/
theorem trans (h₁ : FileWritten fs l buffer offset n d d₁)
    (h₂ : FileWritten fs l (fun k => buffer (n + k)) (offset + n) m d₁ d₂) :
    FileWritten fs l buffer offset (n + m) d d₂ := by
  refine ⟨h₂.capacity.trans h₁.capacity, fun p hp => ?_, fun s hs => ?_⟩
  · rw [h₂.bytes p hp, h₁.bytes p hp]
    by_cases hlate : offset + n ≤ p ∧ p < offset + n + m
    · rw [if_pos hlate, if_pos (by omega)]
      congr 1
      omega
    · rw [if_neg hlate]
      by_cases hearly : offset ≤ p ∧ p < offset + n
      · rw [if_pos hearly, if_pos (by omega)]
      · rw [if_neg hearly, if_neg (by omega)]
  · rw [h₂.frame s hs, h₁.frame s hs]

/-- One sector of the file, partly overwritten. -/
theorem put {start : ℕ} (hg : fs.Geometry) (hx : Extent d fs start l) (buffer : Bytes)
    {bounce : Bytes}
    (hq : offset / 512 < l.length) (hfit : offset % 512 + n ≤ 512)
    (hb : ∀ k < 512, bounce k = if offset % 512 ≤ k ∧ k < offset % 512 + n
      then buffer (k - offset % 512)
      else d.sectors (cluster_to_sector fs (l.getD (offset / 512) 0)) k) :
    FileWritten fs l buffer offset n d
      (d.put (cluster_to_sector fs (l.getD (offset / 512) 0)) bounce) := by
  refine ⟨rfl, fun p hp => ?_, fun s hs => ?_⟩
  · have hpl : p / 512 < l.length := by omega
    unfold file_byte
    by_cases hsame : p / 512 = offset / 512
    · -- in the sector written: the bounce buffer decides
      rw [hsame, disk.put_sectors_self, hb (p % 512) (by omega)]
      by_cases hin : offset ≤ p ∧ p < offset + n
      · rw [if_pos hin, if_pos (by omega)]
        congr 1
        omega
      · rw [if_neg hin, if_neg (by omega)]
    · rw [if_neg (by omega), disk.put_sectors_of_ne]
      intro heq
      exact hsame (hx.sector_inj hg hpl hq heq)
  · refine disk.put_sectors_of_ne (hs _ ?_)
    rw [List.getD_eq_getElem _ _ hq]
    exact List.getElem_mem hq

end FileWritten

/-- One turn of the copy loop of `inode_write_at`. -/
theorem inode_write_at_loop_turn (buffer : Bytes) (fuel written : ℕ) {d : disk} {fs : fat_fs}
    {ino : inode} {size offset s : ℕ} (hsize : 0 < size)
    (hfit : (offset : ℤ) + size ≤ inode_length ino)
    (hsec : byte_to_sector fs ino offset = .ok s) (hsel : select_sector d s) :
    ∃ bounce : Bytes,
      (∀ k < 512, bounce k = if offset % 512 ≤ k ∧ k < offset % 512 + chunk size offset
        then buffer (written + (k - offset % 512)) else d.sectors s k)
      ∧ inode_write_at_loop fs ino buffer (fuel + 1) d size offset written
          = inode_write_at_loop fs ino buffer fuel (d.put s bounce)
              ((size - chunk size offset : ℕ) : ℤ) ((offset + chunk size offset : ℕ) : ℤ)
              ((written + chunk size offset : ℕ) : ℤ) := by
  have hpos := chunk_pos hsize offset
  have hle := chunk_le size offset
  have hsub : (size : ℤ) - (chunk size offset : ℤ) = ((size - chunk size offset : ℕ) : ℤ) := by
    omega
  rw [inode_write_at_loop, if_neg (by omega), hsec]
  simp only [Outcome.ok_bind, tmod_512, chunk_size_eq hfit, hsub, ← Nat.cast_add,
    Int.toNat_natCast]
  rw [if_neg (by omega)]
  by_cases hfull : ((offset % 512 : ℕ) : ℤ) = 0 ∧ ((chunk size offset : ℕ) : ℤ) = 512
  · -- a whole sector straight from the caller's buffer
    refine ⟨fun k => buffer (written + k), fun k hk => ?_, ?_⟩
    · rw [if_pos (by omega)]
      congr 1
      omega
    · rw [if_pos hfull]
      simp only [Outcome.ok_bind, disk_write_ok hsel]
  · -- a part of a sector: read it first, as one end of it has to survive
    have hpart : ((offset % 512 : ℕ) : ℤ) > 0
        ∨ ((chunk size offset : ℕ) : ℤ) < 512 - ((offset % 512 : ℕ) : ℤ) := by
      have : chunk size offset ≤ 512 - offset % 512 := Nat.min_le_right _ _
      omega
    refine ⟨memcpy (d.sectors s) (offset % 512) (fun k => buffer (written + k))
      (chunk size offset), fun k _ => ?_, ?_⟩
    · rfl
    · rw [if_neg hfull, if_pos hpart, disk_read_ok hsel]
      simp only [Outcome.ok_bind, disk_write_ok hsel]

/-- **The copy loop of `inode_write_at`**, when the file reaches to the end of
the request: all of it is written, into the file's own bytes. -/
theorem inode_write_at_loop_spec {fs : fat_fs} (hg : fs.Geometry) {ino : inode} {l : List ℕ}
    (buffer : Bytes) : ∀ (fuel : ℕ) {d : disk} (size offset written : ℕ),
      Extent d fs ino.data.start l → size < fuel → (offset : ℤ) + size ≤ inode_length ino →
      offset + size ≤ 512 * l.length →
        ∃ d', inode_write_at_loop fs ino buffer fuel d size offset written
            = .ok (((written + size : ℕ) : ℤ), d')
          ∧ FileWritten fs l (fun k => buffer (written + k)) offset size d d' := by
  intro fuel
  induction fuel with
  | zero =>
      intro d size offset written _ hf
      exact absurd hf (Nat.not_lt_zero _)
  | succ fuel ih =>
      intro d size offset written hx hf hfit hl
      rcases Nat.eq_zero_or_pos size with rfl | hsize
      · refine ⟨d, ?_, .nothing⟩
        rw [inode_write_at_loop, if_pos (by omega), Nat.add_zero]
      · have hq : offset / 512 < l.length := by omega
        have hpos := chunk_pos hsize offset
        have hle := chunk_le size offset
        have hle' : chunk size offset ≤ 512 - offset % 512 := Nat.min_le_right _ _
        have hsec := byte_to_sector_eq hg hx offset (by unfold inode_length at hfit; omega) hq
        obtain ⟨bounce, hb, hturn⟩ := inode_write_at_loop_turn buffer fuel written hsize hfit hsec
          (hx.getD_on_disk hq)
        have hput := FileWritten.put hg hx (fun k => buffer (written + k)) hq (by omega) hb
        -- the rest of the request starts behind the chunk
        obtain ⟨d', hrest, hw⟩ := ih (size - chunk size offset) (offset + chunk size offset)
          (written + chunk size offset) (hx.disk_congr hput.capacity) (by omega) (by omega)
          (by omega)
        refine ⟨d', ?_, ?_⟩
        · rw [hturn, hrest]
          congr 3
          omega
        · simp only [Nat.add_assoc] at hw
          have hall := hput.trans hw
          rwa [Nat.add_sub_cancel' hle] at hall

/-! ## Reading -/

/-- One turn of the loop of `inode_read_at`. -/
theorem inode_read_at_loop_turn (fuel done : ℕ) {d : disk} {fs : fat_fs} {ino : inode}
    {buffer : Bytes} {size offset s : ℕ} (hsize : 0 < size)
    (hfit : (offset : ℤ) + size ≤ inode_length ino)
    (hsec : byte_to_sector fs ino offset = .ok s) (hsel : select_sector d s) :
    inode_read_at_loop d fs ino (fuel + 1) buffer size offset done
      = inode_read_at_loop d fs ino fuel
          (memcpy buffer done (fun k => d.sectors s (offset % 512 + k)) (chunk size offset))
          ((size - chunk size offset : ℕ) : ℤ) ((offset + chunk size offset : ℕ) : ℤ)
          ((done + chunk size offset : ℕ) : ℤ) := by
  have hpos := chunk_pos hsize offset
  have hle := chunk_le size offset
  have hsub : (size : ℤ) - (chunk size offset : ℤ) = ((size - chunk size offset : ℕ) : ℤ) := by
    omega
  rw [inode_read_at_loop, if_neg (by omega), hsec]
  simp only [Outcome.ok_bind, tmod_512, chunk_size_eq hfit, hsub, ← Nat.cast_add,
    Int.toNat_natCast]
  rw [if_neg (by omega), disk_read_ok hsel]
  by_cases hfull : ((offset % 512 : ℕ) : ℤ) = 0 ∧ ((chunk size offset : ℕ) : ℤ) = 512
  · have h0 : offset % 512 = 0 := by omega
    have hc : chunk size offset = 512 := by omega
    simp only [Outcome.ok_bind, if_pos hfull]
    simp only [h0, hc, Nat.zero_add]
  · simp only [Outcome.ok_bind, if_neg hfull]

/-- The loop of `inode_read_at`, when the file reaches to the end of the
request. -/
theorem inode_read_at_loop_spec {fs : fat_fs} (hg : fs.Geometry) {d : disk} {ino : inode}
    {l : List ℕ} (hx : Extent d fs ino.data.start l) :
    ∀ (fuel : ℕ) (buffer : Bytes) (size offset done : ℕ), size < fuel →
      (offset : ℤ) + size ≤ inode_length ino → offset + size ≤ 512 * l.length →
        ∃ buffer', inode_read_at_loop d fs ino fuel buffer size offset done
            = .ok (((done + size : ℕ) : ℤ), buffer')
          ∧ ∀ k, buffer' k = if done ≤ k ∧ k < done + size
              then file_byte d fs l (offset + (k - done)) else buffer k := by
  intro fuel
  induction fuel with
  | zero =>
      intro buffer size offset done hf
      exact absurd hf (Nat.not_lt_zero _)
  | succ fuel ih =>
      intro buffer size offset done hf hfit hl
      rcases Nat.eq_zero_or_pos size with rfl | hsize
      · refine ⟨buffer, ?_, fun k => ?_⟩
        · rw [inode_read_at_loop, if_pos (by omega), Nat.add_zero]
        · rw [if_neg (by omega)]
      · have hq : offset / 512 < l.length := by omega
        have hpos := chunk_pos hsize offset
        have hle := chunk_le size offset
        have hle' : chunk size offset ≤ 512 - offset % 512 := Nat.min_le_right _ _
        have hsec := byte_to_sector_eq hg hx offset (by unfold inode_length at hfit; omega) hq
        rw [inode_read_at_loop_turn fuel done hsize hfit hsec (hx.getD_on_disk hq)]
        obtain ⟨buffer', hrest, hb⟩ := ih _ (size - chunk size offset)
          (offset + chunk size offset) (done + chunk size offset) (by omega) (by omega) (by omega)
        refine ⟨buffer', ?_, fun k => ?_⟩
        · rw [hrest]
          congr 3
          omega
        · rw [hb k]
          by_cases hlate : done + chunk size offset ≤ k
              ∧ k < done + chunk size offset + (size - chunk size offset)
          · rw [if_pos hlate, if_pos (by omega)]
            congr 1
            omega
          · rw [if_neg hlate]
            by_cases hearly : done ≤ k ∧ k < done + chunk size offset
            · -- copied in this turn, from the sector `offset` is in
              have hdiv : (offset + (k - done)) / 512 = offset / 512 := by omega
              have hmod : (offset + (k - done)) % 512 = offset % 512 + (k - done) := by omega
              rw [memcpy_in hearly.1 hearly.2, if_pos (by omega)]
              unfold file_byte
              rw [hdiv, hmod]
            · rw [memcpy_out hearly, if_neg (by omega)]

/-- **`inode_read_at`** of a part of the file: it returns the whole count, with the
file's bytes in the buffer. -/
theorem inode_read_at_spec {fs : fat_fs} (hg : fs.Geometry) {d : disk} {ino : inode} {l : List ℕ}
    (hx : Extent d fs ino.data.start l) (buffer : Bytes) {size offset : ℕ}
    (hfit : (offset : ℤ) + size ≤ inode_length ino) (hl : offset + size ≤ 512 * l.length) :
    ∃ buffer', inode_read_at d fs ino buffer size offset = .ok ((size : ℤ), buffer')
      ∧ ∀ k, buffer' k = if k < size then file_byte d fs l (offset + k) else buffer k := by
  obtain ⟨buffer', hrun, hb⟩ := inode_read_at_loop_spec hg hx (size + 1) buffer size offset 0
    (by omega) hfit hl
  refine ⟨buffer', ?_, fun k => ?_⟩
  · rw [inode_read_at, Int.toNat_natCast]
    simpa using hrun
  · rw [hb k]
    simp

/-! ## The last byte of a transfer -/

section LastByte

variable {d d' : disk} {fs : fat_fs} {ino : inode}

/-- Two positions in one sector have one sector. -/
theorem byte_to_sector_same {p q : ℕ} (hpq : p / 512 = q / 512) (hp : (p : ℤ) ≤ ino.data.length)
    (hq : (q : ℤ) ≤ ino.data.length) : byte_to_sector fs ino p = byte_to_sector fs ino q := by
  have hp' : ¬ (p : ℤ) > ino.data.length := by omega
  have hq' : ¬ (q : ℤ) > ino.data.length := by omega
  unfold byte_to_sector
  rw [if_neg hp', if_neg hq']
  have hdiv : ((p : ℤ).tdiv 512).toNat = ((q : ℤ).tdiv 512).toNat := by
    rw [Int.tdiv_eq_ediv_of_nonneg (by omega), Int.tdiv_eq_ediv_of_nonneg (by omega)]
    omega
  rw [hdiv]

theorem inode_write_at_loop_sector {fuel size offset written : ℕ} {buffer : Bytes} {n : ℤ}
    (hsize : 0 < size) (hfit : (offset : ℤ) + size ≤ inode_length ino)
    (h : inode_write_at_loop fs ino buffer (fuel + 1) d size offset written = .ok (n, d')) :
    ∃ sec, byte_to_sector fs ino offset = .ok sec ∧ select_sector d sec := by
  have hpos := chunk_pos hsize offset
  rw [inode_write_at_loop, if_neg (by omega)] at h
  obtain ⟨sec, hsec, h⟩ := Outcome.bind_eq_ok.mp h
  simp only [tmod_512, chunk_size_eq hfit] at h
  rw [if_neg (by omega)] at h
  refine ⟨sec, hsec, ?_⟩
  split at h
  · rw [Outcome.ok_bind] at h
    obtain ⟨d₁, hd₁, -⟩ := Outcome.bind_eq_ok.mp h
    exact (disk_write_eq_ok.mp hd₁).1
  · split at h
    · obtain ⟨b, hb, -⟩ := Outcome.bind_eq_ok.mp h
      exact (disk_read_eq_ok.mp hb).1
    · rw [Outcome.ok_bind, Outcome.ok_bind] at h
      obtain ⟨d₁, hd₁, -⟩ := Outcome.bind_eq_ok.mp h
      exact (disk_write_eq_ok.mp hd₁).1

/-- **The last byte written** is on the disk when the loop is done. A write inside
the file is complete. -/
theorem inode_write_at_loop_last (buffer : Bytes) (fuel : ℕ) :
    ∀ {size offset written : ℕ} {d d' : disk} {n : ℤ}, 0 < size →
      (offset : ℤ) + size ≤ inode_length ino →
      inode_write_at_loop fs ino buffer fuel d size offset written = .ok (n, d') →
        n = ((written + size : ℕ) : ℤ)
        ∧ ∃ sec, byte_to_sector fs ino ((offset + size - 1 : ℕ) : ℤ) = .ok sec
          ∧ select_sector d sec ∧ d'.sectors sec ((offset + size - 1) % 512)
          = buffer (written + size - 1) := by
  induction fuel with
  | zero =>
      intro size offset written d d' n hsize hfit h
      cases h
  | succ fuel ih =>
      intro size offset written d d' n hsize hfit h
      obtain ⟨sec, hsec, hsel⟩ := inode_write_at_loop_sector hsize hfit h
      have hle := chunk_le size offset
      have hpos := chunk_pos hsize offset
      have hroom : chunk size offset ≤ 512 - offset % 512 := Nat.min_le_right _ _
      obtain ⟨bounce, hbounce, hturn⟩ :=
        inode_write_at_loop_turn buffer fuel written hsize hfit hsec hsel
      rw [hturn] at h
      by_cases hlast : chunk size offset = size
      · -- the last turn
        cases fuel with
        | zero => cases h
        | succ fuel =>
            rw [inode_write_at_loop, if_pos (by omega)] at h
            cases Outcome.ok.inj h
            refine ⟨by rw [hlast], sec, ?_, hsel, ?_⟩
            · rw [← hsec]
              exact byte_to_sector_same (by omega) (by unfold inode_length at hfit; omega)
                (by unfold inode_length at hfit; omega)
            · rw [disk.put_sectors_self, hbounce _ (by omega), if_pos (by omega)]
              congr 1
              omega
      · obtain ⟨hn, sec', hsec', hsel', hbyte⟩ := ih (by omega) (by push_cast; omega) h
        have hofs : offset + chunk size offset + (size - chunk size offset) - 1
            = offset + size - 1 := by omega
        have hwr : written + chunk size offset + (size - chunk size offset) - 1
            = written + size - 1 := by omega
        rw [hofs] at hsec' hbyte
        rw [hwr] at hbyte
        refine ⟨?_, sec', hsec', (disk.select_sector_put _ _ _ _).mp hsel', hbyte⟩
        rw [hn]
        congr 1
        omega

/-- A write that comes back has found a cluster for its last byte. -/
theorem inode_write_at_loop_covered {buffer : Bytes} {fuel size offset written : ℕ} {l : List ℕ}
    {n : ℤ} (h : inode_write_at_loop fs ino buffer fuel d size offset written = .ok (n, d'))
    (hch : DataChain fs ino.data.start l) (hsize : 0 < size)
    (hfit : (offset : ℤ) + size ≤ inode_length ino) :
    offset + size ≤ 512 * l.length := by
  obtain ⟨-, sec, hsec, hsel, -⟩ := inode_write_at_loop_last buffer fuel hsize hfit h
  by_contra hshort
  rw [byte_to_sector_end hch _ (by omega)] at hsec
  obtain rfl := Outcome.ok.inj hsec
  exact absurd hsel.2 (by decide)

end LastByte

end Pintos
