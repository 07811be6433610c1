/-
An open directory is its array of bytes.

What `Directory.lean` does on an inode is what `ByteDir.lean` does on the contents of its
file: every scan, every entry that is written inside the file, and every entry that is
appended, as long as the inode is a well-formed one and the clusters it asks for are there.
-/
import Pintos.Filesys.ByteDir
import Pintos.Filesys.Sparse

set_option autoImplicit false

namespace Pintos

/-- The open directory `dir` is an inode with these contents. -/
structure DirBytes (s : filesys) (dir : ℕ) (ino : inode) (l : List ℕ) (a : List UInt8) : Prop where
  is_open : s.inode dir = some ino
  backed : Backed s.disk s.fat ino l
  contents : file_contents s.disk s.fat ino l = a

namespace DirBytes

variable {s : filesys} {dir : ℕ} {ino : inode} {l : List ℕ} {a : List UInt8}

theorem length_eq (h : DirBytes s dir ino l a) : a.length = content_length ino := by
  rw [← h.contents, file_contents_length]

/-- **Reading an entry.** -/
theorem read_entry (h : DirBytes s dir ino l a) (e : Bytes) (ofs : ℕ) :
    inode_read_at s.disk s.fat ino e DIR_ENTRY_SIZE ofs = .ok (byte_dir.read_entry a e ofs) := by
  obtain ⟨e', hrun, hbytes⟩ := inode_read_at_readable h.backed e DIR_ENTRY_SIZE ofs
  have hcount : (slice a ofs DIR_ENTRY_SIZE).length = readable ino DIR_ENTRY_SIZE ofs := by
    rw [slice_length, h.length_eq]
    rfl
  have hfst : (byte_dir.read_entry a e ofs).1 = ((readable ino DIR_ENTRY_SIZE ofs : ℕ) : ℤ) :=
    congrArg Nat.cast hcount
  have hsnd : (byte_dir.read_entry a e ofs).2 = e' := by
    funext k
    rw [byte_dir.read_entry_byte, hcount, hbytes k]
    by_cases hk : k < readable ino DIR_ENTRY_SIZE ofs
    · have hin : ofs + k < content_length ino := by
        unfold readable at hk
        omega
      have hsize : k < DIR_ENTRY_SIZE := by
        unfold readable at hk
        omega
      rw [if_pos hk, if_pos hk, List.getD_eq_getElem?_getD, getElem?_slice,
        if_pos hsize, ← h.contents, getElem?_file_contents, if_pos hin, Option.getD_some]
    · rw [if_neg hk, if_neg hk]
  rw [hrun, ← hsnd, ← hfst]

/-- **A scan.** -/
theorem dir_scan_eq (h : DirBytes s dir ino l a) (p : Bytes → Bool) (ofs : ℕ) (e : Bytes) :
    dir_scan s ino p (ino.data.length.toNat / DIR_ENTRY_SIZE + 2) ofs e
      = byte_dir.scan a p ofs e := by
  have hlen : ino.data.length.toNat = a.length := h.length_eq.symm
  rw [Pintos.dir_scan_eq, byte_dir.scan, hlen]
  exact congrArg (fun read => scan_with read p _ ofs e)
    (funext fun e => funext fun ofs => h.read_entry e ofs)

theorem dir_find_eq (h : DirBytes s dir ino l a) (p : Bytes → Bool) :
    dir_find s dir p = byte_dir.scan a p 0 zeros := by
  rw [dir_find, filesys.get_inode_eq_ok.mpr h.is_open, Outcome.ok_bind, h.dir_scan_eq]

/-- **`dir_readdir`.** -/
theorem dir_readdir_eq (h : DirBytes s dir ino l a) (pos : ℕ) (e : Bytes) :
    dir_readdir s dir pos e = byte_dir.dir_readdir a pos e := by
  rw [dir_readdir, filesys.get_inode_eq_ok.mpr h.is_open, Outcome.ok_bind, h.dir_scan_eq]
  rfl

theorem lookup_eq (h : DirBytes s dir ino l a) (name : c_string) :
    lookup s dir name = byte_dir.lookup a name zeros := by
  rw [lookup, h.dir_find_eq]
  rfl

/-- **Writing an entry inside the file.** -/
theorem write_entry_inside (h : DirBytes s dir ino l a) (hdeny : ino.deny_write_cnt = 0) (e : Bytes)
    {ofs : ℕ} (hin : ofs + DIR_ENTRY_SIZE ≤ a.length) :
    ∃ s', write_entry s dir e ofs = .ok (true, s')
      ∧ DirBytes s' dir ino l (byte_dir.write_entry a e ofs) := by
  have hfit : ofs + DIR_ENTRY_SIZE ≤ content_length ino := h.length_eq ▸ hin
  obtain ⟨d', hrun, hc, hcap, -⟩ := h.backed.writes_splice hdeny e hfit
  refine ⟨s.write_back dir d' s.fat ino, ?_, ?_⟩
  · rw [write_entry, filesys.get_inode_eq_ok.mpr h.is_open, Outcome.ok_bind, hrun]
    simp
  · refine ⟨Function.update_self _ _ _, h.backed.disk_congr hcap, ?_⟩
    rw [h.contents] at hc
    exact hc

/-- What an append needs: the rest of what the kernel maintains about the inode, and free
clusters. The root directory is left out, whose second cluster is replaced when it grows. -/
structure Spare (s : filesys) (ino : inode) (l : List ℕ) (size : ℕ) : Prop where
  covered : Covered s.disk s.fat ino l
  apart : InodeApart s.fat ino l
  not_root : ino.data.start ≠ ROOT_DIR_CLUSTER
  fits : content_length ino + size < 2 ^ 31
  delivers : Delivers s.disk s.fat
    (grow_clusters ino.data.start (content_length ino) (content_length ino + size))
  grows : GrowOk ino.data.start (content_length ino) (content_length ino + size) l

/-- **Appending an entry.** -/
theorem write_entry_append (h : DirBytes s dir ino l a) (hdeny : ino.deny_write_cnt = 0)
    (hspare : Spare s ino l DIR_ENTRY_SIZE) (e : Bytes) :
    ∃ s' ino' l', write_entry s dir e a.length = .ok (true, s')
      ∧ DirBytes s' dir ino' l' (byte_dir.write_entry a e a.length) := by
  obtain ⟨cs, hcs, hcount, hsel⟩ := hspare.delivers
  have hpos : 0 < DIR_ENTRY_SIZE := by decide
  obtain ⟨fs', ino', d₂, hrun, hlen', hds, hw, hsector, hback⟩ :=
    inode_write_at_grows hspare.covered
    hspare.apart e hdeny hspare.fits (by omega) hcs hcount hsel hspare.grows
  have hcovers := hback.covers
  rw [hback.length_eq, hlen'] at hcovers
  have hold := hspare.covered.covers
  rw [h.backed.length_eq] at hold
  have hkept : kept_clusters ino.data.start (content_length ino)
    (content_length ino + DIR_ENTRY_SIZE) l
      = l.length := if_neg fun hroot => hspare.not_root hroot.1
  rw [h.length_eq]
  refine ⟨s.write_back dir (d₂.put ino.sector ino'.data.encode) fs' ino', ino', _, ?_,
    Function.update_self _ _ _, hback.disk_congr hw.capacity, ?_⟩
  · rw [write_entry, filesys.get_inode_eq_ok.mpr h.is_open, Outcome.ok_bind, hrun]
    simp
  · apply List.ext_getElem?
    intro p
    show (file_contents (d₂.put ino.sector ino'.data.encode) fs' ino' _)[p]? = _
    rw [getElem?_file_contents, hlen', byte_dir.write_entry]
    have hb : (buffer_bytes e DIR_ENTRY_SIZE).length = DIR_ENTRY_SIZE := buffer_bytes_length
    have halen := h.length_eq
    rw [← hsector]
    by_cases hp : p < content_length ino
    · rw [if_pos (by omega), file_byte_flushed hback hw (by omega), if_neg (by omega),
        grown_byte hspare.covered.wf hspare.covered.chain (hcount ▸ hcs) hcount hds
          (by omega), hkept,
        if_pos (by omega), getElem?_splice_old hp (by omega), ← h.contents, getElem?_file_contents,
        if_pos hp]
    · by_cases hmid : p < content_length ino + DIR_ENTRY_SIZE
      · rw [if_pos hmid, file_byte_flushed hback hw (by omega), if_pos (by omega),
          getElem?_splice_mid (by omega) (by omega), getElem?_buffer_bytes, if_pos (by omega)]
      · rw [if_neg hmid, List.getElem?_eq_none]
        rw [splice_length]
        omega

/-- **`dir_add`** does on the inode what it does on the bytes, if there is space for one more
entry. -/
theorem dir_add_eq (h : DirBytes s dir ino l a) (hdeny : ino.deny_write_cnt = 0)
    (hspare : Spare s ino l DIR_ENTRY_SIZE) {slots : List dir_slot} (hlays : Lays a slots)
    {name : c_string} (hname : ∀ ch ∈ name, ch ≠ 0) (inode_sector : ℕ) :
    ∃ done s' ino' l' a', dir_add s dir name inode_sector = .ok (done, s')
      ∧ byte_dir.dir_add a name inode_sector zeros zeros = .ok (done, a')
      ∧ DirBytes s' dir ino' l' a' := by
  unfold dir_add byte_dir.dir_add
  rw [h.lookup_eq]
  split
  · exact ⟨false, s, ino, l, a, rfl, rfl, h⟩
  · obtain ⟨r, hr, -⟩ := hlays.lookup_eq hname zeros
    rw [hr, Outcome.ok_bind, Outcome.ok_bind]
    split
    · exact ⟨false, s, ino, l, a, rfl, rfl, h⟩
    · obtain ⟨r', hr', hofs, -⟩ := hlays.scan (p := fun e => !dir_entry.in_use e)
        (q := Option.isNone)
        (fun b x hx => by rw [hx.in_use, Option.not_isSome]) (Nat.zero_le _) zeros
      rw [List.drop_zero, Nat.zero_add] at hofs
      rw [h.dir_find_eq]
      rw [Nat.mul_zero] at hr'
      rw [hr', Outcome.ok_bind, Outcome.ok_bind]
      have hle := free_slot_le (t := slots)
      have hlen := hlays.length
      unfold free_slot at hle
      -- over a free slot, or behind the last one
      rcases Nat.lt_or_eq_of_le hle with hlt | heq
      · have hin : r'.ofs + DIR_ENTRY_SIZE ≤ a.length := by
          unfold DIR_ENTRY_SIZE
          omega
        obtain ⟨s', hw, hs'⟩ := h.write_entry_inside hdeny
          (dir_entry.fill r'.e name inode_sector) hin
        exact ⟨true, s', ino, l, _, hw, rfl, hs'⟩
      · have hend : r'.ofs = a.length := by omega
        rw [hend]
        obtain ⟨s', ino', l', hw, hs'⟩ := h.write_entry_append hdeny hspare
          (dir_entry.fill r'.e name inode_sector)
        exact ⟨true, s', ino', l', _, hw, rfl, hs'⟩

/-- The entry that `dir_remove` clears, on the inode and on the bytes. -/
theorem dir_remove_entry (h : DirBytes s dir ino l a) (hdeny : ino.deny_write_cnt = 0)
    {slots : List dir_slot} (hlays : Lays a slots) {name : c_string} (hname : ∀ ch ∈ name, ch ≠ 0) :
    (lookup s dir name = .ok none ∧ byte_dir.dir_remove a name zeros = .ok (false, a))
      ∨ ∃ ofs e s' a', lookup s dir name = .ok (some (ofs, e))
        ∧ write_entry s dir (dir_entry.clear e) ofs = .ok (true, s')
        ∧ byte_dir.dir_remove a name zeros = .ok (true, a') ∧ DirBytes s' dir ino l a' := by
  obtain ⟨r, hr, -, hofs⟩ := hlays.lookup_eq hname zeros
  have hlen := hlays.length
  rw [h.lookup_eq]
  unfold byte_dir.dir_remove
  rw [hr, Outcome.ok_bind]
  cases r with
  | none => exact .inl ⟨rfl, rfl⟩
  | some entry =>
      obtain ⟨hentry, hlt⟩ := hofs entry rfl
      have hin : entry.1 + DIR_ENTRY_SIZE ≤ a.length := by
        unfold DIR_ENTRY_SIZE
        omega
      obtain ⟨s', hw, hs'⟩ := h.write_entry_inside hdeny (dir_entry.clear entry.2) hin
      exact .inr ⟨entry.1, entry.2, s', _, rfl, hw, rfl, hs'⟩

end DirBytes

end Pintos
