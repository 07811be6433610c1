/-
Walks along a path, compared.

`References.lean` says what a walk keeps. Here are the facts that compare two walks:
a handle that was opened on top can always be closed again, the root directory opens
the same way through `dir_open_root` and through a handle on it, and a path is the
row of its components (`path_components_append`).
-/
import Pintos.Filesys.References

set_option autoImplicit false

namespace Pintos

/-! ## Handles -/

namespace filesys

variable {s₀ s s' : filesys} {h : Multiset ℕ} {i a : ℕ} {ino : Pintos.inode}

/-- Closing a directory that is not removed writes nothing. -/
theorem inode_close_plain (hi : s.inode i = some ino)
    (hrem : ino.open_cnt = 1 → ino.removed = false) :
    ∃ s', inode_close s i = .ok s' ∧ s'.disk = s.disk ∧ s'.fat = s.fat ∧ s'.file = s.file
      ∧ s'.next_file = s.next_file := by
  rw [inode_close, get_inode_eq_ok.mpr hi, Outcome.ok_bind]
  by_cases hmagic : ino.data.magic ≠ INODE_MAGIC
  · rw [if_pos hmagic]
    exact ⟨s, rfl, rfl, rfl, rfl, rfl⟩
  · rw [if_neg hmagic]
    by_cases hcnt : ino.open_cnt - 1 = 0
    · have hkept := hrem (by omega)
      rw [if_pos hcnt, inode_release, hkept]
      exact ⟨_, rfl, rfl, rfl, rfl, rfl⟩
    · rw [if_neg hcnt]
      exact ⟨_, rfl, rfl, rfl, rfl, rfl⟩

/-- A handle on top can be closed: if it is the last one, the inode was loaded for it and is
not removed. -/
theorem Extra.close_top (hx : Extra s₀ s (ino.sector ::ₘ h)) (hi : s.inode i = some ino) :
    ∃ s', inode_close s i = .ok s' ∧ s'.disk = s.disk ∧ s'.fat = s.fat ∧ s'.file = s.file
      ∧ s'.next_file = s.next_file := by
  refine inode_close_plain hi fun hone => ?_
  have hcount := hx.refs ino.sector
  rw [refs_of_open hx.wf hi, hone, Multiset.count_cons_self] at hcount
  have hzero : s₀.refs ino.sector = 0 := by
    have := refs_nonneg hx.base ino.sector
    omega
  have hfresh := hx.view_open hi
  rw [view_of_refs hx.base hzero] at hfresh
  exact congrArg inode.removed hfresh

/-- A heap with one inode. -/
theorem OpenWf.single (h0 : s.inode 0 = some ino) (hno : ∀ i, i ≠ 0 → s.inode i = none)
    (hlist : s.open_inodes = [0]) (hnext : 0 < s.next_inode) (hpos : 1 ≤ ino.open_cnt) :
    s.OpenWf := by
  have honly : ∀ {i jno}, s.inode i = some jno → i = 0 ∧ jno = ino := by
    intro i jno hi
    by_cases h : i = 0
    · subst h
      rw [h0] at hi
      exact ⟨rfl, (Option.some.inj hi).symm⟩
    · rw [hno i h] at hi
      cases hi
  constructor
  case nodup =>
    rw [hlist]
    exact List.nodup_singleton 0
  case listed =>
    intro i
    rw [hlist, List.mem_singleton]
    constructor
    · rintro rfl
      exact ⟨ino, h0⟩
    · rintro ⟨jno, hi⟩
      exact (honly hi).1
  case fresh =>
    intro i jno hi
    rw [(honly hi).1]
    exact hnext
  case sector_inj =>
    intro i j jno kno hi hj _
    rw [(honly hi).1, (honly hj).1]
  case pos =>
    intro i jno hi
    rw [(honly hi).2]
    exact hpos

/-- A handle on top of an open inode is the second one at least. -/
theorem Extra.held_twice (hx : Extra s₀ s (ino.sector ::ₘ h)) (hi : s₀.inode i = some ino) :
    2 ≤ s.refs ino.sector := by
  have hcount := hx.refs ino.sector
  have hpos := hx.base.pos hi
  rw [Multiset.count_cons_self, refs_of_open hx.base hi] at hcount
  rw [hcount]
  push_cast
  omega

end filesys

/-- Where the root directory is open, `dir_open_root` is one more handle on it. -/
theorem dir_open_root_of_open {s : filesys} {d : ℕ} {ino : inode} (hwf : s.OpenWf)
    (hd : s.inode d = some ino) (hroot : ino.sector = ROOT_DIR_SECTOR) :
    dir_open_root s = dir_reopen s d := by
  have hall : ∀ i ∈ s.open_inodes, ∃ ino, s.inode i = some ino := fun i hi => (hwf.listed i).mp hi
  unfold dir_open_root inode_open
  rcases open_inodes_find_spec ROOT_DIR_SECTOR s.open_inodes hall with
    ⟨i, ino', -, hi, hsec, hfind⟩ | ⟨hno, -⟩
  · obtain rfl := hwf.sector_inj hd hi (hsec.trans hroot.symm)
    rw [hfind]
    rfl
  · exact absurd hroot (hno d ((hwf.listed d).mpr ⟨ino, hd⟩) ino hd)

/-- `inode_open` of a sector of the disk. -/
theorem inode_open_returns {s : filesys} {a : ℕ} (hwf : s.OpenWf)
    (hsel : select_sector s.disk a ∨ ∃ i ino, s.inode i = some ino ∧ ino.sector = a) :
    ∃ i s', inode_open s a = .ok (i, s') := by
  have hall : ∀ i ∈ s.open_inodes, ∃ ino, s.inode i = some ino := fun i hi => (hwf.listed i).mp hi
  unfold inode_open
  rcases open_inodes_find_spec a s.open_inodes hall with
    ⟨i, ino, -, hi, -, hfind⟩ | ⟨hno, hfind⟩
  · rw [hfind]
    refine ⟨i, s.set_inode i { ino with open_cnt := ino.open_cnt + 1 }, ?_⟩
    simp [inode_reopen, filesys.get_inode_eq_ok.mpr hi]
  · rw [hfind]
    rcases hsel with hsel | ⟨i, ino, hi, hsec⟩
    · simp only [Outcome.ok_bind]
      rw [inode_load, disk_read_ok hsel]
      exact ⟨_, _, rfl⟩
    · exact absurd hsec (hno i ((hwf.listed i).mpr ⟨ino, hi⟩) ino hi)

/-! ## Paths as rows of components -/

/-- The scan of a path that goes on behind a slash. -/
theorem parse_path_loop_append (q : c_string) (p : c_string) : ∀ acc : c_string,
    parse_path_loop acc (p ++ SLASH :: q) = parse_path_loop acc p ++ parse_path_loop [] q := by
  induction p with
  | nil =>
      intro acc
      have hslash : parse_path_loop acc (SLASH :: q)
          = if acc = [] then parse_path_loop [] q else acc.reverse :: parse_path_loop [] q :=
        if_pos rfl
      rw [List.nil_append, hslash, parse_path_loop]
      by_cases hacc : acc = []
      · rw [if_pos hacc, if_pos hacc]
        rfl
      · rw [if_neg hacc, if_neg hacc]
        rfl
  | cons c p ih =>
      intro acc
      rw [List.cons_append, parse_path_loop, parse_path_loop]
      by_cases hc : c = SLASH
      · rw [if_pos hc, if_pos hc]
        by_cases hacc : acc = []
        · rw [if_pos hacc, if_pos hacc, ih]
        · rw [if_neg hacc, if_neg hacc, ih, List.cons_append]
      · rw [if_neg hc, if_neg hc, ih]

/-- **Two paths joined by a slash** have the components of both. -/
theorem path_components_append (p q : c_string) :
    path_components (p ++ SLASH :: q) = path_components p ++ path_components q :=
  parse_path_loop_append q p []

/-- A path has no more components than characters. -/
theorem parse_path_loop_length (p : c_string) : ∀ acc : c_string,
    (parse_path_loop acc p).length ≤ p.length + if acc = [] then 0 else 1 := by
  induction p with
  | nil =>
      intro acc
      rw [parse_path_loop]
      by_cases hacc : acc = []
      · simp [hacc]
      · simp [hacc]
  | cons c p ih =>
      intro acc
      have hnil := ih []
      have hcons := ih (c :: acc)
      rw [if_pos rfl] at hnil
      rw [if_neg (List.cons_ne_nil _ _)] at hcons
      rw [parse_path_loop, List.length_cons]
      split
      · split
        · omega
        · rw [List.length_cons]
          omega
      · omega

/-- A path that fits into the copy of `filesys_open` fits into the array of components. -/
theorem parse_path_short {p : c_string} (hp : p.length < 128) :
    parse_path p = .ok (path_components p) := by
  have hlen := parse_path_loop_length p []
  rw [if_pos rfl] at hlen
  refine if_pos ?_
  show (parse_path_loop [] p).length < 128
  omega

/-- A path without a slash is its only component. -/
theorem parse_path_loop_plain (p : c_string) : ∀ acc : c_string, SLASH ∉ p → acc.reverse ++ p ≠ [] →
    parse_path_loop acc p = [acc.reverse ++ p] := by
  induction p with
  | nil =>
      intro acc _ hne
      have hacc : acc ≠ [] := by
        rintro rfl
        exact hne rfl
      rw [parse_path_loop, if_neg hacc, List.append_nil]
  | cons c p ih =>
      intro acc hp _
      have hc : c ≠ SLASH := fun h => hp (h ▸ List.mem_cons_self)
      have hp' : SLASH ∉ p := fun h => hp (List.mem_cons_of_mem _ h)
      rw [parse_path_loop, if_neg hc, ih (c :: acc) hp' (by simp)]
      simp

theorem path_components_plain {p : c_string} (hp : SLASH ∉ p) (hne : p ≠ []) :
    path_components p = [p] := parse_path_loop_plain p [] hp hne

end Pintos
