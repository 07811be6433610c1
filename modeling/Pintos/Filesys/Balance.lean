/-
Who closes what: reference counts over whole path operations.

`filesys_create` and `filesys_open` never close the directory their walk ended in,
so they are balanced only when there is nothing to walk. In all five functions a
walk that fails leaves its directory open; `filesys_remove` and `sys_chdir` have
the same gap behind the walk, when the name is missing or the directory has been
removed. `sys_mkdir` closes both of its directories on every path that has a
defined result.

An inode with a bad magic number can be opened and never closed. The conditions
below name the directories for which that matters.
-/
import Pintos.Filesys.References

set_option autoImplicit false

namespace Pintos

/-! ## Writing does not count -/

/-- The same inodes are open, as often as before; a file may have grown. -/
structure Steady (s s' : filesys) : Prop where
  next_inode : s'.next_inode = s.next_inode
  open_inodes : s'.open_inodes = s.open_inodes
  inode : ∀ i, (s.inode i = none ∧ s'.inode i = none)
    ∨ ∃ ino start length, s.inode i = some ino ∧ s'.inode i = some (ino.set_data start length)

namespace Steady

variable {s s' s'' : filesys}

theorem of_heap (hn : s'.next_inode = s.next_inode) (ho : s'.open_inodes = s.open_inodes)
    (hi : s'.inode = s.inode) : Steady s s' := by
  refine ⟨hn, ho, fun i => ?_⟩
  rw [hi]
  cases hino : s.inode i with
  | none => exact .inl ⟨rfl, rfl⟩
  | some ino => exact .inr ⟨ino, ino.data.start, ino.data.length, rfl, rfl⟩

theorem refl (s : filesys) : Steady s s := of_heap rfl rfl rfl

theorem trans (h : Steady s s') (h' : Steady s' s'') : Steady s s'' := by
  refine ⟨h'.next_inode.trans h.next_inode, h'.open_inodes.trans h.open_inodes, fun i => ?_⟩
  rcases h.inode i with ⟨hi, hi'⟩ | ⟨ino, start, length, hi, hi'⟩
  · rcases h'.inode i with ⟨-, hi''⟩ | ⟨jno, _, _, hj, -⟩
    · exact .inl ⟨hi, hi''⟩
    · rw [hi'] at hj
      cases hj
  · rcases h'.inode i with ⟨hj, -⟩ | ⟨jno, start', length', hj, hi''⟩
    · rw [hi'] at hj
      cases hj
    · rw [hi'] at hj
      obtain rfl := Option.some.inj hj
      exact .inr ⟨ino, start', length', hi, hi''⟩

theorem forth (h : Steady s s') {i : ℕ} {ino : Pintos.inode} (hi : s.inode i = some ino) :
    ∃ start length, s'.inode i = some (ino.set_data start length) := by
  rcases h.inode i with ⟨hno, -⟩ | ⟨jno, start, length, hj, hi'⟩
  · rw [hi] at hno
    cases hno
  · rw [hi] at hj
    obtain rfl := Option.some.inj hj
    exact ⟨start, length, hi'⟩

theorem back (h : Steady s s') {i : ℕ} {ino' : Pintos.inode} (hi : s'.inode i = some ino') :
    ∃ ino start length, s.inode i = some ino ∧ ino' = ino.set_data start length := by
  rcases h.inode i with ⟨-, hno⟩ | ⟨jno, start, length, hj, hi'⟩
  · rw [hi] at hno
    cases hno
  · rw [hi] at hi'
    exact ⟨jno, start, length, hj, Option.some.inj hi'⟩

theorem wf (h : Steady s s') (hwf : s.OpenWf) : s'.OpenWf := by
  constructor
  case nodup => exact h.open_inodes ▸ hwf.nodup
  case listed =>
    intro i
    rw [h.open_inodes, hwf.listed i]
    constructor
    · rintro ⟨ino, hi⟩
      obtain ⟨start, length, hi'⟩ := h.forth hi
      exact ⟨_, hi'⟩
    · rintro ⟨ino', hi'⟩
      obtain ⟨ino, -, -, hi, -⟩ := h.back hi'
      exact ⟨ino, hi⟩
  case fresh =>
    intro i ino' hi'
    obtain ⟨ino, -, -, hi, -⟩ := h.back hi'
    rw [h.next_inode]
    exact hwf.fresh hi
  case sector_inj =>
    intro i j ino' jno' hi' hj' hsec
    obtain ⟨ino, _, _, hi, rfl⟩ := h.back hi'
    obtain ⟨jno, _, _, hj, rfl⟩ := h.back hj'
    exact hwf.sector_inj hi hj hsec
  case pos =>
    intro i ino' hi'
    obtain ⟨ino, _, _, hi, rfl⟩ := h.back hi'
    have hpos := hwf.pos hi
    exact hpos

theorem refs (h : Steady s s') (hwf : s.OpenWf) (a : ℕ) : s'.refs a = s.refs a := by
  by_cases hex : ∃ i ino, s.inode i = some ino ∧ ino.sector = a
  · obtain ⟨i, ino, hi, rfl⟩ := hex
    obtain ⟨start, length, hi'⟩ := h.forth hi
    have hrefs := filesys.refs_of_open (h.wf hwf) hi'
    rw [filesys.refs_of_open hwf hi]
    exact hrefs
  · rw [filesys.refs_of_closed hwf fun i ino hi hs => hex ⟨i, ino, hi, hs⟩]
    apply filesys.refs_of_closed (h.wf hwf)
    intro i ino' hi' hs
    obtain ⟨ino, _, _, hi, rfl⟩ := h.back hi'
    exact hex ⟨i, ino, hi, hs⟩

end Steady

/-- A write changes the length of a file and perhaps where it starts. -/
def Resized (ino ino' : inode) : Prop := ∃ start length, ino' = ino.set_data start length

theorem inode_extend_loop_resized (fuel : ℕ) :
    ∀ {d d' : disk} {fs fs' : fat_fs} {ino ino' : inode} {remain : ℤ},
      inode_extend_loop fuel d fs ino remain = .ok (d', fs', ino') → Resized ino ino' := by
  induction fuel with
  | zero =>
      intro d d' fs fs' ino ino' remain h
      cases h
  | succ fuel ih =>
      intro d d' fs fs' ino ino' remain h
      rw [inode_extend_loop] at h
      split at h
      case isTrue =>
        obtain ⟨-, h⟩ := Outcome.ok_pair h
        obtain ⟨-, rfl⟩ := Prod.mk.inj h
        exact ⟨ino.data.start, ino.data.length, rfl⟩
      case isFalse =>
        obtain ⟨⟨c, fs₁⟩, -, h⟩ := Outcome.bind_eq_ok.mp h
        obtain ⟨d₁, -, h⟩ := Outcome.bind_eq_ok.mp h
        obtain ⟨start, length, rfl⟩ := ih h
        exact ⟨start, length, rfl⟩

theorem inode_extend_resized {d d' : disk} {fs fs' : fat_fs} {ino ino' : inode} {extend_size : ℤ}
    (h : inode_extend d fs ino extend_size = .ok (d', fs', ino')) : Resized ino ino' := by
  unfold inode_extend at h
  by_cases hstart : ino.data.start = 0
  · simp only [if_pos hstart] at h
    obtain ⟨⟨start, fs₁⟩, -, h⟩ := Outcome.bind_eq_ok.mp h
    obtain ⟨start', length', rfl⟩ := inode_extend_loop_resized _ h
    exact ⟨start', length', rfl⟩
  · simp only [if_neg hstart, Outcome.ok_bind] at h
    obtain ⟨start', length', rfl⟩ := inode_extend_loop_resized _ h
    exact ⟨start', length', rfl⟩

/-- The end of `inode_write_at`, behind the extension. -/
theorem inode_write_at_tail {d d' : disk} {fs fs' : fat_fs} {ino ino' : inode} {buffer : Bytes}
    {size offset n : ℤ}
    (h : (do
      let (bytes_written, d) ← inode_write_at_loop fs ino buffer (size.toNat + 1) d size offset 0
      let d ← inode_flush d ino
      return (bytes_written, d, fs, ino)) = Outcome.ok (n, d', fs', ino')) :
    fs' = fs ∧ ino' = ino ∧ ∃ d₁, inode_write_at_loop fs ino buffer (size.toNat + 1) d size offset 0
      = .ok (n, d₁) ∧ inode_flush d₁ ino = .ok d' := by
  obtain ⟨⟨m, d₁⟩, hloop, h⟩ := Outcome.bind_eq_ok.mp h
  obtain ⟨d₂, hflush, h⟩ := Outcome.bind_eq_ok.mp h
  cases Outcome.ok.inj h
  exact ⟨rfl, rfl, d₁, hloop, hflush⟩

/-- **`inode_write_at`**: refused, inside the file, or behind an extension. -/
theorem inode_write_at_cases {d d' : disk} {fs fs' : fat_fs} {ino ino' : inode} {buffer : Bytes}
    {size offset n : ℤ} (h : inode_write_at d fs ino buffer size offset = .ok (n, d', fs', ino')) :
    (ino.deny_write_cnt ≠ 0 ∧ n = 0 ∧ d' = d ∧ fs' = fs ∧ ino' = ino)
    ∨ (ino.deny_write_cnt = 0 ∧ ∃ d₁ d₂,
        (i32 (offset + size) > inode_length ino
            ∧ inode_extend d fs ino (i32 (offset + size)) = .ok (d₁, fs', ino')
          ∨ ¬ i32 (offset + size) > inode_length ino ∧ d₁ = d ∧ fs' = fs ∧ ino' = ino)
        ∧ inode_write_at_loop fs' ino' buffer (size.toNat + 1) d₁ size offset 0 = .ok (n, d₂)
        ∧ inode_flush d₂ ino' = .ok d') := by
  unfold inode_write_at at h
  by_cases hdeny : ino.deny_write_cnt ≠ 0
  · rw [if_pos hdeny] at h
    cases Outcome.ok.inj h
    exact .inl ⟨hdeny, rfl, rfl, rfl, rfl⟩
  · rw [if_neg hdeny] at h
    right
    refine ⟨not_not.mp hdeny, ?_⟩
    by_cases hgrow : i32 (offset + size) > inode_length ino
    · simp only [if_pos hgrow] at h
      obtain ⟨⟨d₁, fs₁, ino₁⟩, hext, h⟩ := Outcome.bind_eq_ok.mp h
      obtain ⟨rfl, rfl, d₂, hloop, hflush⟩ := inode_write_at_tail h
      exact ⟨d₁, d₂, .inl ⟨hgrow, hext⟩, hloop, hflush⟩
    · simp only [if_neg hgrow, Outcome.ok_bind] at h
      obtain ⟨rfl, rfl, d₂, hloop, hflush⟩ := inode_write_at_tail h
      exact ⟨d, d₂, .inr ⟨hgrow, rfl, rfl, rfl⟩, hloop, hflush⟩

theorem inode_write_at_resized {d d' : disk} {fs fs' : fat_fs} {ino ino' : inode} {buffer : Bytes}
    {size offset n : ℤ} (h : inode_write_at d fs ino buffer size offset = .ok (n, d', fs', ino')) :
    Resized ino ino' := by
  rcases inode_write_at_cases h with ⟨-, -, -, -, rfl⟩ | ⟨-, d₁, d₂, hext, -, -⟩
  · exact ⟨ino'.data.start, ino'.data.length, rfl⟩
  · rcases hext with ⟨-, hext⟩ | ⟨-, -, -, rfl⟩
    · exact inode_extend_resized hext
    · exact ⟨ino'.data.start, ino'.data.length, rfl⟩

section Ops

variable {s s' : filesys} {i : ℕ} {name : c_string}

theorem write_entry_steady {e : Bytes} {ofs : ℕ} {done : Bool}
    (h : write_entry s i e ofs = .ok (done, s')) : Steady s s' := by
  obtain ⟨ino, hino, h⟩ := Outcome.bind_eq_ok.mp h
  obtain ⟨⟨n, d, fs, ino'⟩, hwrite, h⟩ := Outcome.bind_eq_ok.mp h
  obtain ⟨-, rfl⟩ := Outcome.ok_pair h
  obtain ⟨start, length, rfl⟩ := inode_write_at_resized hwrite
  refine ⟨rfl, rfl, fun j => ?_⟩
  by_cases hji : j = i
  · subst hji
    exact .inr ⟨ino, start, length, filesys.get_inode_eq_ok.mp hino, Function.update_self _ _ _⟩
  · have hother : (s.write_back i d fs (ino.set_data start length)).inode j = s.inode j :=
      Function.update_of_ne hji _ _
    rw [hother]
    cases hj : s.inode j with
    | none => exact .inl ⟨rfl, rfl⟩
    | some jno => exact .inr ⟨jno, jno.data.start, jno.data.length, rfl, rfl⟩

theorem dir_add_steady {sector : ℕ} {done : Bool} (h : dir_add s i name sector = .ok (done, s')) :
    Steady s s' := by
  unfold dir_add at h
  split at h
  case isTrue =>
    obtain ⟨-, rfl⟩ := Outcome.ok_pair h
    exact .refl s
  case isFalse =>
    obtain ⟨entry, -, h⟩ := Outcome.bind_eq_ok.mp h
    split at h
    case isTrue =>
      obtain ⟨-, rfl⟩ := Outcome.ok_pair h
      exact .refl s
    case isFalse =>
      obtain ⟨r, -, h⟩ := Outcome.bind_eq_ok.mp h
      exact write_entry_steady h

theorem create_in_steady {initial_size : ℤ} {done : Bool}
    (h : create_in s i name initial_size = .ok (done, s')) : Steady s s' := by
  obtain ⟨⟨allocated, clst, fs⟩, -, h⟩ := Outcome.bind_eq_ok.mp h
  cases allocated with
  | false =>
      obtain ⟨-, rfl⟩ := Outcome.ok_pair h
      exact .of_heap rfl rfl rfl
  | true =>
      obtain ⟨⟨created, d, fs'⟩, -, h⟩ := Outcome.bind_eq_ok.mp h
      cases created with
      | false =>
          obtain ⟨-, rfl⟩ := Outcome.ok_pair h
          exact .of_heap rfl rfl rfl
      | true =>
          have hadd : Steady { s with disk := d, fat := fs' } s' := dir_add_steady h
          have hheap : Steady s { s with disk := d, fat := fs' } := .of_heap rfl rfl rfl
          exact hheap.trans hadd

theorem mkdir_entries_steady {new_dir sector : ℕ} {done : Bool}
    (h : mkdir_entries s i new_dir name sector = .ok (done, s')) : Steady s s' := by
  obtain ⟨⟨done₁, s₁⟩, h₁, h⟩ := Outcome.bind_eq_ok.mp h
  have hs₁ := dir_add_steady h₁
  cases done₁ with
  | false =>
      obtain ⟨-, rfl⟩ := Outcome.ok_pair h
      exact hs₁
  | true =>
      obtain ⟨⟨done₂, s₂⟩, h₂, h⟩ := Outcome.bind_eq_ok.mp h
      have hs₂ := hs₁.trans (dir_add_steady h₂)
      cases done₂ with
      | false =>
          obtain ⟨-, rfl⟩ := Outcome.ok_pair h
          exact hs₂
      | true =>
          obtain ⟨ino, -, h⟩ := Outcome.bind_eq_ok.mp h
          exact hs₂.trans (dir_add_steady h)

end Ops

/-! ## The parts of a path -/

/-- The directories on the way. -/
def path_dirs (path : c_string) : List c_string := (path_components path).dropLast

/-- The last component. -/
def path_last (path : c_string) : c_string := (path_components path).getLastD []

theorem getLast?_path {path : c_string} (h : path_components path ≠ []) :
    (path_components path).getLast? = some (path_last path) := by
  rw [List.getLast?_eq_some_getLast h, path_last, List.getLastD_eq_getLast?,
    List.getLast?_eq_some_getLast h]
  rfl

/-- Every inode has as many handles as before. -/
def Balanced (s s' : filesys) : Prop := ∀ a, s'.refs a = s.refs a

/-- The handle on the inode a file or directory is opened on. -/
def handle_on (s : filesys) (i : Option ℕ) (a : ℕ) : ℤ :=
  match i.bind s.inode with
  | some ino => if a = ino.sector then 1 else 0
  | none => 0

theorem handle_on_none (s : filesys) (a : ℕ) : handle_on s none a = 0 := rfl

theorem handle_on_some {s : filesys} {i : ℕ} {ino : inode} (hi : s.inode i = some ino) (a : ℕ) :
    handle_on s (some i) a = if a = ino.sector then 1 else 0 := by
  unfold handle_on
  rw [Option.bind_some, hi]

/-- The inode behind what `filesys_open` returns. -/
def opened.inode (s : filesys) : opened → Option ℕ
  | .file f => (s.file f).map file.inode
  | .root_dir dir => some dir
  | .null => none

theorem multiset_add_eq_zero {h k : Multiset ℕ} : h + k = 0 ↔ h = 0 ∧ k = 0 := by
  constructor
  · intro hzero
    have hh : h ≤ h + k := Multiset.le_add_right h k
    have hk : k ≤ h + k := Multiset.le_add_left k h
    rw [hzero] at hh hk
    exact ⟨Multiset.le_zero.mp hh, Multiset.le_zero.mp hk⟩
  · rintro ⟨rfl, rfl⟩
    rfl

section Leak

variable {s₀ s : filesys} {h : Multiset ℕ}

end Leak

section Create

variable {s s' : filesys} {cwd : Option ℕ} {path : c_string} {b : Bool} {initial_size : ℤ}

/-- **`filesys_create`** leaves the directory of its last component open. -/
theorem filesys_create_refs (hwf : s.OpenWf)
    (h : filesys_create s cwd path initial_size = .ok (b, s')) (hne : path_components path ≠ []) :
    ∃ extra : Multiset ℕ, extra ≠ 0 ∧ ∀ a, s'.refs a = s.refs a + extra.count a := by
  obtain ⟨path_lst, hparse, h⟩ := Outcome.bind_eq_ok.mp h
  obtain rfl := parse_path_eq_ok hparse
  rw [getLast?_path hne] at h
  obtain ⟨⟨cur, s₁⟩, hstart, h⟩ := Outcome.bind_eq_ok.mp h
  obtain ⟨⟨r, s₂⟩, hwalk, h⟩ := Outcome.bind_eq_ok.mp h
  have hstarted := start_dir_checked_started hwf hstart
  rcases hstarted.walk hwalk with ⟨l, z, j, jno, rfl, -, hj, -, hx⟩ | ⟨rfl, -, extra, hextra, hx⟩
  · have hsteady : Steady s₂ s' := by
      change (if (path_last path).length ≤ 14 then _ else _) = _ at h
      split at h
      · exact create_in_steady h
      · obtain ⟨-, rfl⟩ := Outcome.ok_pair h
        exact .refl _
    refine ⟨z ::ₘ left_open s l, Multiset.cons_ne_zero, fun a => ?_⟩
    rw [hsteady.refs hx.wf, hx.refs]
  · obtain ⟨-, rfl⟩ := Outcome.ok_pair h
    exact ⟨extra, hextra, hx.refs⟩

/-- Without components nothing happens. -/
theorem filesys_create_nil (h : filesys_create s cwd path initial_size = .ok (b, s'))
    (hnil : path_components path = []) : b = false ∧ s' = s := by
  obtain ⟨path_lst, hparse, h⟩ := Outcome.bind_eq_ok.mp h
  obtain rfl := parse_path_eq_ok hparse
  rw [hnil] at h
  obtain ⟨rfl, rfl⟩ := Outcome.ok_pair h
  exact ⟨rfl, rfl⟩

theorem not_balanced_of_extra {extra : Multiset ℕ} (hextra : extra ≠ 0)
    (hrefs : ∀ a, s'.refs a = s.refs a + extra.count a) : ¬ Balanced s s' := by
  intro hbal
  obtain ⟨a, ha⟩ := Multiset.exists_mem_of_ne_zero hextra
  have hcount := hrefs a
  rw [hbal a] at hcount
  have hpos := Multiset.count_pos.mpr ha
  omega

theorem filesys_create_balanced_iff (hwf : s.OpenWf)
    (h : filesys_create s cwd path initial_size = .ok (b, s')) :
    Balanced s s' ↔ path_components path = [] := by
  constructor
  · intro hbal
    by_contra hne
    obtain ⟨extra, hextra, hrefs⟩ := filesys_create_refs hwf h hne
    exact not_balanced_of_extra hextra hrefs hbal
  · intro hnil a
    obtain ⟨-, rfl⟩ := filesys_create_nil h hnil
    rfl

end Create

section Open

variable {s₀ s s' : filesys} {cwd : Option ℕ} {path name : c_string} {r : opened}

/-- The last component: nothing found, or a file on the inode that was. -/
theorem open_at_some {h : Multiset ℕ} {j : ℕ} {jno : inode} {f : Option ℕ}
    (hx : filesys.Extra s₀ s h) (hj : s.inode j = some jno)
    (hopen : open_at s (some j) name = .ok (f, s')) :
    (f = none ∧ s' = s ∧ entry_at s₀ jno.sector name = .ok none)
    ∨ ∃ ofs e k kno s₁, entry_at s₀ jno.sector name = .ok (some (ofs, e))
      ∧ filesys.Extra s₀ s₁ (dir_entry.inode_sector e ::ₘ h)
      ∧ s₁.inode k = some kno ∧ kno.sector = dir_entry.inode_sector e
      ∧ f = some s₁.next_file
      ∧ s' = s₁.new_file { inode := k, pos := 0, deny_write := false, dup_count := 1 } := by
  obtain ⟨⟨found, s₁⟩, hlookup, hret⟩ := Outcome.bind_eq_ok.mp hopen
  cases found with
  | none =>
      obtain ⟨hentry, rfl⟩ := dir_lookup_none hx hj hlookup
      obtain ⟨rfl, rfl⟩ := Outcome.ok_pair hret
      exact .inl ⟨rfl, rfl, hentry⟩
  | some k =>
      obtain ⟨ofs, e, hentry, hino⟩ := dir_lookup_some hx hj hlookup
      obtain ⟨hx₁, kno, hk, hsec⟩ := hx.open hino
      obtain ⟨rfl, rfl⟩ := Outcome.ok_pair hret
      exact .inr ⟨ofs, e, k, kno, s₁, hentry, hx₁, hk, hsec, rfl, rfl⟩

/-- The paths of `filesys_open` that have components. -/
theorem filesys_open_walk (hwf : s.OpenWf) (hne : path_components path ≠ [])
    (h : filesys_open s cwd path = .ok (r, s')) :
    (r = .null ∧ ∃ extra, extra ≠ 0 ∧ filesys.Extra s s' extra)
    ∨ ∃ t z left k kno s₁, filesys.Extra s s₁ (t ::ₘ z ::ₘ left) ∧ s₁.inode k = some kno
      ∧ kno.sector = t ∧ r = .file s₁.next_file
      ∧ s' = s₁.new_file { inode := k, pos := 0, deny_write := false, dup_count := 1 } := by
  unfold filesys_open at h
  split at h
  case isTrue => cases h
  case isFalse =>
    obtain ⟨path_lst, hparse, h⟩ := Outcome.bind_eq_ok.mp h
    obtain rfl := parse_path_eq_ok hparse
    rw [getLast?_path hne] at h
    obtain ⟨⟨cur, s₁⟩, hstart, h⟩ := Outcome.bind_eq_ok.mp h
    obtain ⟨⟨dir, s₂⟩, hwalk, h⟩ := Outcome.bind_eq_ok.mp h
    obtain ⟨⟨f, s₃⟩, hopen, h⟩ := Outcome.bind_eq_ok.mp h
    obtain ⟨rfl, rfl⟩ := Outcome.ok_pair h
    have hstarted := start_dir_checked_started hwf hstart
    rcases hstarted.walk hwalk with ⟨l, z, j, jno, rfl, -, hj, -, hx⟩ | ⟨rfl, -, extra, hextra, hx⟩
    · rcases open_at_some hx hj hopen with
        ⟨rfl, rfl, -⟩ | ⟨ofs, e, k, kno, s₄, -, hx₄, hk, hsec, rfl, rfl⟩
      · exact .inl ⟨rfl, _, Multiset.cons_ne_zero, hx⟩
      · exact .inr ⟨_, z, left_open s l, k, kno, s₄, hx₄, hk, hsec, rfl, rfl⟩
    · obtain ⟨rfl, rfl⟩ := Outcome.ok_pair hopen
      exact .inl ⟨rfl, extra, hextra, hx⟩

/-- **`filesys_open`** leaves the directory of its last component open too. -/
theorem filesys_open_balanced_iff (hwf : s.OpenWf) (h : filesys_open s cwd path = .ok (r, s')) :
    (∀ a, s'.refs a = s.refs a + handle_on s' (r.inode s') a) ↔ path_components path = [] := by
  by_cases hne : path_components path = []
  · refine ⟨fun _ => hne, fun _ a => ?_⟩
    unfold filesys_open at h
    split at h
    case isTrue => cases h
    case isFalse =>
      obtain ⟨path_lst, hparse, h⟩ := Outcome.bind_eq_ok.mp h
      obtain rfl := parse_path_eq_ok hparse
      rw [hne] at h
      change (if is_root_path path then _ else _) = _ at h
      split at h
      case isTrue =>
        obtain ⟨⟨dir, s₁⟩, hroot, h⟩ := Outcome.bind_eq_ok.mp h
        obtain ⟨rfl, rfl⟩ := Outcome.ok_pair h
        obtain ⟨hx, ino, hi, hsec⟩ := dir_open_root_started hwf hroot
        show _ = _ + handle_on s₁ (some dir) a
        rw [handle_on_some hi, hx.refs, hsec, Multiset.count_singleton]
        push_cast
        rfl
      case isFalse => cases h
  · refine ⟨fun hbal => ?_, fun hnil => absurd hnil hne⟩
    exfalso
    rcases filesys_open_walk hwf hne h with
      ⟨rfl, extra, hextra, hx⟩ | ⟨t, z, left, k, kno, s₁, hx, hk, rfl, rfl, rfl⟩
    · refine not_balanced_of_extra hextra hx.refs fun a => ?_
      rw [hbal a]
      exact add_zero _
    · -- the count of the directory `z` is one too high
      have hinode : opened.inode
          (s₁.new_file { inode := k, pos := 0, deny_write := false, dup_count := 1 })
          (.file s₁.next_file) = some k := by
        show Option.map _ (Function.update s₁.file s₁.next_file _ s₁.next_file) = _
        rw [Function.update_self]
        rfl
      have hhandle : handle_on
          (s₁.new_file { inode := k, pos := 0, deny_write := false, dup_count := 1 }) (some k) z
          = if z = kno.sector then 1 else 0 := handle_on_some hk z
      have hz := hbal z
      rw [hinode, hhandle] at hz
      have hrefs := hx.refs z
      have hsame : (s₁.new_file { inode := k, pos := 0, deny_write := false, dup_count := 1 }).refs
          z = s₁.refs z := filesys.refs_congr rfl rfl z
      rw [hsame, hrefs, Multiset.count_cons, Multiset.count_cons_self] at hz
      push_cast at hz
      split at hz
      · omega
      · omega

end Open

section Remove

variable {s₀ s s' : filesys} {cwd : Option ℕ} {path name : c_string} {b : Bool}

/-- The directory, the offset and the entry that a path names for `filesys_remove`,
and the directories passed on the way. -/
def remove_target (s : filesys) (cwd : Option ℕ) (path : c_string) :
    Outcome (Option (List ℕ × ℕ × ℕ × Bytes)) := do
  if path_components path = [] then return none
  else
    let r ← route s (path_dirs path) (start_sector s cwd (is_root_path path))
    match r with
    | none => .ok none
    | some (l, z) => do
        let entry ← entry_at s z (path_last path)
        return entry.map fun (ofs, e) => (l, z, ofs, e)

/-- The end of `dir_remove`, in counts: it closes what it opened. -/
theorem remove_entry_refs {cur j ofs : ℕ} {e : Bytes} {jno : inode} (hwf : s.OpenWf)
    (hj : s.inode j = some jno) (h : remove_entry s cur j ofs e = .ok (b, s')) :
    s'.OpenWf ∧ (∀ a, s'.refs a
      = s.refs a - if a = jno.sector ∧ jno.data.magic = INODE_MAGIC then 1 else 0)
    ∧ ∀ k kno', s'.inode k = some kno' → ∃ kno, s.inode k = some kno
      ∧ kno'.sector = kno.sector ∧ kno'.data.magic = kno.data.magic
      ∧ kno'.data.isdir = kno.data.isdir := by
  obtain ⟨⟨done, s₁⟩, hwrite, h⟩ := Outcome.bind_eq_ok.mp h
  have hsteady := write_entry_steady hwrite
  have hwf₁ := hsteady.wf hwf
  obtain ⟨start, length, hj₁⟩ := hsteady.forth hj
  cases done with
  | true =>
      obtain ⟨s₂, hremove, h⟩ := Outcome.bind_eq_ok.mp h
      obtain ⟨s₃, hclose, h⟩ := Outcome.bind_eq_ok.mp h
      obtain ⟨-, rfl⟩ := Outcome.ok_pair h
      obtain ⟨jno₁, hj₁', rfl⟩ := inode_remove_eq_ok hremove
      rw [hj₁] at hj₁'
      obtain rfl := Option.some.inj hj₁'
      have hpos : 1 ≤ jno.open_cnt := hwf.pos hj
      have hwf₂ : (s₁.set_inode j { jno.set_data start length with removed := true }).OpenWf :=
        hwf₁.set_inode hj₁ rfl hpos
      have hj₂ : (s₁.set_inode j { jno.set_data start length with removed := true }).inode j
          = some { jno.set_data start length with removed := true } := Function.update_self _ _ _
      obtain ⟨hwf₃, hrefs⟩ := filesys.refs_close hwf₂ hj₂ hclose
      refine ⟨hwf₃, fun a => ?_, fun k kno' hk => ?_⟩
      · have hmark : (s₁.set_inode j { jno.set_data start length with removed := true }).refs a
            = s₁.refs a := by
          rw [filesys.refs_set_inode { jno.set_data start length with removed := true } hwf₁ hj₁
            rfl hpos]
          simp
        have := hrefs a
        rw [hmark, hsteady.refs hwf] at this
        exact this
      · obtain ⟨kno₂, hk₂, heq⟩ := filesys.inode_close_back hclose hk
        rcases filesys.set_inode_cases hk₂ with ⟨rfl, rfl⟩ | ⟨-, hk₁⟩
        · exact ⟨jno, hj, by rw [heq]; exact ⟨rfl, rfl, rfl⟩⟩
        · obtain ⟨kno, _, _, hk₀, rfl⟩ := hsteady.back hk₁
          exact ⟨kno, hk₀, by rw [heq]; exact ⟨rfl, rfl, rfl⟩⟩
  | false =>
      obtain ⟨s₂, hclose, h⟩ := Outcome.bind_eq_ok.mp h
      obtain ⟨-, rfl⟩ := Outcome.ok_pair h
      obtain ⟨hwf₂, hrefs⟩ := filesys.refs_close hwf₁ hj₁ hclose
      refine ⟨hwf₂, fun a => ?_, fun k kno' hk => ?_⟩
      · have := hrefs a
        rw [hsteady.refs hwf] at this
        exact this
      · obtain ⟨kno₁, hk₁, heq⟩ := filesys.inode_close_back hclose hk
        obtain ⟨kno, _, _, hk₀, rfl⟩ := hsteady.back hk₁
        exact ⟨kno, hk₀, by rw [heq]; exact ⟨rfl, rfl, rfl⟩⟩

/-- What closing takes off a count. -/
theorem count_stuck (a : ℕ) (h : Multiset ℕ) (c : ℕ) :
    ((a ::ₘ h).count c : ℤ) - (if c = a ∧ s.good a then 1 else 0) = (s.stuck a + h).count c := by
  unfold filesys.stuck
  rw [Multiset.count_add, Multiset.count_cons]
  cases s.good a with
  | true =>
      simp only [and_true, if_true, Multiset.count_zero]
      push_cast
      ring
  | false =>
      simp only [Bool.false_eq_true, and_false, if_false, Multiset.count_singleton]
      push_cast
      ring

theorem Extra_magic {h : Multiset ℕ} (hx : filesys.Extra s₀ s h) {i : ℕ} {ino : inode}
    (hi : s.inode i = some ino) : ino.data.magic = INODE_MAGIC ↔ s₀.good ino.sector = true := by
  unfold filesys.good
  rw [← hx.view_open hi, decide_eq_true_iff]

/-- **`filesys_remove` behind its last lookup**: the target is the working
directory, or `dir_remove` runs and both directories are closed. -/
theorem remove_found_cases {left : Multiset ℕ} {cur find ofs t z : ℕ} {e : Bytes} {ino cno : inode}
    (hx : filesys.Extra s₀ s (t ::ₘ z ::ₘ left)) (hfind : s.inode find = some ino)
    (ht : ino.sector = t) (hcur : s.inode cur = some cno) (hz : cno.sector = z)
    (hentry : entry_at s₀ z name = .ok (some (ofs, e))) (hsec : dir_entry.inode_sector e = t)
    (h : remove_found s cwd cur find name = .ok (b, s')) :
    ∃ c wno, cwd = some c ∧ s.inode c = some wno
      ∧ ((wno.sector = t ∧ b = false ∧ filesys.Extra s₀ s' (s₀.stuck t + (s₀.stuck z + left)))
        ∨ (wno.sector ≠ t ∧ ∃ s₁ s₂ s₃ j jno n done,
          inode_close s find = .ok s₁ ∧ filesys.Extra s₀ s₁ (z ::ₘ (s₀.stuck t + left))
          ∧ inode_open s₁ t = .ok (j, s₂)
          ∧ filesys.Extra s₀ s₂ (t ::ₘ z ::ₘ (s₀.stuck t + left))
          ∧ s₂.inode j = some jno ∧ jno.sector = t
          ∧ s₂.inode cur = some { cno with open_cnt := n }
          ∧ remove_entry s₂ cur j ofs e = .ok (done, s₃) ∧ inode_close s₃ cur = .ok s'
          ∧ b = if is_good_dir s' find then false else done)) := by
  obtain ⟨same, hsame, hrun⟩ := Outcome.bind_eq_ok.mp h
  obtain ⟨s₁, hclose, htail⟩ := Outcome.bind_eq_ok.mp hrun
  clear h hrun
  cases cwd with
  | none => cases hsame
  | some c =>
      obtain ⟨ino₁, hino₁, hsame⟩ := Outcome.bind_eq_ok.mp hsame
      obtain ⟨wno, hwno, hsame⟩ := Outcome.bind_eq_ok.mp hsame
      rw [filesys.get_inode_eq_ok, hfind] at hino₁
      obtain rfl := Option.some.inj hino₁
      rw [filesys.get_inode_eq_ok] at hwno
      have hx₁ : filesys.Extra s₀ s₁ (z ::ₘ (s₀.stuck t + left)) := by
        have := hx.close hfind ht hclose
        rwa [Multiset.add_cons] at this
      obtain ⟨n₁, hcur₁⟩ := filesys.inode_close_kept hx.wf hfind hclose hcur (by
        intro hzt
        rw [hz, ht] at hzt
        subst hzt
        rw [ht]
        exact hx.two_le)
      refine ⟨c, wno, rfl, hwno, ?_⟩
      cases hs : same with
      | true =>
          rw [hs] at hsame htail
          obtain ⟨s₂, hclose₂, hret⟩ := Outcome.bind_eq_ok.mp htail
          obtain ⟨rfl, rfl⟩ := Outcome.ok_pair hret
          left
          have heq : ino.sector = wno.sector := by simpa using Outcome.ok.inj hsame
          refine ⟨heq.symm.trans ht, rfl, ?_⟩
          have hx₂ := hx₁.close hcur₁ hz hclose₂
          rwa [add_left_comm]
      | false =>
          rw [hs] at hsame htail
          obtain ⟨⟨done, s₃⟩, hremove, htail⟩ := Outcome.bind_eq_ok.mp htail
          obtain ⟨s₄, hclose₂, hret⟩ := Outcome.bind_eq_ok.mp htail
          obtain ⟨rfl, rfl⟩ := Outcome.ok_pair hret
          right
          have hne : ino.sector ≠ wno.sector := by simpa using Outcome.ok.inj hsame
          obtain ⟨entry, hlookup, hremove⟩ := Outcome.bind_eq_ok.mp hremove
          have hentry' : entry_at s₀ cno.sector name = .ok entry := by
            rw [← hlookup]
            exact (lookup_eq hx₁ hcur₁).symm
          rw [hz, hentry] at hentry'
          obtain rfl := Outcome.ok.inj hentry'
          obtain ⟨⟨j, s₂⟩, hopen, hremove⟩ := Outcome.bind_eq_ok.mp hremove
          rw [hsec] at hopen
          obtain ⟨hx₂, jno, hj, hjsec⟩ := hx₁.open hopen
          obtain ⟨n, hcur₂⟩ := filesys.inode_open_kept hx₁.wf hopen hcur₁
          exact ⟨fun heq => hne (ht.trans heq.symm), s₁, s₂, s₃, j, jno, n, done,
            hclose, hx₁, hopen, hx₂, hj, hjsec, hcur₂, hremove, hclose₂, rfl⟩

/-- The counts after `filesys_remove` has found its target. -/
theorem remove_found_refs {left : Multiset ℕ} {cur find ofs t z : ℕ} {e : Bytes} {ino cno : inode}
    (hx : filesys.Extra s₀ s (t ::ₘ z ::ₘ left)) (hfind : s.inode find = some ino)
    (ht : ino.sector = t) (hcur : s.inode cur = some cno) (hz : cno.sector = z)
    (hentry : entry_at s₀ z name = .ok (some (ofs, e))) (hsec : dir_entry.inode_sector e = t)
    (h : remove_found s cwd cur find name = .ok (b, s')) :
    ∃ m, (m = 0 ↔ s₀.good t = true) ∧ ∀ a,
      s'.refs a = s₀.refs a + (m + (s₀.stuck z + left)).count a := by
  obtain ⟨c, wno, -, -, hcases⟩ := remove_found_cases hx hfind ht hcur hz hentry hsec h
  rcases hcases with ⟨-, -, hx'⟩ | ⟨-, s₁, s₂, s₃, j, jno, n, done, -, hx₁, -, hx₂,
    hj, hjsec, hcur₂, hremove, hclose, -⟩
  · exact ⟨s₀.stuck t, filesys.stuck_eq_zero, hx'.refs⟩
  · refine ⟨s₀.stuck t + s₀.stuck t, ?_, fun a => ?_⟩
    · rw [← filesys.stuck_eq_zero]
      unfold filesys.stuck
      cases s₀.good t with
      | true => simp
      | false => simp
    · obtain ⟨hwf₃, hrefs₃, hback⟩ := remove_entry_refs hx₂.wf hj hremove
      obtain ⟨cno₃, hcur₃, -⟩ := inode_close_cases hclose
      obtain ⟨cno₂, hcur₂', hcsec, hcmagic, -⟩ := hback cur cno₃ hcur₃
      rw [hcur₂] at hcur₂'
      obtain rfl := Option.some.inj hcur₂'
      obtain ⟨-, hrefs⟩ := filesys.refs_close hwf₃ hcur₃ hclose
      have htm := Extra_magic hx₂ hj
      have hzm := Extra_magic hx₂ hcur₂
      rw [hjsec] at htm
      have hcsec' : cno₃.sector = z := hcsec.trans hz
      have hcmagic' : cno₃.data.magic = INODE_MAGIC ↔ s₀.good z = true := by
        rw [hcmagic, hzm]
        show s₀.good cno.sector = true ↔ _
        rw [hz]
      have hcount_t := count_stuck (s := s₀) t (z ::ₘ (s₀.stuck t + left)) a
      have hcount_z := count_stuck (s := s₀) z (s₀.stuck t + (s₀.stuck t + left)) a
      rw [Multiset.add_cons] at hcount_t
      rw [hrefs a, hrefs₃ a, hx₂.refs, hjsec, hcsec']
      simp only [htm, hcmagic']
      have harr : s₀.stuck z + (s₀.stuck t + (s₀.stuck t + left))
          = s₀.stuck t + s₀.stuck t + (s₀.stuck z + left) := by
        rw [add_assoc, add_left_comm (s₀.stuck z), add_left_comm (s₀.stuck z)]
      rw [← harr]
      omega

theorem filesys_remove_nil (h : filesys_remove s cwd path = .ok (b, s'))
    (hnil : path_components path = []) : b = false ∧ s' = s := by
  obtain ⟨path_lst, hparse, h⟩ := Outcome.bind_eq_ok.mp h
  obtain rfl := parse_path_eq_ok hparse
  rw [hnil] at h
  obtain ⟨rfl, rfl⟩ := Outcome.ok_pair h
  exact ⟨rfl, rfl⟩

/-- **The walk of `filesys_remove`** names an entry, with handles on the target and
on the directory, or it gives up with a directory still open. -/
theorem filesys_remove_walk (hwf : s.OpenWf) (hne : path_components path ≠ [])
    (h : filesys_remove s cwd path = .ok (b, s')) :
    (b = false ∧ remove_target s cwd path = .ok none
      ∧ ∃ extra, extra ≠ 0 ∧ filesys.Extra s s' extra)
    ∨ ∃ l z ofs e s₁ cur find ino cno,
      remove_target s cwd path = .ok (some (l, z, ofs, e))
      ∧ route s (path_dirs path) (start_sector s cwd (is_root_path path)) = .ok (some (l, z))
      ∧ entry_at s z (path_last path) = .ok (some (ofs, e))
      ∧ filesys.Extra s s₁ (dir_entry.inode_sector e ::ₘ z ::ₘ left_open s l)
      ∧ s₁.inode find = some ino ∧ ino.sector = dir_entry.inode_sector e
      ∧ s₁.inode cur = some cno ∧ cno.sector = z
      ∧ remove_found s₁ cwd cur find (path_last path) = .ok (b, s') := by
  obtain ⟨path_lst, hparse, h⟩ := Outcome.bind_eq_ok.mp h
  obtain rfl := parse_path_eq_ok hparse
  rw [getLast?_path hne] at h
  obtain ⟨⟨cur, s₁⟩, hstart, h⟩ := Outcome.bind_eq_ok.mp h
  obtain ⟨⟨dir, s₂⟩, hwalk, h⟩ := Outcome.bind_eq_ok.mp h
  have htarget : ∀ r, route s (path_dirs path) (start_sector s cwd (is_root_path path)) = .ok r →
      remove_target s cwd path = match r with
        | none => .ok none
        | some (l, z) => do
            let entry ← entry_at s z (path_last path)
            return entry.map fun (ofs, e) => (l, z, ofs, e) := by
    intro r hr
    unfold remove_target
    rw [if_neg hne, hr]
    rfl
  rcases (start_dir_started hwf hstart).walk hwalk with
    ⟨l, z, j, jno, rfl, hroute, hj, rfl, hx⟩ | ⟨rfl, hroute, extra, hextra, hx⟩
  · obtain ⟨⟨found, s₃⟩, hlookup, hfound⟩ := Outcome.bind_eq_ok.mp h
    have htarget' := htarget _ hroute
    cases found with
    | none =>
        obtain ⟨hentry, rfl⟩ := dir_lookup_none hx hj hlookup
        obtain ⟨rfl, rfl⟩ := Outcome.ok_pair hfound
        simp only [hentry] at htarget'
        exact .inl ⟨rfl, htarget', _, Multiset.cons_ne_zero, hx⟩
    | some find =>
        obtain ⟨ofs, e, hentry, hopen⟩ := dir_lookup_some hx hj hlookup
        obtain ⟨hx₃, ino, hfind, hsec⟩ := hx.open hopen
        obtain ⟨n, hcur⟩ := filesys.inode_open_kept hx.wf hopen hj
        simp only [hentry] at htarget'
        exact .inr ⟨l, jno.sector, ofs, e, s₃, j, find, ino, _, htarget', hroute,
          hentry, hx₃, hfind, hsec, hcur, rfl, hfound⟩
  · obtain ⟨rfl, rfl⟩ := Outcome.ok_pair h
    exact .inl ⟨rfl, htarget _ hroute, extra, hextra, hx⟩

/-- When `filesys_remove` closes everything it opens: there is nothing to walk, or
the whole path is there and its inodes can be closed. -/
def RemoveCloses (s : filesys) (cwd : Option ℕ) (path : c_string) : Prop :=
  path_components path = [] ∨ ∃ l z ofs e, remove_target s cwd path = .ok (some (l, z, ofs, e))
    ∧ (∀ a ∈ l, s.good a = true) ∧ s.good z = true ∧ s.good (dir_entry.inode_sector e) = true

theorem filesys_remove_balanced_iff (hwf : s.OpenWf) (h : filesys_remove s cwd path = .ok (b, s')) :
    Balanced s s' ↔ RemoveCloses s cwd path := by
  unfold RemoveCloses
  by_cases hne : path_components path = []
  · refine ⟨fun _ => .inl hne, fun _ a => ?_⟩
    obtain ⟨-, rfl⟩ := filesys_remove_nil h hne
    rfl
  · rcases filesys_remove_walk hwf hne h with ⟨-, htarget, extra, hextra, hx⟩ |
      ⟨l, z, ofs, e, s₁, cur, find, ino, cno, htarget, -, hentry, hx, hfind, hsec, hcur, hz, hrun⟩
    · refine iff_of_false (not_balanced_of_extra hextra hx.refs) ?_
      rintro (hnil | ⟨l, z, ofs, e, htarget', -⟩)
      · exact hne hnil
      · rw [htarget] at htarget'
        cases Outcome.ok.inj htarget'
    · obtain ⟨m, hm, hrefs⟩ := remove_found_refs hx hfind hsec hcur hz hentry rfl hrun
      have hzero : m + (s.stuck z + left_open s l) = 0 ↔ (∀ a ∈ l, s.good a = true)
          ∧ s.good z = true ∧ s.good (dir_entry.inode_sector e) = true := by
        rw [multiset_add_eq_zero, multiset_add_eq_zero, hm, filesys.stuck_eq_zero,
          left_open_eq_zero]
        tauto
      constructor
      · intro hbal
        right
        refine ⟨l, z, ofs, e, htarget, hzero.mp ?_⟩
        by_contra hextra
        exact not_balanced_of_extra hextra hrefs hbal
      · rintro (hnil | ⟨l', z', ofs', e', htarget', hgood⟩)
        · exact absurd hnil hne
        · rw [htarget] at htarget'
          cases Option.some.inj (Outcome.ok.inj htarget')
          intro a
          rw [hrefs a, hzero.mpr hgood]
          simp

end Remove

section Chdir

variable {s s' : filesys} {cwd cwd' : Option ℕ} {path : c_string} {b : Bool}

/-- A successful `sys_chdir` moves one handle from the old directory to the new
one, a failed one moves nothing. -/
def Transferred (s : filesys) (cwd : Option ℕ) (b : Bool) (cwd' : Option ℕ) (s' : filesys) : Prop :=
  if b then ∀ a, s'.refs a = s.refs a - handle_on s cwd a + handle_on s' cwd' a else Balanced s s'

/-- When `sys_chdir` does: it succeeds, and what it leaves behind can be closed. -/
def ChdirCloses (s : filesys) (cwd : Option ℕ) (path : c_string) : Prop :=
  (∀ ino, cwd.bind s.inode = some ino → ino.data.magic = INODE_MAGIC)
  ∧ ((is_root_path path = true ∧ path_components path = [])
    ∨ ∃ l z, route s (path_components path) (start_sector s cwd (is_root_path path))
        = .ok (some (l, z))
      ∧ (∀ a ∈ l, s.good a = true) ∧ (s.view z).removed = false)

/-- The handle a close takes away. -/
theorem refs_dir_close {h : Multiset ℕ} {s₁ : filesys} (hx : filesys.Extra s s₁ h)
    (hclose : dir_close s₁ cwd = .ok s') :
    s'.OpenWf ∧ (∀ a, s'.refs a + handle_on s₁ cwd a
      = s₁.refs a + if ∃ ino, cwd.bind s₁.inode = some ino ∧ a = ino.sector
          ∧ ino.data.magic ≠ INODE_MAGIC then 1 else 0) := by
  cases cwd with
  | none =>
      obtain rfl := Outcome.ok.inj hclose
      refine ⟨hx.wf, fun a => ?_⟩
      rw [handle_on_none, if_neg (by simp)]
  | some c =>
      obtain ⟨ino, hi, -⟩ := inode_close_cases hclose
      obtain ⟨hwf, hrefs⟩ := filesys.refs_close hx.wf hi hclose
      refine ⟨hwf, fun a => ?_⟩
      rw [hrefs a, handle_on_some hi]
      simp only [Option.bind_some, hi, Option.some.injEq, exists_eq_left']
      by_cases ha : a = ino.sector
      · by_cases hm : ino.data.magic = INODE_MAGIC
        · simp [ha, hm]
        · simp [ha, hm]
      · simp [ha]

/-- The pointer `cwd` of a thread: null, or the address of an inode, freed or not. -/
def CwdOk (s : filesys) (cwd : Option ℕ) : Prop := ∀ c, cwd = some c → c < s.next_inode

/-- The working directory is the same in a state with more handles. -/
theorem Extra_same_cwd {h : Multiset ℕ} {s₁ : filesys} (hx : filesys.Extra s s₁ h)
    (hcwd : CwdOk s cwd) {ino₁ : inode} (hi₁ : cwd.bind s₁.inode = some ino₁) :
    ∃ ino, cwd.bind s.inode = some ino ∧ ino₁.sector = ino.sector
      ∧ ino₁.data.magic = ino.data.magic := by
  cases cwd with
  | none => cases hi₁
  | some c =>
      rw [Option.bind_some] at hi₁ ⊢
      cases hi : s.inode c with
      | none =>
          rw [hx.freed (hcwd c rfl) hi] at hi₁
          cases hi₁
      | some ino =>
          obtain ⟨ino', hi', hsec⟩ := hx.kept hi
          rw [hi₁] at hi'
          obtain rfl := Option.some.inj hi'
          refine ⟨ino, rfl, hsec, ?_⟩
          have hview := hx.view_open hi₁
          rw [hsec, filesys.view_of_open hx.base hi] at hview
          exact congrArg (fun x => x.data.magic) hview

theorem Extra_handle_on {h : Multiset ℕ} {s₁ : filesys} (hx : filesys.Extra s s₁ h)
    (hcwd : CwdOk s cwd) (a : ℕ) : handle_on s₁ cwd a = handle_on s cwd a := by
  unfold handle_on
  cases hi₁ : cwd.bind s₁.inode with
  | some ino₁ =>
      obtain ⟨ino, hi, hsec, -⟩ := Extra_same_cwd hx hcwd hi₁
      simp only [hi, hsec]
  | none =>
      cases hi : cwd.bind s.inode with
      | none => rfl
      | some ino =>
          obtain ⟨c, rfl, hc⟩ := Option.bind_eq_some_iff.mp hi
          obtain ⟨ino', hi', -⟩ := hx.kept hc
          rw [Option.bind_some, hi'] at hi₁
          cases hi₁

/-- What a close of the working directory leaves of its handle. -/
theorem Extra_dir_close {h : Multiset ℕ} {s₁ : filesys} (hx : filesys.Extra s s₁ h)
    (hcwd : CwdOk s cwd) (hclose : dir_close s₁ cwd = .ok s') :
    s'.OpenWf ∧ ∃ m : Multiset ℕ,
      (m = 0 ↔ ∀ ino, cwd.bind s.inode = some ino → ino.data.magic = INODE_MAGIC)
      ∧ ∀ a, s'.refs a = s.refs a - handle_on s cwd a + (m + h).count a := by
  obtain ⟨hwf, hrefs⟩ := refs_dir_close hx hclose
  refine ⟨hwf, ?_⟩
  cases hi₁ : cwd.bind s₁.inode with
  | none =>
      have hnone : cwd.bind s.inode = none := by
        cases hi : cwd.bind s.inode with
        | none => rfl
        | some ino =>
            obtain ⟨c, rfl, hc⟩ := Option.bind_eq_some_iff.mp hi
            obtain ⟨ino', hi', -⟩ := hx.kept hc
            rw [Option.bind_some, hi'] at hi₁
            cases hi₁
      refine ⟨0, by simp [hnone], fun a => ?_⟩
      have ha := hrefs a
      rw [if_neg (by simp [hi₁]), Extra_handle_on hx hcwd, hx.refs] at ha
      rw [zero_add]
      omega
  | some ino₁ =>
      obtain ⟨ino, hi, hsec, hmagic⟩ := Extra_same_cwd hx hcwd hi₁
      by_cases hm : ino.data.magic = INODE_MAGIC
      · refine ⟨0, by simp [hi, hm], fun a => ?_⟩
        have ha := hrefs a
        rw [if_neg (by simp [hi₁, hmagic, hm]), Extra_handle_on hx hcwd, hx.refs] at ha
        rw [zero_add]
        omega
      · refine ⟨{ino.sector}, by simp [hi, hm], fun a => ?_⟩
        have ha := hrefs a
        simp only [hi₁, Option.some.injEq, exists_eq_left', hmagic, hsec, hm, ne_eq,
          not_false_eq_true, and_true] at ha
        rw [Extra_handle_on hx hcwd, hx.refs] at ha
        rw [Multiset.count_add, Multiset.count_singleton]
        push_cast
        omega

/-- A directory that has just been opened survives the close of the working
directory, which holds a handle of its own. -/
theorem dir_close_kept {h : Multiset ℕ} {s₁ : filesys} {j : ℕ} {jno : inode}
    (hx : filesys.Extra s s₁ (jno.sector ::ₘ h)) (hcwd : CwdOk s cwd) (hj : s₁.inode j = some jno)
    (hclose : dir_close s₁ cwd = .ok s') : ∃ n, s'.inode j = some { jno with open_cnt := n } := by
  cases cwd with
  | none =>
      obtain rfl := Outcome.ok.inj hclose
      exact ⟨jno.open_cnt, hj⟩
  | some c =>
      obtain ⟨ino₁, hi₁, -⟩ := inode_close_cases hclose
      refine filesys.inode_close_kept hx.wf hi₁ hclose hj fun hsame => ?_
      obtain ⟨ino, hi, hsec, -⟩ := Extra_same_cwd hx hcwd hi₁
      rw [Option.bind_some] at hi
      have hpos := hx.base.pos hi
      rw [hx.refs, hsame, Multiset.count_cons_self, hsec, filesys.refs_of_open hx.base hi]
      omega

/-- With a handle moved, and `m` left behind. -/
theorem transferred_iff {z : ℕ} {m h : Multiset ℕ} {dir : ℕ} {ino : inode}
    (hi : s'.inode dir = some ino) (hz : ino.sector = z)
    (hrefs : ∀ a, s'.refs a = s.refs a - handle_on s cwd a + (m + (z ::ₘ h)).count a) :
    Transferred s cwd true (some dir) s' ↔ m = 0 ∧ h = 0 := by
  unfold Transferred
  rw [if_pos rfl, ← multiset_add_eq_zero]
  have hstep : ∀ a, s'.refs a = s.refs a - handle_on s cwd a + handle_on s' (some dir) a
      + (m + h).count a := by
    intro a
    rw [hrefs a, handle_on_some hi, hz, Multiset.count_add, Multiset.count_add, Multiset.count_cons]
    push_cast
    ring
  constructor
  · intro ht
    rw [Multiset.eq_zero_iff_forall_notMem]
    intro a ha
    have hpos := Multiset.count_pos.mpr ha
    have h₁ := ht a
    have h₂ := hstep a
    omega
  · intro hzero a
    rw [hstep a, hzero]
    simp

/-- **`sys_chdir`** moves its handle when it succeeds; when it fails behind the
start, the directory it has reached stays open. -/
theorem sys_chdir_transferred_iff (hwf : s.OpenWf) (hcwd : CwdOk s cwd)
    (h : sys_chdir s cwd path = .ok (b, cwd', s')) :
    Transferred s cwd b cwd' s' ↔ ChdirCloses s cwd path := by
  obtain ⟨path_lst, hparse, h⟩ := Outcome.bind_eq_ok.mp h
  obtain rfl := parse_path_eq_ok hparse
  unfold ChdirCloses
  split at h
  case isTrue hroot =>
    obtain ⟨s₁, hclose, h⟩ := Outcome.bind_eq_ok.mp h
    obtain ⟨⟨root, s₂⟩, hopen, h⟩ := Outcome.bind_eq_ok.mp h
    cases Outcome.ok.inj h
    obtain ⟨hwf₁, m, hm, hrefs⟩ := Extra_dir_close (filesys.Extra.refl hwf) hcwd hclose
    obtain ⟨hx, ino, hi, hsec⟩ := dir_open_root_started hwf₁ hopen
    have hrefs' : ∀ a, s'.refs a
        = s.refs a - handle_on s cwd a + (m + (ROOT_DIR_SECTOR ::ₘ 0)).count a := by
      intro a
      rw [hx.refs, hrefs, Multiset.count_add, Multiset.count_add]
      push_cast
      rw [Multiset.count_zero]
      exact (add_assoc _ _ _).trans (by simp)
    rw [transferred_iff hi hsec hrefs', ← hm]
    simp [hroot]
  case isFalse hroot =>
    obtain ⟨⟨cur, s₁⟩, hstart, h⟩ := Outcome.bind_eq_ok.mp h
    obtain ⟨⟨dir, s₂⟩, hwalk, h⟩ := Outcome.bind_eq_ok.mp h
    rcases (start_dir_started hwf hstart).walk hwalk with
      ⟨l, z, j, jno, rfl, hroute, hj, rfl, hx⟩ | ⟨rfl, hroute, extra, hextra, hx⟩
    · obtain ⟨jno', hj', h⟩ := Outcome.bind_eq_ok.mp h
      rw [filesys.get_inode_eq_ok, hj] at hj'
      obtain rfl := Option.some.inj hj'
      have hremoved : (s.view jno.sector).removed = jno.removed := by rw [← hx.view_open hj]
      have hcond : ((is_root_path path = true ∧ path_components path = []) ∨
          ∃ l z, route s (path_components path) (start_sector s cwd (is_root_path path))
              = .ok (some (l, z)) ∧ (∀ a ∈ l, s.good a = true) ∧ (s.view z).removed = false)
          ↔ (∀ a ∈ l, s.good a = true) ∧ jno.removed = false := by
        rw [hroute, ← hremoved]
        constructor
        · rintro (hr | ⟨l', z', heq, hgood⟩)
          · exact absurd hr hroot
          · cases Option.some.inj (Outcome.ok.inj heq)
            exact hgood
        · intro hgood
          exact .inr ⟨l, jno.sector, rfl, hgood⟩
      rw [hcond]
      cases hrem : jno.removed with
      | true =>
          simp only [hrem, if_true] at h
          cases Outcome.ok.inj h
          refine iff_of_false ?_ (by simp)
          exact not_balanced_of_extra Multiset.cons_ne_zero hx.refs
      | false =>
          simp only [hrem, Bool.false_eq_true, if_false] at h
          obtain ⟨s₃, hclose, h⟩ := Outcome.bind_eq_ok.mp h
          cases Outcome.ok.inj h
          obtain ⟨hwf₃, m, hm, hrefs⟩ := Extra_dir_close hx hcwd hclose
          -- the new directory survives the close of the old one
          obtain ⟨n, hj₃⟩ := dir_close_kept hx hcwd hj hclose
          rw [transferred_iff hj₃ rfl hrefs, hm, left_open_eq_zero]
          simp
    · cases Outcome.ok.inj h
      refine iff_of_false (not_balanced_of_extra hextra hx.refs) ?_
      rintro ⟨-, hr | ⟨l', z', heq, -⟩⟩
      · exact hroot hr
      · rw [hroute] at heq
        cases Outcome.ok.inj heq

end Chdir

section Mkdir

variable {s s' : filesys} {cwd : Option ℕ} {path name : c_string} {b : Bool}

/-- A chain of one: nothing is free, or a free cluster is claimed. -/
theorem fat_create_chain_zero_cases {fs fs' : fat_fs} (hwf : fs.Wf) {c : ℕ}
    (h : fat_create_chain fs 0 = .ok (c, fs')) :
    (c = 0 ∧ fs' = fs)
      ∨ (2 ≤ c ∧ c < fs.fat_length ∧ fs.fat c = 0 ∧ fs' = claim_cluster fs c) := by
  have h0 : 0 < fs.fat_length := by have := hwf.two_lt; omega
  have hfind : ∃ k, find_free_cluster fs = .ok k := by
    rw [fat_create_chain, Outcome.assert_pos h0, Outcome.ok_bind] at h
    obtain ⟨k, hk, -⟩ := Outcome.bind_eq_ok.mp h
    exact ⟨k, hk⟩
  obtain ⟨k, hk⟩ := hfind
  by_cases hk0 : k = 0
  · subst hk0
    rw [fat_create_chain_full h0 hk] at h
    obtain ⟨rfl, rfl⟩ := Outcome.ok_pair h
    exact .inl ⟨rfl, rfl⟩
  · rw [fat_create_chain_start hwf hk hk0] at h
    obtain ⟨rfl, rfl⟩ := Outcome.ok_pair h
    obtain ⟨-, h2, hlt, hfree⟩ := find_free_cluster_pos hwf hk hk0
    exact .inr ⟨h2, hlt, hfree, rfl⟩

/-- `dir_create` of 16 entries takes one cluster and writes two sectors. -/
theorem dir_create_inode {d d' : disk} {fs fs' : fat_fs} {sector : ℕ}
    (h : inode_create d fs sector ((16 : ℕ) * DIR_ENTRY_SIZE : ℤ) true = .ok (true, d', fs')) :
    ∃ start d₁, fat_create_chain fs 0 = .ok (start, fs') ∧ start ≠ 0
      ∧ disk_write d sector (inode_disk.encode
          { start, length := (16 : ℕ) * DIR_ENTRY_SIZE, magic := INODE_MAGIC, isdir := true })
        = .ok d₁
      ∧ disk_write d₁ (cluster_to_sector fs' start) zeros = .ok d' := by
  have hsectors : bytes_to_sectors ((16 : ℕ) * DIR_ENTRY_SIZE : ℤ) = 1 := by decide
  unfold inode_create at h
  rw [hsectors] at h
  obtain ⟨-, -, h⟩ := Outcome.bind_eq_ok.mp h
  obtain ⟨⟨allocated, start, fs₁⟩, halloc, h⟩ := Outcome.bind_eq_ok.mp h
  obtain ⟨⟨c, fs₂⟩, hchain, halloc⟩ := Outcome.bind_eq_ok.mp halloc
  cases Outcome.ok.inj halloc
  by_cases hne : start ≠ 0
  · simp only [decide_eq_true hne, if_true] at h
    obtain ⟨d₁, hwrite, h⟩ := Outcome.bind_eq_ok.mp h
    obtain ⟨d₂, hloop, h⟩ := Outcome.bind_eq_ok.mp h
    cases Outcome.ok.inj h
    obtain ⟨d₃, hzero, hloop⟩ := Outcome.bind_eq_ok.mp hloop
    cases Outcome.ok.inj hloop
    refine ⟨start, d₁, hchain, hne, hwrite, ?_⟩
    rwa [Nat.add_zero, Nat.mod_eq_of_lt (cluster_to_sector_lt _ _)] at hzero
  · simp only [decide_eq_false hne, Bool.false_eq_true, if_false] at h
    cases Outcome.ok.inj h

/-- An inode that is written before another sector is cleared. -/
theorem stored_put {d : disk} {i : inode_disk} (hi : i.Fits) {a b : ℕ} (hab : a ≠ b) :
    stored ((d.put a i.encode).put b zeros) a = i := by
  unfold stored
  rw [disk.put_sectors_of_ne hab, disk.put_sectors_self, inode_disk.decode_encode hi]

/-- **The clusters of a new directory**: one for the inode, one for its entries,
both free before. -/
theorem mkdir_clusters {s₁ : filesys} {fs : fat_fs} {clst : ℕ} (hfat : s.fat.Wf)
    (hchain : fat_create_chain s.fat 0 = .ok (clst, fs))
    (hdir : dir_create (s.set_fat fs) (cluster_to_sector fs clst) 16 = .ok (true, s₁)) :
    clst ≠ 0 ∧ s.fat.fat clst = 0 ∧ s₁.fat.fat clst = EOChain ∧ Steady s s₁
      ∧ (stored s₁.disk (cluster_to_sector fs clst)).magic = INODE_MAGIC := by
  obtain ⟨⟨done, d, fs₁⟩, hcreate, hdir⟩ := Outcome.bind_eq_ok.mp hdir
  obtain ⟨rfl, rfl⟩ := Outcome.ok_pair hdir
  obtain ⟨start, d₁, hstart, hne, hwrite, hzero⟩ := dir_create_inode hcreate
  rcases fat_create_chain_zero_cases hfat hchain with ⟨rfl, rfl⟩ | ⟨h2, hlt, hfree, rfl⟩
  · -- the second search sees what the first one saw
    have hsame : fat_create_chain s.fat 0 = .ok (start, fs₁) := hstart
    rw [hchain] at hsame
    obtain ⟨rfl, -⟩ := Outcome.ok_pair hsame
    exact absurd rfl hne
  · have hwf := claim_cluster_wf hfat h2 hlt
    rcases fat_create_chain_zero_cases hwf hstart with ⟨rfl, -⟩ | ⟨-, hlt', hfree', rfl⟩
    · exact absurd rfl hne
    · have hother : clst ≠ start := by
        rintro rfl
        rw [claim_cluster_fat_self] at hfree'
        cases hfree'
      have hsec : cluster_to_sector s.fat clst ≠ cluster_to_sector s.fat start := fun heq =>
        hother (cluster_to_sector_inj hfat.toGeometry hlt.le (le_of_lt hlt') heq)
      refine ⟨by omega, hfree, ?_, .of_heap rfl rfl rfl, ?_⟩
      · show (claim_cluster (claim_cluster s.fat clst) start).fat clst = EOChain
        rw [claim_cluster_fat_of_ne hother, claim_cluster_fat_self]
      · obtain ⟨-, rfl⟩ := disk_write_eq_ok.mp hwrite
        obtain ⟨-, rfl⟩ := disk_write_eq_ok.mp hzero
        have hlt'' : start < s.fat.fat_length := hlt'
        have hno_wrap := hfat.no_wrap
        have hstored := stored_put (d := s.disk)
          (i := { start, length := (16 : ℕ) * DIR_ENTRY_SIZE, magic := INODE_MAGIC, isdir := true })
          ⟨by show start < 2 ^ 32; omega, by show IsI32 (320 : ℤ); decide,
            by show INODE_MAGIC < 2 ^ 32; decide⟩ hsec
        exact congrArg inode_disk.magic hstored

/-- A taken cluster stays taken. -/
def Grown (fs fs' : fat_fs) : Prop := ∀ c, fs.fat c ≠ 0 → fs'.fat c ≠ 0

theorem Grown.trans {fs fs' fs'' : fat_fs} (h : Grown fs fs') (h' : Grown fs' fs'') :
    Grown fs fs'' :=
  fun c hc => h' c (h c hc)

theorem fat_put_grown {fs fs' : fat_fs} {clst val : ℕ} (hval : val ≠ 0)
    (h : fat_put fs clst val = .ok fs') : Grown fs fs' := by
  unfold fat_put at h
  split at h
  · obtain rfl := Outcome.ok.inj h
    intro c hc
    show Function.update fs.fat clst val c ≠ 0
    by_cases hcc : c = clst
    · subst hcc
      rwa [Function.update_self]
    · rwa [Function.update_of_ne hcc]
  · cases h

theorem fat_create_chain_grown {fs fs' : fat_fs} {clst c : ℕ}
    (h : fat_create_chain fs clst = .ok (c, fs')) : Grown fs fs' := by
  unfold fat_create_chain at h
  obtain ⟨-, -, h⟩ := Outcome.bind_eq_ok.mp h
  obtain ⟨k, -, h⟩ := Outcome.bind_eq_ok.mp h
  by_cases hk : k = 0
  · rw [if_pos hk] at h
    cases Outcome.ok.inj h
    exact fun _ hc => hc
  · rw [if_neg hk] at h
    obtain ⟨fs₁, hput, h⟩ := Outcome.bind_eq_ok.mp h
    have heoc : EOChain ≠ 0 := by decide
    have hput' : Grown fs fs₁ := fat_put_grown heoc hput
    have hg₁ : Grown fs { fs₁ with last_clst := k } := hput'
    by_cases hclst : clst = 0
    · rw [if_pos hclst] at h
      cases Outcome.ok.inj h
      exact hg₁
    · rw [if_neg hclst] at h
      obtain ⟨t, -, h⟩ := Outcome.bind_eq_ok.mp h
      obtain ⟨fs₂, hput₂, h⟩ := Outcome.bind_eq_ok.mp h
      cases Outcome.ok.inj h
      exact hg₁.trans (fat_put_grown hk hput₂)

theorem inode_extend_loop_grown (fuel : ℕ) :
    ∀ {d d' : disk} {fs fs' : fat_fs} {ino ino' : inode} {remain : ℤ},
      inode_extend_loop fuel d fs ino remain = .ok (d', fs', ino') → Grown fs fs' := by
  induction fuel with
  | zero =>
      intro d d' fs fs' ino ino' remain h
      cases h
  | succ fuel ih =>
      intro d d' fs fs' ino ino' remain h
      rw [inode_extend_loop] at h
      split at h
      case isTrue =>
        cases Outcome.ok.inj h
        exact fun _ hc => hc
      case isFalse =>
        obtain ⟨⟨c, fs₁⟩, hchain, h⟩ := Outcome.bind_eq_ok.mp h
        obtain ⟨d₁, -, h⟩ := Outcome.bind_eq_ok.mp h
        exact (fat_create_chain_grown hchain).trans (ih h)

theorem inode_extend_grown {d d' : disk} {fs fs' : fat_fs} {ino ino' : inode} {extend_size : ℤ}
    (h : inode_extend d fs ino extend_size = .ok (d', fs', ino')) : Grown fs fs' := by
  unfold inode_extend at h
  by_cases hstart : ino.data.start = 0
  · simp only [if_pos hstart] at h
    obtain ⟨⟨start, fs₁⟩, hchain, h⟩ := Outcome.bind_eq_ok.mp h
    exact (fat_create_chain_grown hchain).trans (inode_extend_loop_grown _ h)
  · simp only [if_neg hstart, Outcome.ok_bind] at h
    exact inode_extend_loop_grown _ h

theorem inode_write_at_grown {d d' : disk} {fs fs' : fat_fs} {ino ino' : inode} {buffer : Bytes}
    {size offset n : ℤ} (h : inode_write_at d fs ino buffer size offset = .ok (n, d', fs', ino')) :
    Grown fs fs' := by
  rcases inode_write_at_cases h with ⟨-, -, -, rfl, -⟩ | ⟨-, d₁, d₂, hext, -, -⟩
  · exact fun _ hc => hc
  · rcases hext with ⟨-, hext⟩ | ⟨-, -, rfl, -⟩
    · exact inode_extend_grown hext
    · exact fun _ hc => hc

theorem write_entry_grown {i ofs : ℕ} {e : Bytes} {done : Bool}
    (h : write_entry s i e ofs = .ok (done, s')) : Grown s.fat s'.fat := by
  obtain ⟨ino, -, h⟩ := Outcome.bind_eq_ok.mp h
  obtain ⟨⟨n, d, fs, ino'⟩, hwrite, h⟩ := Outcome.bind_eq_ok.mp h
  obtain ⟨-, rfl⟩ := Outcome.ok_pair h
  exact inode_write_at_grown hwrite

theorem dir_add_grown {i sector : ℕ} {done : Bool} (h : dir_add s i name sector = .ok (done, s')) :
    Grown s.fat s'.fat := by
  unfold dir_add at h
  split at h
  case isTrue =>
    obtain ⟨-, rfl⟩ := Outcome.ok_pair h
    exact fun _ hc => hc
  case isFalse =>
    obtain ⟨entry, -, h⟩ := Outcome.bind_eq_ok.mp h
    split at h
    case isTrue =>
      obtain ⟨-, rfl⟩ := Outcome.ok_pair h
      exact fun _ hc => hc
    case isFalse =>
      obtain ⟨r, -, h⟩ := Outcome.bind_eq_ok.mp h
      exact write_entry_grown h

theorem mkdir_entries_grown {i new_dir sector : ℕ} {done : Bool}
    (h : mkdir_entries s i new_dir name sector = .ok (done, s')) : Grown s.fat s'.fat := by
  obtain ⟨⟨done₁, s₁⟩, h₁, h⟩ := Outcome.bind_eq_ok.mp h
  have hg₁ := dir_add_grown h₁
  cases done₁ with
  | false =>
      obtain ⟨-, rfl⟩ := Outcome.ok_pair h
      exact hg₁
  | true =>
      obtain ⟨⟨done₂, s₂⟩, h₂, h⟩ := Outcome.bind_eq_ok.mp h
      have hg₂ := hg₁.trans (dir_add_grown h₂)
      cases done₂ with
      | false =>
          obtain ⟨-, rfl⟩ := Outcome.ok_pair h
          exact hg₂
      | true =>
          obtain ⟨ino, -, h⟩ := Outcome.bind_eq_ok.mp h
          exact hg₂.trans (dir_add_grown h)

/-- A close that is not the last one of a removed inode leaves the table alone. -/
theorem inode_close_fat {i : ℕ} {ino : inode} (hi : s.inode i = some ino)
    (hrem : ino.removed = true → ino.open_cnt ≠ 1) (hclose : inode_close s i = .ok s') :
    s'.fat = s.fat := by
  obtain ⟨ino₁, hi₁, hcases⟩ := inode_close_cases hclose
  rw [hi] at hi₁
  obtain rfl := Option.some.inj hi₁
  rcases hcases with ⟨-, rfl⟩ | ⟨-, hone, fs, hfs, rfl⟩ | ⟨-, -, rfl⟩
  · rfl
  · have hno : ino.removed = false := by
      by_contra hyes
      exact hrem (by simpa using hyes) hone
    unfold inode_release at hfs
    rw [hno] at hfs
    exact (Outcome.ok.inj hfs).symm
  · rfl

/-- The last part of `mkdir_at` as one run of states. -/
theorem mkdir_at_cases {j : ℕ} (h : mkdir_at s (some j) name = .ok (b, s')) :
    ∃ clst fs s₁ new_dir s₂ s₃ s₄, fat_create_chain s.fat 0 = .ok (clst, fs)
      ∧ dir_create (s.set_fat fs) (cluster_to_sector fs clst) 16 = .ok (true, s₁)
      ∧ inode_open s₁ (cluster_to_sector fs clst) = .ok (new_dir, s₂)
      ∧ mkdir_entries s₂ j new_dir name (cluster_to_sector fs clst) = .ok (b, s₃)
      ∧ inode_close s₃ new_dir = .ok s₄ ∧ inode_close s₄ j = .ok s' := by
  obtain ⟨⟨clst, fs⟩, hchain, h⟩ := Outcome.bind_eq_ok.mp h
  obtain ⟨⟨created, s₁⟩, hdir, h⟩ := Outcome.bind_eq_ok.mp h
  cases created with
  | false => cases h
  | true =>
      obtain ⟨⟨new_dir, s₂⟩, hopen, h⟩ := Outcome.bind_eq_ok.mp h
      obtain ⟨⟨done, s₃⟩, hentries, h⟩ := Outcome.bind_eq_ok.mp h
      obtain ⟨s₄, hclose, h⟩ := Outcome.bind_eq_ok.mp h
      obtain ⟨s₅, hclose', h⟩ := Outcome.bind_eq_ok.mp h
      cases Outcome.ok.inj h
      exact ⟨clst, fs, s₁, new_dir, s₂, s₃, s₄, hchain, hdir, hopen, hentries, hclose, hclose'⟩

/-- Is the inode of the new directory one that can be closed? Its sector is, unless
a stale inode is still open there. -/
theorem new_dir_good {s₁ : filesys} {a : ℕ} (hwf : s.OpenWf) (hsteady : Steady s s₁)
    (hstored : (stored s₁.disk a).magic = INODE_MAGIC) :
    s₁.good a = true ↔ s.refs a = 0 ∨ s.good a = true := by
  have hwf₁ := hsteady.wf hwf
  unfold filesys.good
  by_cases hzero : s.refs a = 0
  · have hzero₁ : s₁.refs a = 0 := (hsteady.refs hwf a).trans hzero
    rw [filesys.view_of_refs hwf₁ hzero₁]
    simp [fresh_inode, hstored, hzero]
  · have hpos : 0 < s.refs a := lt_of_le_of_ne (filesys.refs_nonneg hwf a) (Ne.symm hzero)
    obtain ⟨i, ino, hi, rfl⟩ := filesys.open_of_refs hwf hpos
    obtain ⟨start, length, hi₁⟩ := hsteady.forth hi
    have hview : s₁.view ino.sector = { ino.set_data start length with open_cnt := 1 } :=
      filesys.view_of_open hwf₁ hi₁
    rw [hview, filesys.view_of_open hwf hi]
    simp only [hzero, false_or]
    exact Iff.rfl

/-- **`sys_mkdir` behind its walk** closes what it opened. It takes a cluster that
was free, and keeps it. -/
theorem mkdir_at_refs {s₀ : filesys} {left : Multiset ℕ} {j z : ℕ} {jno : inode}
    (hx : filesys.Extra s₀ s (z ::ₘ left)) (hfat : s₀.fat.Wf) (hj : s.inode j = some jno)
    (hz : jno.sector = z) (h : mkdir_at s (some j) name = .ok (b, s')) :
    ∃ clst fs, fat_create_chain s₀.fat 0 = .ok (clst, fs) ∧ s₀.fat.fat clst = 0
      ∧ s'.fat.fat clst ≠ 0
      ∧ ∃ m, (m = 0 ↔ s.refs (cluster_to_sector fs clst) = 0
          ∨ s₀.good (cluster_to_sector fs clst) = true)
        ∧ ∀ a, s'.refs a = s₀.refs a + (m + (s₀.stuck z + left)).count a := by
  obtain ⟨clst, fs, s₁, new_dir, s₂, s₃, s₄, hchain, hdir, hopen, hentries, hclose, hclose'⟩ :=
    mkdir_at_cases h
  have hfat' : s.fat.Wf := hx.fat ▸ hfat
  obtain ⟨-, hfree, htaken, hsteady, hstored⟩ := mkdir_clusters hfat' hchain hdir
  obtain ⟨sector, hsector⟩ : ∃ sector, sector = cluster_to_sector fs clst := ⟨_, rfl⟩
  rw [← hsector] at hdir hopen hentries hstored
  have hwf₁ := hsteady.wf hx.wf
  -- the handle on the new directory, on top of `s₁`
  obtain ⟨hx₂, nno, hnew, hnsec⟩ := (filesys.Extra.refl hwf₁).open hopen
  have hsteady₃ := mkdir_entries_steady hentries
  have hwf₃ := hsteady₃.wf hx₂.wf
  obtain ⟨start, length, hnew₃⟩ := hsteady₃.forth hnew
  obtain ⟨hwf₄, hrefs₄⟩ := filesys.refs_close hwf₃ hnew₃ hclose
  -- the directory the walk ended in, followed through the same states
  obtain ⟨start₁, length₁, hj₁⟩ := hsteady.forth hj
  obtain ⟨n₂, hj₂⟩ := filesys.inode_open_kept hwf₁ hopen hj₁
  obtain ⟨jno₄, hj₄, -⟩ := inode_close_cases hclose'
  obtain ⟨jno₃, hj₃, hjeq₄⟩ := filesys.inode_close_back hclose hj₄
  obtain ⟨jno₂, start₂, length₂, hj₂', hjeq₃⟩ := hsteady₃.back hj₃
  rw [hj₂] at hj₂'
  obtain rfl := Option.some.inj hj₂'
  have hjsec : jno₄.sector = z := by rw [hjeq₄, hjeq₃]; exact hz
  have hjmagic : jno₄.data.magic = jno.data.magic := by rw [hjeq₄, hjeq₃]; rfl
  have hjremoved : jno₄.removed = jno.removed := by rw [hjeq₄, hjeq₃]; rfl
  obtain ⟨-, hrefs'⟩ := filesys.refs_close hwf₄ hj₄ hclose'
  have hgood_new : nno.data.magic = INODE_MAGIC ↔ s₁.good sector = true := by
    rw [Extra_magic hx₂ hnew, hnsec]
  have hgood_z : jno₄.data.magic = INODE_MAGIC ↔ s₀.good z = true := by
    rw [hjmagic, Extra_magic hx hj, hz]
  have hcount₃ : ∀ a, s₃.refs a = s.refs a + if a = sector then 1 else 0 := by
    intro a
    rw [hsteady₃.refs hx₂.wf, hx₂.refs, hsteady.refs hx.wf]
    simp [Multiset.count_singleton]
  have hcount₄ : ∀ a, s₄.refs a = s.refs a + (s₁.stuck sector).count a := by
    intro a
    have hstuck := count_stuck (s := s₁) sector 0 a
    rw [add_zero] at hstuck
    rw [hrefs₄ a, hcount₃ a, ← hstuck]
    have hsec : (nno.set_data start length).sector = sector := hnsec
    have hmag : (nno.set_data start length).data.magic = INODE_MAGIC ↔ s₁.good sector = true :=
      hgood_new
    simp only [hsec, hmag, Multiset.count_cons, Multiset.count_zero]
    push_cast
    ring
  refine ⟨clst, fs, hx.fat ▸ hchain, hx.fat ▸ hfree, ?_, s₁.stuck sector, ?_, fun a => ?_⟩
  · -- neither close is the last one of a removed inode
    have hnew_last : (nno.set_data start length).removed = true →
        (nno.set_data start length).open_cnt ≠ 1 := by
      intro hrem
      rcases inode_open_cases hwf₁ hopen with ⟨ino, hi, -, rfl⟩ | ⟨-, rfl, rfl⟩
      · have hpos := hwf₁.pos hi
        rw [filesys.set_inode_inode, Function.update_self] at hnew
        obtain rfl := Option.some.inj hnew
        show ino.open_cnt + 1 ≠ 1
        omega
      · rw [filesys.new_inode_inode, Function.update_self] at hnew
        obtain rfl := Option.some.inj hnew
        cases hrem
    have hcur_last : jno₄.removed = true → jno₄.open_cnt ≠ 1 := by
      intro hrem
      -- a removed directory was open before the walk, so two handles are out
      have hview : (s₀.view z).removed = true := by
        rw [← hz, ← hx.view_open hj]
        exact hjremoved ▸ hrem
      have hheld : s₀.refs z ≠ 0 := by
        intro hzero
        rw [filesys.view_of_refs hx.base hzero] at hview
        cases hview
      have hopen_cnt := hcount₄ z
      rw [← hjsec, filesys.refs_of_open hwf₄ hj₄, hjsec, hx.refs, Multiset.count_cons_self]
        at hopen_cnt
      have := filesys.refs_nonneg hx.base z
      omega
    rw [inode_close_fat hj₄ hcur_last hclose', inode_close_fat hnew₃ hnew_last hclose]
    have hfat₂ : s₂.fat = s₁.fat := hx₂.fat
    have hgrown := mkdir_entries_grown hentries
    rw [hfat₂] at hgrown
    apply hgrown
    rw [htaken]
    decide
  · rw [filesys.stuck_eq_zero, new_dir_good hx.wf hsteady hstored, ← hsector]
    unfold filesys.good
    rw [hx.view]
  · have hstuck := count_stuck (s := s₀) z left a
    rw [hrefs' a, hcount₄ a, hx.refs, hjsec]
    simp only [hgood_z]
    rw [Multiset.count_add (s := s₁.stuck sector)]
    push_cast
    omega

theorem sys_mkdir_nil (h : sys_mkdir s cwd path = .ok (b, s')) (hnil : path_components path = []) :
    b = false ∧ s' = s := by
  obtain ⟨path_lst, hparse, h⟩ := Outcome.bind_eq_ok.mp h
  obtain rfl := parse_path_eq_ok hparse
  rw [hnil] at h
  obtain ⟨rfl, rfl⟩ := Outcome.ok_pair h
  exact ⟨rfl, rfl⟩

/-- A `sys_mkdir` that returns has come to the end of its walk. -/
theorem sys_mkdir_walk (hwf : s.OpenWf) (hne : path_components path ≠ [])
    (h : sys_mkdir s cwd path = .ok (b, s')) :
    ∃ l z j jno s₁, route s (path_dirs path) (start_sector s cwd (is_root_path path))
        = .ok (some (l, z))
      ∧ filesys.Extra s s₁ (z ::ₘ left_open s l) ∧ s₁.inode j = some jno ∧ jno.sector = z
      ∧ mkdir_at s₁ (some j) (path_last path) = .ok (b, s') := by
  obtain ⟨path_lst, hparse, h⟩ := Outcome.bind_eq_ok.mp h
  obtain rfl := parse_path_eq_ok hparse
  rw [getLast?_path hne] at h
  obtain ⟨⟨cur, s₁⟩, hstart, h⟩ := Outcome.bind_eq_ok.mp h
  obtain ⟨⟨dir, s₂⟩, hwalk, h⟩ := Outcome.bind_eq_ok.mp h
  rcases (start_dir_started hwf hstart).walk hwalk with
    ⟨l, z, j, jno, rfl, hroute, hj, hz, hx⟩ | ⟨rfl, -, -⟩
  · exact ⟨l, z, j, jno, s₂, hroute, hx, hj, hz, h⟩
  · cases h

/-- When `sys_mkdir` closes everything it opens. That it can close the new
directory is a matter of the sector it gets: a stale inode with a bad magic number
may still be open there. -/
def MkdirCloses (s : filesys) (cwd : Option ℕ) (path : c_string) : Prop :=
  path_components path = [] ∨ ∃ l z clst fs,
    route s (path_dirs path) (start_sector s cwd (is_root_path path)) = .ok (some (l, z))
    ∧ (∀ a ∈ l, s.good a = true) ∧ s.good z = true
    ∧ fat_create_chain s.fat 0 = .ok (clst, fs)
    ∧ (s.refs (cluster_to_sector fs clst) = 0 ∨ s.good (cluster_to_sector fs clst) = true)

theorem sys_mkdir_balanced_iff (hwf : s.OpenWf) (hfat : s.fat.Wf)
    (h : sys_mkdir s cwd path = .ok (b, s')) : Balanced s s' ↔ MkdirCloses s cwd path := by
  unfold MkdirCloses
  by_cases hne : path_components path = []
  · refine ⟨fun _ => .inl hne, fun _ a => ?_⟩
    obtain ⟨-, rfl⟩ := sys_mkdir_nil h hne
    rfl
  · obtain ⟨l, z, j, jno, s₁, hroute, hx, hj, hz, hat⟩ := sys_mkdir_walk hwf hne h
    obtain ⟨clst, fs, hchain, -, -, m, hm, hrefs⟩ := mkdir_at_refs hx hfat hj hz hat
    have hzero : m + (s.stuck z + left_open s l) = 0 ↔ (∀ a ∈ l, s.good a = true)
        ∧ s.good z = true ∧ (s.refs (cluster_to_sector fs clst) = 0
          ∨ s.good (cluster_to_sector fs clst) = true) := by
      rw [multiset_add_eq_zero, multiset_add_eq_zero, hm, filesys.stuck_eq_zero]
      constructor
      · rintro ⟨hnew, hgz, hleft⟩
        refine ⟨left_open_eq_zero.mp hleft, hgz, hnew.imp_left fun hnone => ?_⟩
        have := hx.refs (cluster_to_sector fs clst)
        have hnonneg := filesys.refs_nonneg hwf (cluster_to_sector fs clst)
        omega
      · rintro ⟨hl, hgz, hnew⟩
        refine ⟨?_, hgz, left_open_eq_zero.mpr hl⟩
        by_cases hsame : cluster_to_sector fs clst = z
        · exact .inr (hsame ▸ hgz)
        · refine hnew.imp_left fun hnone => ?_
          rw [hx.refs, hnone, left_open_eq_zero.mpr hl, Multiset.count_cons_of_ne hsame]
          rfl
    constructor
    · intro hbal
      right
      have hgood := hzero.mp (by
        by_contra hextra
        exact not_balanced_of_extra hextra hrefs hbal)
      exact ⟨l, z, clst, fs, hroute, hgood.1, hgood.2.1, hchain, hgood.2.2⟩
    · rintro (hnil | ⟨l', z', clst', fs', hroute', hl, hgz, hchain', hnew⟩)
      · exact absurd hnil hne
      · rw [hroute] at hroute'
        rw [hchain] at hchain'
        cases Option.some.inj (Outcome.ok.inj hroute')
        cases Outcome.ok.inj hchain'
        intro a
        rw [hrefs a, hzero.mpr ⟨hl, hgz, hnew⟩]
        simp

end Mkdir

/-! ## The five together -/

/-- **Path operations and reference counts.** `filesys_create` and `filesys_open`
are balanced exactly when the path has no components. `filesys_remove` is when the
whole path is there, `sys_mkdir` always is, `sys_chdir` is when it succeeds, all
three as far as the inodes on the way can be closed. -/
theorem path_operations_balanced_iff {s : filesys} (hwf : s.OpenWf) (hfat : s.fat.Wf)
    {cwd : Option ℕ} (hcwd : CwdOk s cwd) (path : c_string) :
    (∀ initial_size b s', filesys_create s cwd path initial_size = .ok (b, s') →
      (Balanced s s' ↔ path_components path = []))
    ∧ (∀ r s', filesys_open s cwd path = .ok (r, s') →
      ((∀ a, s'.refs a = s.refs a + handle_on s' (r.inode s') a) ↔ path_components path = []))
    ∧ (∀ b s', filesys_remove s cwd path = .ok (b, s') →
      (Balanced s s' ↔ RemoveCloses s cwd path))
    ∧ (∀ b s', sys_mkdir s cwd path = .ok (b, s') → (Balanced s s' ↔ MkdirCloses s cwd path))
    ∧ (∀ b cwd' s', sys_chdir s cwd path = .ok (b, cwd', s') →
      (Transferred s cwd b cwd' s' ↔ ChdirCloses s cwd path)) :=
  ⟨fun _ _ _ h => filesys_create_balanced_iff hwf h, fun _ _ h => filesys_open_balanced_iff hwf h,
    fun _ _ h => filesys_remove_balanced_iff hwf h,
    fun _ _ h => sys_mkdir_balanced_iff hwf hfat h,
    fun _ _ _ h => sys_chdir_transferred_iff hwf hcwd h⟩

/-- A disk with a file `a` in the root directory: its inode in cluster 3, no data. -/
def file_a : filesys where
  disk :=
    { capacity := 32
      sectors := fun k =>
        if k = 1 then
          inode_disk.encode { start := 1, length := 20, magic := INODE_MAGIC, isdir := true }
        else if k = 8 then dir_entry.fill zeros [97] 10
        else if k = 10 then
          inode_disk.encode { start := 0, length := 0, magic := INODE_MAGIC, isdir := false }
        else zeros
      written := [] }
  fat :=
    { bs := { magic := FAT_MAGIC, sectors_per_cluster := 1, total_sectors := 32
              fat_start := 1, fat_sectors := 1, root_dir_cluster := 1 }
      fat := fun k => if k = 1 ∨ k = 3 then EOChain else 0
      fat_length := 16, data_start := 8, last_clst := 3 }
  inode _ := none
  next_inode := 0
  open_inodes := []
  file _ := none
  next_file := 0

theorem file_a_wf : file_a.OpenWf where
  nodup := List.nodup_nil
  listed i := by
    constructor
    · intro hi
      cases hi
    · rintro ⟨ino, hi⟩
      cases hi
  fresh hi := by cases hi
  sector_inj hi := by cases hi
  pos hi := by cases hi

theorem file_a_fat : file_a.fat.Wf :=
  ⟨⟨by decide, by decide, by decide, by decide⟩, by decide, by decide⟩

/-- The theorem at the path `/a` of that disk: all calls return. -/
theorem file_a_balanced : file_a.OpenWf ∧ file_a.fat.Wf ∧ CwdOk file_a none
    ∧ (∃ b s', filesys_create file_a none [SLASH, 97] 0 = .ok (b, s')
      ∧ (Balanced file_a s' ↔ path_components [SLASH, 97] = []))
    ∧ (∃ r s', filesys_open file_a none [SLASH, 97] = .ok (r, s')
      ∧ ((∀ a, s'.refs a = file_a.refs a + handle_on s' (r.inode s') a)
        ↔ path_components [SLASH, 97] = []))
    ∧ (∃ b s', sys_mkdir file_a none [SLASH, 97] = .ok (b, s')
      ∧ (Balanced file_a s' ↔ MkdirCloses file_a none [SLASH, 97]))
    ∧ ∃ b cwd' s', sys_chdir file_a none [SLASH, 97] = .ok (b, cwd', s')
      ∧ (Transferred file_a none b cwd' s' ↔ ChdirCloses file_a none [SLASH, 97]) := by
  have hcwd : CwdOk file_a none := fun c hc => by cases hc
  have h := path_operations_balanced_iff file_a_wf file_a_fat hcwd [SLASH, 97]
  have hcreate : (filesys_create file_a none [SLASH, 97] 0).satisfies (fun _ => true) = true := by
    decide +kernel
  have hopen : (filesys_open file_a none [SLASH, 97]).satisfies (fun _ => true) = true := by
    decide +kernel
  have hmkdir : (sys_mkdir file_a none [SLASH, 97]).satisfies (fun _ => true) = true := by
    decide +kernel
  have hchdir : (sys_chdir file_a none [SLASH, 97]).satisfies (fun _ => true) = true := by
    decide +kernel
  obtain ⟨⟨b, s₁⟩, hcreate, -⟩ := Outcome.satisfies_iff.mp hcreate
  obtain ⟨⟨r, s₂⟩, hopen, -⟩ := Outcome.satisfies_iff.mp hopen
  obtain ⟨⟨c, s₃⟩, hmkdir, -⟩ := Outcome.satisfies_iff.mp hmkdir
  obtain ⟨⟨d, cwd', s₄⟩, hchdir, -⟩ := Outcome.satisfies_iff.mp hchdir
  exact ⟨file_a_wf, file_a_fat, hcwd, ⟨b, s₁, hcreate, h.1 0 b s₁ hcreate⟩,
    ⟨r, s₂, hopen, h.2.1 r s₂ hopen⟩, ⟨c, s₃, hmkdir, h.2.2.2.1 c s₃ hmkdir⟩,
    d, cwd', s₄, hchdir, h.2.2.2.2 d cwd' s₄ hchdir⟩

/-- Opening `/a` leaves a handle on the root directory behind. -/
theorem open_a_leaks : ∃ r s', filesys_open file_a none [SLASH, 97] = .ok (r, s')
    ∧ s'.refs ROOT_DIR_SECTOR ≠ file_a.refs ROOT_DIR_SECTOR
        + handle_on s' (r.inode s') ROOT_DIR_SECTOR := by
  have hrun : (filesys_open file_a none [SLASH, 97]).satisfies (fun (r, s') =>
      decide (s'.refs ROOT_DIR_SECTOR ≠ file_a.refs ROOT_DIR_SECTOR
        + handle_on s' (r.inode s') ROOT_DIR_SECTOR)) = true := by
    decide +kernel
  obtain ⟨⟨r, s'⟩, hret, hne⟩ := Outcome.satisfies_iff.mp hrun
  exact ⟨r, s', hret, of_decide_eq_true hne⟩

/-! ## Failed creation -/

/-- Table, directories and counts as before. -/
structure Unchanged (s s' : filesys) : Prop where
  fat : s'.fat.fat = s.fat.fat
  contents : ∀ a, (s.view a).data.isdir = true →
    inode_read_at s'.disk s'.fat (s'.view a) = inode_read_at s.disk s.fat (s.view a)
  refs : Balanced s s'

/-- **Failed creation** changes nothing only when there is nothing to create.
`filesys_create` leaves a directory open, and once `sys_mkdir` has come so far that
its result is defined, it has taken clusters that it does not give back. -/
theorem failed_creation_unchanged_iff {s : filesys} (hwf : s.OpenWf) (hfat : s.fat.Wf)
    (cwd : Option ℕ) (path : c_string) :
    (∀ initial_size s', filesys_create s cwd path initial_size = .ok (false, s') →
      (Unchanged s s' ↔ path_components path = []))
    ∧ (∀ s', sys_mkdir s cwd path = .ok (false, s') →
      (Unchanged s s' ↔ path_components path = [])) := by
  have hrefl : Unchanged s s := ⟨rfl, fun _ _ => rfl, fun _ => rfl⟩
  constructor
  · intro initial_size s' h
    constructor
    · intro hsame
      exact (filesys_create_balanced_iff hwf h).mp hsame.refs
    · intro hnil
      obtain ⟨-, rfl⟩ := filesys_create_nil h hnil
      exact hrefl
  · intro s' h
    constructor
    · intro hsame
      by_contra hne
      obtain ⟨l, z, j, jno, s₁, -, hx, hj, hz, hat⟩ := sys_mkdir_walk hwf hne h
      obtain ⟨clst, fs, -, hfree, htaken, -⟩ := mkdir_at_refs hx hfat hj hz hat
      rw [hsame.fat] at htaken
      exact htaken hfree
    · intro hnil
      obtain ⟨-, rfl⟩ := sys_mkdir_nil h hnil
      exact hrefl

/-- The theorem at a name that exists, for which `filesys_create` returns. -/
theorem file_a_unchanged : file_a.OpenWf ∧ file_a.fat.Wf
    ∧ ∃ s', filesys_create file_a none [97] 0 = .ok (false, s')
      ∧ (Unchanged file_a s' ↔ path_components [97] = []) := by
  have hrun : (filesys_create file_a none [97] 0).satisfies (fun r => !r.1) = true := by
    decide +kernel
  obtain ⟨⟨b, s'⟩, hret, hb⟩ := Outcome.satisfies_iff.mp hrun
  cases Bool.not_eq_true' b |>.mp hb
  exact ⟨file_a_wf, file_a_fat, s', hret,
    (failed_creation_unchanged_iff file_a_wf file_a_fat none [97]).1 0 s' hret⟩

/-- Creating a name that exists fails, and cluster 4 is gone from the free ones. -/
theorem create_a_again_loses_cluster : file_a.OpenWf ∧ file_a.fat.Wf
    ∧ ∃ s', filesys_create file_a none [97] 0 = .ok (false, s') ∧ ¬ Unchanged file_a s' := by
  have hrun : (filesys_create file_a none [97] 0).satisfies (fun r =>
      !r.1 && decide (r.2.fat.fat 4 ≠ file_a.fat.fat 4)) = true := by
    decide +kernel
  obtain ⟨⟨b, s'⟩, hret, hobs⟩ := Outcome.satisfies_iff.mp hrun
  rw [Bool.and_eq_true, Bool.not_eq_true', decide_eq_true_iff] at hobs
  obtain ⟨rfl, hne⟩ := hobs
  exact ⟨file_a_wf, file_a_fat, s', hret, fun hsame => hne (congrFun hsame.fat 4)⟩

end Pintos
