/-
Path resolution as a function of what the directories show.

`resolve` follows a row of names from one directory sector to another, and
`resolve_file` looks the last one up. They have no handles, no counts and no heap: the
disk, the table and the contents of the open inodes decide (`filesys.Shows`). The walk
of the path calls is this function, and so is `filesys_open` (`filesys_open_resolves`):
it ends the same way and has opened the inode of that sector.
-/
import Pintos.Filesys.PathWalk
import Pintos.Lib.Related

set_option autoImplicit false

namespace Pintos

/-! ## Resolution -/

/-- `inode_open` of this sector does not fail. -/
def filesys.openable (s : filesys) (a : ℕ) : Bool :=
  (s.open_at a).isSome || decide (select_sector s.disk a)

/-- The sector a name leads to, in the directory of sector `a`. -/
def name_sector (s : filesys) (a : ℕ) (name : c_string) : Outcome (Option ℕ) := do
  let entry ← entry_at s a name
  match entry with
  | none => .ok none
  | some (_, e) =>
      if s.openable (dir_entry.inode_sector e) then .ok (some (dir_entry.inode_sector e)) else .panic

/-- The directory a row of names leads to. -/
def resolve (s : filesys) : List c_string → ℕ → Outcome (Option ℕ)
  | [], a => .ok (some a)
  | name :: names, a => do
      let next ← name_sector s a name
      match next with
      | none => .ok none
      | some b => if (s.view b).data.isdir then resolve s names b else .ok none

/-- The last name of a row, in the directory that the others have led to. -/
def last_sector (s : filesys) (last : c_string) : Option ℕ → Outcome (Option ℕ)
  | none => .ok none
  | some z => name_sector s z last

/-- The inode a row of names leads to, the last of which need not be a directory. -/
def resolve_file (s : filesys) (names : List c_string) (last : c_string) (a : ℕ) :
    Outcome (Option ℕ) := do
  let dir ← resolve s names a
  last_sector s last dir

/-- **A row in two parts.** -/
theorem resolve_append (s : filesys) (names' : List c_string) (names : List c_string) : ∀ a,
    resolve s (names ++ names') a = resolve s names a >>= fun dir =>
      match dir with
      | none => .ok none
      | some z => resolve s names' z := by
  induction names with
  | nil =>
      intro a
      rfl
  | cons name names ih =>
      intro a
      rw [List.cons_append, resolve, resolve]
      cases name_sector s a name with
      | ok next =>
          cases next with
          | none => rfl
          | some b =>
              simp only [Outcome.ok_bind]
              split
              · exact ih b
              · rfl
      | panic => rfl
      | undefined => rfl
      | diverge => rfl

theorem resolve_file_append (s : filesys) (names names' : List c_string) (last : c_string) (a : ℕ) :
    resolve_file s (names ++ names') last a = resolve s names a >>= fun dir =>
      match dir with
      | none => .ok none
      | some z => resolve_file s names' last z := by
  unfold resolve_file
  rw [resolve_append]
  cases resolve s names a with
  | ok dir =>
      cases dir with
      | none => rfl
      | some z => rfl
  | panic => rfl
  | undefined => rfl
  | diverge => rfl

/-! ## What it depends on -/

/-- `t` shows the directories that `s` shows. -/
structure filesys.Shows (s t : filesys) : Prop where
  disk : t.disk = s.disk
  fat : t.fat = s.fat
  data : ∀ a, (t.view a).data = (s.view a).data
  openable : ∀ a, t.openable a = s.openable a

namespace filesys

variable {s s₀ t : filesys} {h : Multiset ℕ} {i a : ℕ} {ino : Pintos.inode}

theorem Shows.trans (hs : s₀.Shows s) (ht : s.Shows t) : s₀.Shows t where
  disk := ht.disk.trans hs.disk
  fat := ht.fat.trans hs.fat
  data a := (ht.data a).trans (hs.data a)
  openable a := (ht.openable a).trans (hs.openable a)

theorem Shows.name_sector (hs : s.Shows t) (a : ℕ) (name : c_string) :
    name_sector t a name = name_sector s a name := by
  unfold Pintos.name_sector entry_at
  rw [hs.data, dir_scan_data hs.disk hs.fat (hs.data a)]
  simp only [hs.openable]

theorem Shows.resolve (hs : s.Shows t) (names : List c_string) : ∀ a,
    resolve t names a = resolve s names a := by
  induction names with
  | nil =>
      intro a
      rfl
  | cons name names ih =>
      intro a
      rw [Pintos.resolve, Pintos.resolve, hs.name_sector]
      simp only [hs.data, ih]

theorem Shows.resolve_file (hs : s.Shows t) (names : List c_string) (last : c_string) (a : ℕ) :
    resolve_file t names last a = resolve_file s names last a := by
  have hlast : last_sector t last = last_sector s last := by
    funext dir
    cases dir with
    | none => rfl
    | some z => exact hs.name_sector z last
  unfold Pintos.resolve_file
  rw [hs.resolve, hlast]

theorem openable_iff (hwf : s.OpenWf) : s.openable a = true
    ↔ select_sector s.disk a ∨ ∃ i ino, s.inode i = some ino ∧ ino.sector = a := by
  unfold openable
  rw [Bool.or_eq_true, decide_eq_true_iff, Option.isSome_iff_exists, or_comm]
  apply or_congr_right
  constructor
  · rintro ⟨ino, ha⟩
    obtain ⟨i, hi, hsec⟩ := (open_at_eq_some hwf).mp ha
    exact ⟨i, ino, hi, hsec⟩
  · rintro ⟨i, ino, hi, hsec⟩
    exact ⟨ino, (open_at_eq_some hwf).mpr ⟨i, hi, hsec⟩⟩

theorem openable_of_open (hwf : s.OpenWf) (hi : s.inode i = some ino) :
    s.openable ino.sector = true := (openable_iff hwf).mpr (.inr ⟨i, ino, hi, rfl⟩)

/-- Handles on openable sectors make no sector openable that was not. -/
theorem Extra.openable (hx : Extra s₀ s h) (hh : ∀ b ∈ h, s₀.openable b = true) (a : ℕ) :
    s.openable a = s₀.openable a := by
  rw [Bool.eq_iff_iff]
  constructor
  · intro ha
    rcases (openable_iff hx.wf).mp ha with hsel | ⟨i, ino, hi, rfl⟩
    · rw [hx.disk] at hsel
      exact (openable_iff hx.base).mpr (.inl hsel)
    · have hpos := hx.wf.pos hi
      have hcount := hx.refs ino.sector
      rw [refs_of_open hx.wf hi] at hcount
      by_cases hmem : ino.sector ∈ h
      · exact hh _ hmem
      · rw [Multiset.count_eq_zero_of_notMem hmem] at hcount
        have hopen := open_of_refs hx.base (a := ino.sector) (by push_cast at hcount; omega)
        exact (openable_iff hx.base).mpr (.inr hopen)
  · intro ha
    rcases (openable_iff hx.base).mp ha with hsel | ⟨i, ino, hi, rfl⟩
    · rw [← hx.disk] at hsel
      exact (openable_iff hx.wf).mpr (.inl hsel)
    · obtain ⟨ino', hi', hsec⟩ := hx.kept hi
      exact (openable_iff hx.wf).mpr (.inr ⟨i, ino', hi', hsec⟩)

/-- Handles on openable sectors show what was shown before. -/
theorem Extra.shows (hx : Extra s₀ s h) (hh : ∀ b ∈ h, s₀.openable b = true) : s₀.Shows s where
  disk := hx.disk
  fat := hx.fat
  data a := by rw [hx.view]
  openable := hx.openable hh

end filesys

/-! ## The walk -/

section Walk

variable {s₀ s s' : filesys} {h : Multiset ℕ} {i a : ℕ} {ino : inode}

/-- A walk that has come to sector `a`: it has a handle on it, and all the handles it has
opened are on sectors that can be opened. -/
def Walking (s₀ s : filesys) (i a : ℕ) : Prop :=
  ∃ h ino, s.inode i = some ino ∧ ino.sector = a ∧ filesys.Extra s₀ s (a ::ₘ h)
    ∧ ∀ b ∈ a ::ₘ h, s₀.openable b = true

/-- The outcome of `inode_open`. -/
theorem inode_open_resolves (hx : filesys.Extra s₀ s h)
    (hh : ∀ b ∈ h, s₀.openable b = true) (a : ℕ) :
    if s₀.openable a then ∃ i s', inode_open s a = .ok (i, s') else inode_open s a = .panic := by
  have hsame := hx.openable hh a
  split
  · rename_i ha
    rw [← hsame] at ha
    exact inode_open_returns hx.wf ((filesys.openable_iff hx.wf).mp ha)
  · rename_i ha
    rw [← hsame] at ha
    have hno : ∀ i ino, s.inode i = some ino → ino.sector ≠ a := by
      rintro i ino hi rfl
      exact ha (filesys.openable_of_open hx.wf hi)
    have hsel : ¬ select_sector s.disk a := fun hsel =>
      ha ((filesys.openable_iff hx.wf).mpr (.inl hsel))
    unfold inode_open
    rcases open_inodes_find_spec a s.open_inodes (fun i hi => (hx.wf.listed i).mp hi) with
      ⟨i, ino, -, hi, hsec, -⟩ | ⟨-, hfind⟩
    · exact absurd hsec (hno i ino hi)
    · rw [hfind]
      simp only [Outcome.ok_bind]
      rw [inode_load, disk_read_panic hsel]
      rfl

/-- What `dir_lookup` in inode `i` gives, next to the sector found: its inode, opened, and the
directory still there. -/
def Looked (s₀ s : filesys) (i : ℕ) (ino : inode) (h : Multiset ℕ) (r : Option ℕ × filesys) :
    Option ℕ → Prop
  | none => r = (none, s)
  | some b => ∃ k n kno, r.1 = some k ∧ inode_open s b = .ok (k, r.2)
      ∧ r.2.inode i = some { ino with open_cnt := n } ∧ r.2.inode k = some kno ∧ kno.sector = b
      ∧ filesys.Extra s₀ r.2 (b ::ₘ h) ∧ ∀ c ∈ b ::ₘ h, s₀.openable c = true

/-- **`dir_lookup`** opens the inode of the sector that the name leads to. -/
theorem dir_lookup_resolves (hi : s.inode i = some ino) (hx : filesys.Extra s₀ s h)
    (hh : ∀ b ∈ h, s₀.openable b = true) (name : c_string) :
    Outcome.Rel (Looked s₀ s i ino h) (dir_lookup s i name) (name_sector s₀ ino.sector name) := by
  unfold dir_lookup name_sector
  rw [lookup_eq hx hi]
  apply Outcome.Rel.same
  rintro (- | ⟨ofs, e⟩) -
  · exact .ok rfl
  · have hopen := inode_open_resolves hx hh (dir_entry.inode_sector e)
    dsimp only [open_entry]
    by_cases ho : s₀.openable (dir_entry.inode_sector e) = true
    · rw [if_pos ho] at hopen ⊢
      obtain ⟨k, s', hopen⟩ := hopen
      obtain ⟨hx', kno, hk, hksec⟩ := hx.open hopen
      obtain ⟨n, hi'⟩ := filesys.inode_open_kept hx.wf hopen hi
      rw [hopen]
      refine .ok ⟨k, n, kno, rfl, hopen, hi', hk, hksec, hx', fun c hc => ?_⟩
      rcases Multiset.mem_cons.mp hc with rfl | hc
      · exact ho
      · exact hh c hc
    · rw [if_neg ho] at hopen ⊢
      rw [hopen]
      exact .panic

/-- Where a walk ends. -/
def Ends (s₀ : filesys) (r : Option ℕ × filesys) : Option ℕ → Prop
  | none => r.1 = none ∧ ∃ h, filesys.Extra s₀ r.2 h ∧ ∀ b ∈ h, s₀.openable b = true
  | some z => ∃ j, r.1 = some j ∧ Walking s₀ r.2 j z

/-- One step: the directory that has been found takes the place of the old one. -/
theorem Walking.step {k b : ℕ} {kno : inode} (hi : s.inode i = some ino) (hsec : ino.sector = a)
    (hk : s.inode k = some kno) (hksec : kno.sector = b) (hx : filesys.Extra s₀ s (b ::ₘ a ::ₘ h))
    (hh : ∀ c ∈ b ::ₘ a ::ₘ h, s₀.openable c = true) :
    ∃ s', inode_close s i = .ok s' ∧ Walking s₀ s' k b := by
  subst hsec
  have hx' : filesys.Extra s₀ s (ino.sector ::ₘ b ::ₘ h) := by rwa [Multiset.cons_swap]
  obtain ⟨s', hclose, -⟩ := hx'.close_top hi
  obtain ⟨n, hk'⟩ := filesys.inode_close_kept hx.wf hi hclose hk (by
    intro hsame
    rw [← hksec, hsame] at hx
    exact hx.two_le)
  have hafter := hx'.close hi rfl hclose
  rw [Multiset.add_cons] at hafter
  refine ⟨s', hclose, _, _, hk', hksec, hafter, fun c hc => ?_⟩
  -- a directory with a bad magic number keeps its handle
  rcases Multiset.mem_cons.mp hc with rfl | hc
  · exact hh _ (Multiset.mem_cons_self _ _)
  · rcases Multiset.mem_add.mp hc with hstuck | hc
    · have hca : c = ino.sector := by
        unfold filesys.stuck at hstuck
        split at hstuck
        · exact absurd hstuck (Multiset.notMem_zero c)
        · exact Multiset.mem_singleton.mp hstuck
      rw [hca]
      exact hh _ (Multiset.mem_cons_of_mem (Multiset.mem_cons_self _ _))
    · exact hh c (Multiset.mem_cons_of_mem (Multiset.mem_cons_of_mem hc))

/-- **The walk** ends where the names lead. -/
theorem dir_walk_resolves (names : List c_string) : ∀ {s i a}, Walking s₀ s i a →
    Outcome.Rel (Ends s₀) (dir_walk names s i) (resolve s₀ names a) := by
  induction names with
  | nil =>
      intro s i a hw
      exact .ok ⟨i, rfl, hw⟩
  | cons name names ih =>
      intro s i a hw
      obtain ⟨h, ino, hi, rfl, hx, hh⟩ := hw
      apply (dir_lookup_resolves hi hx hh name).bind
      rintro ⟨r, s₁⟩ (- | b) hlook
      · obtain ⟨rfl, rfl⟩ := Prod.mk.inj hlook
        exact .ok ⟨rfl, _, hx, hh⟩
      · obtain ⟨k, n, kno, hk, -, hi₁, hkno, hksec, hx₁, hh₁⟩ := hlook
        obtain rfl : r = some k := hk
        have hdata : kno.data = (s₀.view b).data := by rw [← hksec, ← hx₁.view_open hkno]
        dsimp only
        rw [filesys.get_inode_eq_ok.mpr hkno, Outcome.ok_bind, hdata]
        by_cases hdir : (s₀.view b).data.isdir = true
        · obtain ⟨s₂, hclose, hw₂⟩ := Walking.step hi₁ rfl hkno hksec hx₁ hh₁
          rw [if_pos hdir, if_pos hdir, hclose, Outcome.ok_bind]
          exact ih hw₂
        · rw [if_neg hdir, if_neg hdir]
          exact .ok ⟨rfl, _, hx₁, hh₁⟩

end Walk

/-! ## `filesys_open` -/

section Open

variable {s s₀ s' : filesys} {i a : ℕ} {cwd : Option ℕ}

/-- The inode behind what `filesys_open` returns, named by its sector. -/
def opened.target (s : filesys) : opened → Option (Option ℕ)
  | .file f => some ((s.file f).bind fun fl => (s.inode fl.inode).map inode.sector)
  | .root_dir dir => some ((s.inode dir).map inode.sector)
  | .null => none

/-- What a call of `filesys_open` finds. -/
def open_target (r : Outcome (opened × filesys)) : Outcome (Option (Option ℕ)) := do
  let (o, s) ← r
  return o.target s

/-- A walk that starts at sector `a`. -/
def start_resolved (s : filesys) (a : ℕ) : Outcome ℕ := if s.openable a then .ok a else .panic

theorem Started.walking (hs : Started s s' i a) (ha : s.openable a = true) : Walking s s' i a := by
  obtain ⟨hx, ino, hi, hsec⟩ := hs
  refine ⟨0, ino, hi, hsec, hx, fun b hb => ?_⟩
  rw [Multiset.mem_singleton.mp hb]
  exact ha

theorem dir_open_root_resolves (hwf : s.OpenWf) :
    Outcome.Rel (fun r a => Walking s r.2 r.1 a) (dir_open_root s)
      (start_resolved s ROOT_DIR_SECTOR) := by
  have hopen := inode_open_resolves (filesys.Extra.refl hwf) (by simp) ROOT_DIR_SECTOR
  unfold start_resolved dir_open_root
  by_cases ha : s.openable ROOT_DIR_SECTOR = true
  · rw [if_pos ha] at hopen ⊢
    obtain ⟨i, s', hopen⟩ := hopen
    rw [hopen]
    exact .ok ((dir_open_root_started hwf hopen).walking ha)
  · rw [if_neg ha] at hopen ⊢
    rw [hopen]
    exact .panic

/-- Where `filesys_open` starts. -/
theorem start_dir_checked_resolves (hwf : s.OpenWf) (cwd : Option ℕ) (is_root : Bool) :
    Outcome.Rel (fun r a => Walking s r.2 r.1 a) (start_dir_checked s cwd is_root)
      (start_resolved s (start_sector_checked s cwd is_root)) := by
  cases cwd with
  | none => exact dir_open_root_resolves hwf
  | some dir =>
      unfold start_dir_checked start_sector_checked
      rw [Option.bind_some]
      cases hd : s.inode dir with
      | none =>
          have hbad : is_good_inode s dir = false := by
            unfold is_good_inode
            rw [hd]
          simp only [hbad, Bool.not_false, Bool.or_true, if_true]
          exact dir_open_root_resolves hwf
      | some ino =>
          have hgood : decide (ino.data.magic ≠ INODE_MAGIC) = !is_good_inode s dir := by
            unfold is_good_inode
            rw [hd, decide_not]
          simp only [hgood]
          by_cases hroot : (is_root || !is_good_inode s dir) = true
          · rw [if_pos hroot, if_pos hroot]
            exact dir_open_root_resolves hwf
          · rw [if_neg hroot, if_neg hroot]
            have hopen := filesys.openable_of_open hwf hd
            have hre : dir_reopen s dir
                = .ok (dir, s.set_inode dir { ino with open_cnt := ino.open_cnt + 1 }) := by
              simp [dir_reopen, inode_reopen, filesys.get_inode_eq_ok.mpr hd]
            obtain ⟨ino', hd', hs⟩ := dir_reopen_started hwf hre
            rw [hd] at hd'
            obtain rfl := Option.some.inj hd'
            unfold start_resolved
            rw [if_pos hopen, hre]
            exact .ok (hs.walking hopen)

/-- What `filesys_open` returns, next to the sector that the path leads to: its inode, and nothing
else that shows. -/
structure Opens (s₀ : filesys) (r : opened × filesys) (z : Option ℕ) : Prop where
  target : r.1.target r.2 = z.map some
  wf : r.2.OpenWf
  shows : s₀.Shows r.2
  /-- The walk, before the `struct file` is made. -/
  walk : ∃ s₁ h, filesys.Extra s₀ s₁ h ∧ r.2.inode = s₁.inode ∧ r.2.next_inode = s₁.next_inode

/-- The last component. -/
theorem open_at_resolves {r : Option ℕ × filesys} {z : Option ℕ} (hr : Ends s₀ r z)
    (last : c_string) :
    Outcome.Rel (fun q t => Opens s₀ (opened.of_file q.1, q.2) t) (open_at r.2 r.1 last)
      (last_sector s₀ last z) := by
  obtain ⟨r, s⟩ := r
  cases z with
  | none =>
      obtain ⟨hr, h, hx, hh⟩ := hr
      obtain rfl : r = none := hr
      exact .ok ⟨rfl, hx.wf, hx.shows hh, s, h, hx, rfl, rfl⟩
  | some z =>
      obtain ⟨j, hj, h, ino, hi, rfl, hx, hh⟩ := hr
      obtain rfl : r = some j := hj
      refine (dir_lookup_resolves hi hx hh last).map fun q t hfound => ?_
      cases t with
      | none =>
          rw [show q = (none, s) from hfound]
          exact ⟨rfl, hx.wf, hx.shows hh, s, _, hx, rfl, rfl⟩
      | some b =>
          obtain ⟨k, n, kno, hk, -, -, hkno, hksec, hx₁, hh₁⟩ := hfound
          obtain ⟨q, s₁⟩ := q
          obtain rfl : q = some k := hk
          have hfile : (open_found s₁ (some k)).2.file s₁.next_file
              = some { inode := k, pos := 0, deny_write := false, dup_count := 1 } :=
            Function.update_self _ _ _
          have hinode : (open_found s₁ (some k)).2.inode k = some kno := hkno
          have hshows := hx₁.shows hh₁
          refine ⟨?_, hx₁.wf.congr rfl rfl rfl,
            ⟨hshows.disk, hshows.fat, hshows.data, hshows.openable⟩, s₁, _, hx₁, rfl, rfl⟩
          simp only [opened.of_file, opened.target]
          rw [show (open_found s₁ (some k)).1 = some s₁.next_file from rfl]
          simp only [hfile, Option.bind_some, hinode, Option.map_some, hksec]

/-- **`filesys_open`** opens the inode that the path leads to. -/
theorem filesys_open_resolves (hwf : s.OpenWf) (cwd : Option ℕ) {path : c_string}
    (hlen : path.length < 128)
    {last : c_string} (hlast : (path_components path).getLast? = some last) :
    Outcome.Rel (Opens s) (filesys_open s cwd path)
      (start_resolved s (start_sector_checked s cwd (is_root_path path)) >>= fun a =>
        resolve_file s (path_components path).dropLast last a) := by
  unfold filesys_open
  rw [if_neg (by omega), parse_path_short hlen, Outcome.ok_bind, hlast]
  apply (start_dir_checked_resolves hwf cwd (is_root_path path)).bind
  rintro ⟨i, s₁⟩ a hw
  apply (dir_walk_resolves (path_components path).dropLast hw).bind
  rintro r z hr
  exact (open_at_resolves hr last).map fun q t hq => hq

end Open

end Pintos
