/-
Reference counts of inodes across the path operations.

`refs s a` is the `open_cnt` of the inode of sector `a`, and `0` when that is not
open. The lemmas say what the primitives do to it; `Extra s₀ s h` says that `s` is
`s₀` with some more handles out, those on the inodes of the sectors `h`, and is
what a walk along a path keeps: it opens and closes, and writes nothing.

`filesys_create` and `filesys_open` never close the directory they end in, and a
walk that fails leaves its directory open in all five functions. `sys_mkdir` closes
what it opened, whatever the outcome.
-/
import Pintos.Filesys.Filesys
import Mathlib.Algebra.Order.Group.Multiset
import Mathlib.Tactic.Ring

set_option autoImplicit false

namespace Pintos

namespace filesys

variable {s s' : filesys} {i a : ℕ} {ino : Pintos.inode}

/-! ## Open inodes -/

/-- `open_inodes` and the heap agree, and there is one inode for a sector. -/
structure OpenWf (s : filesys) : Prop where
  nodup : s.open_inodes.Nodup
  listed : ∀ i, i ∈ s.open_inodes ↔ ∃ ino, s.inode i = some ino
  fresh : ∀ {i ino}, s.inode i = some ino → i < s.next_inode
  sector_inj : ∀ {i j ino ino'}, s.inode i = some ino → s.inode j = some ino' →
    ino'.sector = ino.sector → j = i
  pos : ∀ {i ino}, s.inode i = some ino → 1 ≤ ino.open_cnt

/-- Is this the inode of sector `a`? -/
def at_sector (s : filesys) (a i : ℕ) : Bool :=
  match s.inode i with
  | some ino => ino.sector = a
  | none => false

/-- The inode of sector `a`, if it is open. -/
def open_at (s : filesys) (a : ℕ) : Option Pintos.inode :=
  (s.open_inodes.find? (s.at_sector a)).bind s.inode

/-- The number of handles on the inode of sector `a`. -/
def refs (s : filesys) (a : ℕ) : ℤ :=
  match s.open_at a with
  | some ino => ino.open_cnt
  | none => 0

theorem open_at_eq_some (h : s.OpenWf) :
    s.open_at a = some ino ↔ ∃ i, s.inode i = some ino ∧ ino.sector = a := by
  unfold open_at
  rw [Option.bind_eq_some_iff]
  constructor
  · rintro ⟨i, hi, hino⟩
    refine ⟨i, hino, ?_⟩
    have := List.find?_some hi
    simpa [at_sector, hino] using this
  · rintro ⟨i, hino, rfl⟩
    have hmem : i ∈ s.open_inodes := (h.listed i).mpr ⟨ino, hino⟩
    have hat : s.at_sector ino.sector i = true := by simp [at_sector, hino]
    cases hfind : s.open_inodes.find? (s.at_sector ino.sector) with
    | none => exact absurd hat (List.find?_eq_none.mp hfind i hmem)
    | some j =>
        have hj := List.find?_some hfind
        obtain ⟨jno, hjno⟩ := (h.listed j).mp (List.mem_of_find?_eq_some hfind)
        have hsec : jno.sector = ino.sector := by simpa [at_sector, hjno] using hj
        obtain rfl := h.sector_inj hino hjno hsec
        exact ⟨j, rfl, hino⟩

theorem refs_of_open (h : s.OpenWf) (hi : s.inode i = some ino) :
    s.refs ino.sector = ino.open_cnt := by
  unfold refs
  rw [(open_at_eq_some h).mpr ⟨i, hi, rfl⟩]

theorem refs_of_closed (h : s.OpenWf) (hno : ∀ i ino, s.inode i = some ino → ino.sector ≠ a) :
    s.refs a = 0 := by
  unfold refs
  cases ha : s.open_at a with
  | none => rfl
  | some ino =>
      obtain ⟨i, hi, hsec⟩ := (open_at_eq_some h).mp ha
      exact absurd hsec (hno i ino hi)

theorem refs_nonneg (h : s.OpenWf) (a : ℕ) : 0 ≤ s.refs a := by
  by_cases hex : ∃ i ino, s.inode i = some ino ∧ ino.sector = a
  · obtain ⟨i, ino, hi, rfl⟩ := hex
    rw [refs_of_open h hi]
    have := h.pos hi
    omega
  · rw [refs_of_closed h fun i ino hi hsec => hex ⟨i, ino, hi, hsec⟩]

/-- A sector with a positive count is open. -/
theorem open_of_refs (h : s.OpenWf) (ha : 0 < s.refs a) :
    ∃ i ino, s.inode i = some ino ∧ ino.sector = a := by
  by_contra hno
  rw [refs_of_closed h fun i ino hi hsec => hno ⟨i, ino, hi, hsec⟩] at ha
  exact absurd ha (lt_irrefl _)

/-! ## Storing into an open inode -/

section SetInode

variable {ino' : Pintos.inode}

theorem set_inode_cases {j : ℕ} {jno : Pintos.inode}
    (hj : (s.set_inode i ino').inode j = some jno) :
    (j = i ∧ jno = ino') ∨ (j ≠ i ∧ s.inode j = some jno) := by
  rw [set_inode_inode] at hj
  by_cases hji : j = i
  · subst hji
    rw [Function.update_self] at hj
    exact .inl ⟨rfl, (Option.some.inj hj).symm⟩
  · rw [Function.update_of_ne hji] at hj
    exact .inr ⟨hji, hj⟩

/-- Count, flag and data may change, the sector does not. -/
theorem OpenWf.set_inode (h : s.OpenWf) (hi : s.inode i = some ino)
    (hsec : ino'.sector = ino.sector) (hpos : 1 ≤ ino'.open_cnt) : (s.set_inode i ino').OpenWf := by
  have hold : ∀ {j jno}, (s.set_inode i ino').inode j = some jno →
      ∃ jno', s.inode j = some jno' ∧ jno'.sector = jno.sector := by
    intro j jno hj
    rcases set_inode_cases hj with ⟨rfl, rfl⟩ | ⟨-, hj⟩
    · exact ⟨ino, hi, hsec.symm⟩
    · exact ⟨jno, hj, rfl⟩
  constructor
  case nodup => exact h.nodup
  case listed =>
    intro j
    have hl := h.listed j
    show j ∈ s.open_inodes ↔ ∃ jno, Function.update s.inode i (some ino') j = some jno
    rw [hl]
    by_cases hji : j = i
    · subst hji
      simp [hi]
    · rw [Function.update_of_ne hji]
  case fresh =>
    intro j jno hj
    obtain ⟨jno', hj', -⟩ := hold hj
    exact h.fresh hj'
  case sector_inj =>
    intro j k jno kno hj hk hjk
    obtain ⟨jno', hj', hjs⟩ := hold hj
    obtain ⟨kno', hk', hks⟩ := hold hk
    apply h.sector_inj hj' hk'
    rw [hks, hjk, hjs]
  case pos =>
    intro j jno hj
    rcases set_inode_cases hj with ⟨rfl, rfl⟩ | ⟨-, hj⟩
    · exact hpos
    · exact h.pos hj

theorem refs_set_inode (ino' : Pintos.inode) (h : s.OpenWf) (hi : s.inode i = some ino)
    (hsec : ino'.sector = ino.sector) (hpos : 1 ≤ ino'.open_cnt) (a : ℕ) :
    (s.set_inode i ino').refs a
      = s.refs a + if a = ino.sector then ino'.open_cnt - ino.open_cnt else 0 := by
  have h' := h.set_inode hi hsec hpos
  have hself : (s.set_inode i ino').inode i = some ino' := Function.update_self _ _ _
  by_cases ha : a = ino.sector
  · subst ha
    rw [if_pos rfl, ← hsec, refs_of_open h' hself, hsec, refs_of_open h hi]
    omega
  · rw [if_neg ha, add_zero]
    by_cases hex : ∃ j jno, s.inode j = some jno ∧ jno.sector = a
    · obtain ⟨j, jno, hj, rfl⟩ := hex
      have hji : j ≠ i := by
        rintro rfl
        rw [hi] at hj
        obtain rfl := Option.some.inj hj
        exact ha rfl
      have hj' : (s.set_inode i ino').inode j = some jno := by
        rw [set_inode_inode, Function.update_of_ne hji]
        exact hj
      rw [refs_of_open h' hj', refs_of_open h hj]
    · rw [refs_of_closed h fun j jno hj hs => hex ⟨j, jno, hj, hs⟩]
      apply refs_of_closed h'
      intro j jno hj hs
      rcases set_inode_cases hj with ⟨rfl, rfl⟩ | ⟨-, hj⟩
      · exact ha (hs.symm.trans hsec)
      · exact hex ⟨j, jno, hj, hs⟩

end SetInode

/-! ## A new inode, and one that goes -/

theorem new_inode_cases {j : ℕ} {jno : Pintos.inode} (hj : (s.new_inode ino).inode j = some jno) :
    (j = s.next_inode ∧ jno = ino) ∨ (j ≠ s.next_inode ∧ s.inode j = some jno) := by
  rw [new_inode_inode] at hj
  by_cases hjn : j = s.next_inode
  · subst hjn
    rw [Function.update_self] at hj
    exact .inl ⟨rfl, (Option.some.inj hj).symm⟩
  · rw [Function.update_of_ne hjn] at hj
    exact .inr ⟨hjn, hj⟩

theorem OpenWf.next_free (h : s.OpenWf) : s.inode s.next_inode = none := by
  cases hn : s.inode s.next_inode with
  | none => rfl
  | some ino => exact absurd (h.fresh hn) (lt_irrefl _)

theorem new_inode_old (h : s.OpenWf) {j : ℕ} {jno : Pintos.inode} (hj : s.inode j = some jno) :
    (s.new_inode ino).inode j = some jno := by
  have hne : j ≠ s.next_inode := ne_of_lt (h.fresh hj)
  rw [new_inode_inode, Function.update_of_ne hne]
  exact hj

theorem OpenWf.new_inode (h : s.OpenWf) (hpos : 1 ≤ ino.open_cnt)
    (hno : ∀ i jno, s.inode i = some jno → jno.sector ≠ ino.sector) : (s.new_inode ino).OpenWf := by
  have hself : (s.new_inode ino).inode s.next_inode = some ino := Function.update_self _ _ _
  constructor
  case nodup =>
    refine List.nodup_cons.mpr ⟨fun hmem => ?_, h.nodup⟩
    obtain ⟨jno, hj⟩ := (h.listed _).mp hmem
    rw [h.next_free] at hj
    cases hj
  case listed =>
    intro j
    show j ∈ s.next_inode :: s.open_inodes ↔ _
    rw [List.mem_cons, h.listed j]
    constructor
    · rintro (rfl | ⟨jno, hj⟩)
      · exact ⟨ino, hself⟩
      · exact ⟨jno, new_inode_old h hj⟩
    · rintro ⟨jno, hj⟩
      rcases new_inode_cases hj with ⟨rfl, -⟩ | ⟨-, hj⟩
      · exact .inl rfl
      · exact .inr ⟨jno, hj⟩
  case fresh =>
    intro j jno hj
    show j < s.next_inode + 1
    rcases new_inode_cases hj with ⟨rfl, -⟩ | ⟨-, hj⟩
    · exact Nat.lt_succ_self _
    · exact (h.fresh hj).trans (Nat.lt_succ_self _)
  case sector_inj =>
    intro j k jno kno hj hk hjk
    rcases new_inode_cases hj with ⟨rfl, rfl⟩ | ⟨-, hj⟩
    · rcases new_inode_cases hk with ⟨rfl, -⟩ | ⟨-, hk⟩
      · rfl
      · exact absurd hjk (hno k kno hk)
    · rcases new_inode_cases hk with ⟨-, heq⟩ | ⟨-, hk⟩
      · rw [heq] at hjk
        exact absurd hjk.symm (hno j jno hj)
      · exact h.sector_inj hj hk hjk
  case pos =>
    intro j jno hj
    rcases new_inode_cases hj with ⟨-, rfl⟩ | ⟨-, hj⟩
    · exact hpos
    · exact h.pos hj

theorem refs_new_inode (h : s.OpenWf) (hpos : 1 ≤ ino.open_cnt)
    (hno : ∀ i jno, s.inode i = some jno → jno.sector ≠ ino.sector) (a : ℕ) :
    (s.new_inode ino).refs a = s.refs a + if a = ino.sector then ino.open_cnt else 0 := by
  have h' := h.new_inode hpos hno
  have hself : (s.new_inode ino).inode s.next_inode = some ino := Function.update_self _ _ _
  by_cases ha : a = ino.sector
  · subst ha
    rw [refs_of_open h' hself, refs_of_closed h hno, if_pos rfl, zero_add]
  · rw [if_neg ha, add_zero]
    by_cases hex : ∃ j jno, s.inode j = some jno ∧ jno.sector = a
    · obtain ⟨j, jno, hj, rfl⟩ := hex
      rw [refs_of_open h' (new_inode_old h hj), refs_of_open h hj]
    · rw [refs_of_closed h fun j jno hj hs => hex ⟨j, jno, hj, hs⟩]
      apply refs_of_closed h'
      intro j jno hj hs
      rcases new_inode_cases hj with ⟨-, rfl⟩ | ⟨-, hj⟩
      · exact ha hs.symm
      · exact hex ⟨j, jno, hj, hs⟩

theorem free_inode_cases {j : ℕ} {jno : Pintos.inode} (hj : (s.free_inode i).inode j = some jno) :
    j ≠ i ∧ s.inode j = some jno := by
  rw [free_inode_inode] at hj
  by_cases hji : j = i
  · subst hji
    rw [Function.update_self] at hj
    cases hj
  · rw [Function.update_of_ne hji] at hj
    exact ⟨hji, hj⟩

theorem free_inode_other {j : ℕ} (hji : j ≠ i) : (s.free_inode i).inode j = s.inode j := by
  rw [free_inode_inode, Function.update_of_ne hji]

theorem OpenWf.free_inode (h : s.OpenWf) (i : ℕ) : (s.free_inode i).OpenWf := by
  constructor
  case nodup => exact h.nodup.erase i
  case listed =>
    intro j
    show j ∈ s.open_inodes.erase i ↔ _
    rw [h.nodup.mem_erase_iff, h.listed j]
    constructor
    · rintro ⟨hji, jno, hj⟩
      exact ⟨jno, (free_inode_other hji).trans hj⟩
    · rintro ⟨jno, hj⟩
      obtain ⟨hji, hj⟩ := free_inode_cases hj
      exact ⟨hji, jno, hj⟩
  case fresh =>
    intro j jno hj
    exact h.fresh (free_inode_cases hj).2
  case sector_inj =>
    intro j k jno kno hj hk hjk
    exact h.sector_inj (free_inode_cases hj).2 (free_inode_cases hk).2 hjk
  case pos =>
    intro j jno hj
    exact h.pos (free_inode_cases hj).2

theorem refs_free_inode (h : s.OpenWf) (hi : s.inode i = some ino) (a : ℕ) :
    (s.free_inode i).refs a = s.refs a - if a = ino.sector then ino.open_cnt else 0 := by
  have h' := h.free_inode i
  by_cases ha : a = ino.sector
  · subst ha
    rw [refs_of_open h hi, if_pos rfl, sub_self]
    apply refs_of_closed h'
    intro j jno hj hs
    obtain ⟨hji, hj⟩ := free_inode_cases hj
    exact hji (h.sector_inj hi hj hs)
  · rw [if_neg ha, sub_zero]
    by_cases hex : ∃ j jno, s.inode j = some jno ∧ jno.sector = a
    · obtain ⟨j, jno, hj, rfl⟩ := hex
      have hji : j ≠ i := by
        rintro rfl
        rw [hi] at hj
        obtain rfl := Option.some.inj hj
        exact ha rfl
      rw [refs_of_open h' ((free_inode_other hji).trans hj), refs_of_open h hj]
    · rw [refs_of_closed h fun j jno hj hs => hex ⟨j, jno, hj, hs⟩]
      apply refs_of_closed h'
      intro j jno hj hs
      exact hex ⟨j, jno, (free_inode_cases hj).2, hs⟩

/-- The counts are in the heap alone. -/
theorem OpenWf.congr (h : s.OpenWf) (hn : s'.next_inode = s.next_inode) (hi : s'.inode = s.inode)
    (ho : s'.open_inodes = s.open_inodes) : s'.OpenWf := by
  constructor
  case nodup => exact ho ▸ h.nodup
  case listed => rw [ho, hi]; exact h.listed
  case fresh => rw [hi, hn]; exact h.fresh
  case sector_inj => rw [hi]; exact h.sector_inj
  case pos => rw [hi]; exact h.pos

theorem refs_congr (hi : s'.inode = s.inode) (ho : s'.open_inodes = s.open_inodes) (a : ℕ) :
    s'.refs a = s.refs a := by
  have hat : s'.at_sector a = s.at_sector a := by
    funext i
    unfold at_sector
    rw [hi]
  unfold refs open_at
  rw [ho, hat, hi]

end filesys

/-! ## The four calls -/

section Calls

variable {s s' : filesys} {i a : ℕ} {ino : inode}

/-- The inode `inode_open` makes for a sector that is not open. -/
def fresh_inode (d : disk) (a : ℕ) : inode where
  sector := a
  open_cnt := 1
  removed := false
  deny_write_cnt := 0
  data := stored d a

theorem inode_reopen_eq_ok (h : inode_reopen s i = .ok s') :
    ∃ ino, s.inode i = some ino ∧ s' = s.set_inode i { ino with open_cnt := ino.open_cnt + 1 } := by
  obtain ⟨ino, hino, h⟩ := Outcome.bind_eq_ok.mp h
  exact ⟨ino, filesys.get_inode_eq_ok.mp hino, (Outcome.ok.inj h).symm⟩

/-- **`inode_open`** counts one more handle on an open inode, or loads the inode. -/
theorem inode_open_cases (hwf : s.OpenWf) (h : inode_open s a = .ok (i, s')) :
    (∃ ino, s.inode i = some ino ∧ ino.sector = a
      ∧ s' = s.set_inode i { ino with open_cnt := ino.open_cnt + 1 })
    ∨ ((∀ j jno, s.inode j = some jno → jno.sector ≠ a) ∧ i = s.next_inode
      ∧ s' = s.new_inode (fresh_inode s.disk a)) := by
  obtain ⟨found, hfound, h⟩ := Outcome.bind_eq_ok.mp h
  rcases open_inodes_find_spec a s.open_inodes (fun j hj => (hwf.listed j).mp hj) with
    ⟨j, ino, -, hj, hsec, hfind⟩ | ⟨hno, hfind⟩
  · rw [hfind] at hfound
    obtain rfl := Outcome.ok.inj hfound
    obtain ⟨s₁, hre, h⟩ := Outcome.bind_eq_ok.mp h
    obtain ⟨rfl, rfl⟩ := Outcome.ok_pair h
    obtain ⟨ino', hi, rfl⟩ := inode_reopen_eq_ok hre
    rw [hj] at hi
    obtain rfl := Option.some.inj hi
    exact .inl ⟨ino, hj, hsec, rfl⟩
  · rw [hfind] at hfound
    obtain rfl := Outcome.ok.inj hfound
    obtain ⟨b, hb, h⟩ := Outcome.bind_eq_ok.mp h
    obtain ⟨rfl, rfl⟩ := Outcome.ok_pair h
    refine .inr ⟨fun j jno hj => hno j ((hwf.listed j).mpr ⟨jno, hj⟩) jno hj, rfl, ?_⟩
    unfold fresh_inode stored
    rw [(disk_read_eq_ok.mp hb).2]

/-- **`inode_close`** does nothing to an inode with a bad magic number, frees the
inode of its last holder, and otherwise counts one holder less. -/
theorem inode_close_cases (h : inode_close s i = .ok s') :
    ∃ ino, s.inode i = some ino
      ∧ ((ino.data.magic ≠ INODE_MAGIC ∧ s' = s)
        ∨ (ino.data.magic = INODE_MAGIC ∧ ino.open_cnt = 1
          ∧ ∃ fs, inode_release s.fat ino = .ok fs ∧ s' = (s.set_fat fs).free_inode i)
        ∨ (ino.data.magic = INODE_MAGIC ∧ ino.open_cnt ≠ 1
          ∧ s' = s.set_inode i { ino with open_cnt := ino.open_cnt - 1 })) := by
  obtain ⟨ino, hino, h⟩ := Outcome.bind_eq_ok.mp h
  refine ⟨ino, filesys.get_inode_eq_ok.mp hino, ?_⟩
  by_cases hmagic : ino.data.magic ≠ INODE_MAGIC
  · rw [if_pos hmagic] at h
    exact .inl ⟨hmagic, (Outcome.ok.inj h).symm⟩
  · rw [if_neg hmagic] at h
    by_cases hcnt : ino.open_cnt - 1 = 0
    · rw [if_pos hcnt] at h
      obtain ⟨fs, hfs, h⟩ := Outcome.bind_eq_ok.mp h
      exact .inr (.inl ⟨not_not.mp hmagic, by omega, fs, hfs, (Outcome.ok.inj h).symm⟩)
    · rw [if_neg hcnt] at h
      exact .inr (.inr ⟨not_not.mp hmagic, by omega, (Outcome.ok.inj h).symm⟩)

theorem inode_remove_eq_ok (h : inode_remove s i = .ok s') :
    ∃ ino, s.inode i = some ino ∧ s' = s.set_inode i { ino with removed := true } := by
  obtain ⟨ino, hino, h⟩ := Outcome.bind_eq_ok.mp h
  exact ⟨ino, filesys.get_inode_eq_ok.mp hino, (Outcome.ok.inj h).symm⟩

end Calls

/-! ## What an inode is, open or not -/

namespace filesys

variable {s s' s₀ : filesys} {i a : ℕ} {ino : Pintos.inode}

/-- The inode of a sector as a handle shows it: what is in memory if it is open,
else what `inode_open` would load. The count is left out. -/
def view (s : filesys) (a : ℕ) : Pintos.inode :=
  match s.open_at a with
  | some ino => { ino with open_cnt := 1 }
  | none => fresh_inode s.disk a

/-- The inode of a sector has a valid magic number, so `inode_close` looks at it. -/
def good (s : filesys) (a : ℕ) : Bool := (s.view a).data.magic = INODE_MAGIC

theorem view_of_open (h : s.OpenWf) (hi : s.inode i = some ino) :
    s.view ino.sector = { ino with open_cnt := 1 } := by
  unfold view
  rw [(open_at_eq_some h).mpr ⟨i, hi, rfl⟩]

theorem view_of_closed (h : s.OpenWf) (hno : ∀ i ino, s.inode i = some ino → ino.sector ≠ a) :
    s.view a = fresh_inode s.disk a := by
  unfold view
  cases ha : s.open_at a with
  | none => rfl
  | some ino =>
      obtain ⟨i, hi, hsec⟩ := (open_at_eq_some h).mp ha
      exact absurd hsec (hno i ino hi)

theorem view_of_refs (h : s.OpenWf) (ha : s.refs a = 0) : s.view a = fresh_inode s.disk a := by
  apply view_of_closed h
  rintro i ino hi rfl
  rw [refs_of_open h hi] at ha
  have := h.pos hi
  omega

/-- A count changes, and nothing that shows. -/
theorem view_set_count (h : s.OpenWf) (hi : s.inode i = some ino) {n : ℤ} (hn : 1 ≤ n) (a : ℕ) :
    (s.set_inode i { ino with open_cnt := n }).view a = s.view a := by
  have h' : (s.set_inode i { ino with open_cnt := n }).OpenWf := h.set_inode hi rfl hn
  have hself : (s.set_inode i { ino with open_cnt := n }).inode i
      = some { ino with open_cnt := n } := Function.update_self _ _ _
  by_cases ha : a = ino.sector
  · subst ha
    have hview := view_of_open h' hself
    rw [view_of_open h hi]
    exact hview
  · by_cases hex : ∃ j jno, s.inode j = some jno ∧ jno.sector = a
    · obtain ⟨j, jno, hj, rfl⟩ := hex
      have hji : j ≠ i := by
        rintro rfl
        rw [hi] at hj
        exact ha (congrArg inode.sector (Option.some.inj hj).symm)
      have hj' : (s.set_inode i { ino with open_cnt := n }).inode j = some jno := by
        rw [set_inode_inode, Function.update_of_ne hji]
        exact hj
      rw [view_of_open h hj, view_of_open h' hj']
    · rw [view_of_closed h fun j jno hj hs => hex ⟨j, jno, hj, hs⟩]
      apply view_of_closed h'
      intro j jno hj hs
      rcases set_inode_cases hj with ⟨-, rfl⟩ | ⟨-, hj⟩
      · exact ha hs.symm
      · exact hex ⟨j, jno, hj, hs⟩

/-! ## Handles on top of a state -/

/-- `s` is `s₀` with handles on the inodes of the sectors `h` opened on top. The
heap of `s` may hold inodes that `s₀` has closed, but no inode shows anything that
it does not show in `s₀`. -/
structure Extra (s₀ s : filesys) (h : Multiset ℕ) : Prop where
  base : s₀.OpenWf
  wf : s.OpenWf
  disk : s.disk = s₀.disk
  fat : s.fat = s₀.fat
  file : s.file = s₀.file
  next_file : s.next_file = s₀.next_file
  view : ∀ a, s.view a = s₀.view a
  refs : ∀ a, s.refs a = s₀.refs a + h.count a
  kept : ∀ {i ino}, s₀.inode i = some ino → ∃ ino', s.inode i = some ino' ∧ ino'.sector = ino.sector
  next : s₀.next_inode ≤ s.next_inode
  freed : ∀ {i}, i < s₀.next_inode → s₀.inode i = none → s.inode i = none

theorem Extra.refl (h : s.OpenWf) : Extra s s 0 where
  base := h
  wf := h
  disk := rfl
  fat := rfl
  file := rfl
  next_file := rfl
  view _ := rfl
  refs _ := by simp
  kept hi := ⟨_, hi, rfl⟩
  next := le_rfl
  freed _ hi := hi

section Extra

variable {h : Multiset ℕ}

/-- What an open inode shows. -/
theorem Extra.view_open (hx : Extra s₀ s h) (hi : s.inode i = some ino) :
    { ino with open_cnt := 1 } = s₀.view ino.sector := by
  rw [← hx.view, view_of_open hx.wf hi]

/-- Another count of handles on an open inode. -/
theorem Extra.set_count (hx : Extra s₀ s h) (hi : s.inode i = some ino) {c : ℤ} (hpos : 1 ≤ c)
    {h' : Multiset ℕ}
    (hrefs : ∀ a, (s.set_inode i { ino with open_cnt := c }).refs a = s₀.refs a + h'.count a) :
    Extra s₀ (s.set_inode i { ino with open_cnt := c }) h' := by
  constructor
  case base => exact hx.base
  case wf => exact hx.wf.set_inode hi rfl hpos
  case disk => exact hx.disk
  case fat => exact hx.fat
  case file => exact hx.file
  case next_file => exact hx.next_file
  case view =>
    intro a
    rw [view_set_count hx.wf hi hpos, hx.view]
  case refs => exact hrefs
  case kept =>
    intro j jno hj
    obtain ⟨jno', hj', hsec⟩ := hx.kept hj
    rw [set_inode_inode]
    by_cases hji : j = i
    · -- the inode itself keeps its sector
      subst hji
      rw [hi] at hj'
      obtain rfl := Option.some.inj hj'
      exact ⟨_, Function.update_self _ _ _, hsec⟩
    · exact ⟨jno', (Function.update_of_ne hji _ _).trans hj', hsec⟩
  case next => exact hx.next
  case freed =>
    intro j hlt hj
    have hj' := hx.freed hlt hj
    have hji : j ≠ i := by
      rintro rfl
      rw [hi] at hj'
      cases hj'
    exact (Function.update_of_ne hji _ _).trans hj'

/-- A handle more on an open inode. -/
theorem Extra.count_up (hx : Extra s₀ s h) (hi : s.inode i = some ino) :
    Extra s₀ (s.set_inode i { ino with open_cnt := ino.open_cnt + 1 }) (ino.sector ::ₘ h) := by
  have hpos : 1 ≤ ino.open_cnt + 1 := by
    have := hx.wf.pos hi
    omega
  refine hx.set_count hi hpos fun a => ?_
  rw [refs_set_inode { ino with open_cnt := ino.open_cnt + 1 } hx.wf hi rfl hpos, hx.refs,
    Multiset.count_cons]
  by_cases ha : a = ino.sector
  · simp only [if_pos ha]
    push_cast
    ring
  · simp only [if_neg ha]
    push_cast
    ring

/-- A handle on an inode that was not open. -/
theorem Extra.load (hx : Extra s₀ s h) (hno : ∀ j jno, s.inode j = some jno → jno.sector ≠ a) :
    Extra s₀ (s.new_inode (fresh_inode s.disk a)) (a ::ₘ h) := by
  have hwf : (s.new_inode (fresh_inode s.disk a)).OpenWf := hx.wf.new_inode le_rfl hno
  have hself : (s.new_inode (fresh_inode s.disk a)).inode s.next_inode
      = some (fresh_inode s.disk a) := Function.update_self _ _ _
  constructor
  case base => exact hx.base
  case wf => exact hwf
  case disk => exact hx.disk
  case fat => exact hx.fat
  case file => exact hx.file
  case next_file => exact hx.next_file
  case view =>
    intro b
    rw [← hx.view b]
    by_cases hb : b = a
    · subst hb
      have hview := view_of_open hwf hself
      rw [view_of_closed hx.wf hno]
      exact hview
    · by_cases hex : ∃ j jno, s.inode j = some jno ∧ jno.sector = b
      · obtain ⟨j, jno, hj, rfl⟩ := hex
        rw [view_of_open hwf (new_inode_old hx.wf hj), view_of_open hx.wf hj]
      · rw [view_of_closed hx.wf fun j jno hj hs => hex ⟨j, jno, hj, hs⟩]
        apply view_of_closed hwf
        intro j jno hj hs
        rcases new_inode_cases hj with ⟨-, rfl⟩ | ⟨-, hj⟩
        · exact hb hs.symm
        · exact hex ⟨j, jno, hj, hs⟩
  case refs =>
    intro b
    have hnew : (s.new_inode (fresh_inode s.disk a)).refs b
        = s.refs b + if b = a then 1 else 0 := refs_new_inode hx.wf le_rfl hno b
    rw [hnew, hx.refs, Multiset.count_cons]
    push_cast
    ring
  case kept =>
    intro j jno hj
    obtain ⟨jno', hj', hsec⟩ := hx.kept hj
    exact ⟨jno', new_inode_old hx.wf hj', hsec⟩
  case next => exact hx.next.trans (Nat.le_succ _)
  case freed =>
    intro j hlt hj
    have hjn : j ≠ s.next_inode := ne_of_lt (lt_of_lt_of_le hlt hx.next)
    exact (Function.update_of_ne hjn _ _).trans (hx.freed hlt hj)

theorem Extra.open (hx : Extra s₀ s h) (hopen : inode_open s a = .ok (i, s')) :
    Extra s₀ s' (a ::ₘ h) ∧ ∃ ino, s'.inode i = some ino ∧ ino.sector = a := by
  rcases inode_open_cases hx.wf hopen with ⟨ino, hi, rfl, rfl⟩ | ⟨hno, rfl, rfl⟩
  · exact ⟨hx.count_up hi, _, Function.update_self _ _ _, rfl⟩
  · exact ⟨hx.load hno, _, Function.update_self _ _ _, rfl⟩

theorem Extra.reopen (hx : Extra s₀ s h) (hre : inode_reopen s i = .ok s') :
    ∃ ino, s.inode i = some ino ∧ Extra s₀ s' (ino.sector ::ₘ h)
      ∧ ∃ ino', s'.inode i = some ino' ∧ ino'.sector = ino.sector := by
  obtain ⟨ino, hi, rfl⟩ := inode_reopen_eq_ok hre
  exact ⟨ino, hi, hx.count_up hi, _, Function.update_self _ _ _, rfl⟩

/-- Opening moves nothing. -/
theorem inode_open_kept (hwf : s.OpenWf) (hopen : inode_open s a = .ok (i, s')) {j : ℕ}
    {jno : Pintos.inode} (hj : s.inode j = some jno) :
    ∃ n, s'.inode j = some { jno with open_cnt := n } := by
  rcases inode_open_cases hwf hopen with ⟨ino, hi, -, rfl⟩ | ⟨-, -, rfl⟩
  · by_cases hji : j = i
    · subst hji
      rw [hi] at hj
      obtain rfl := Option.some.inj hj
      exact ⟨_, Function.update_self _ _ _⟩
    · exact ⟨jno.open_cnt, (Function.update_of_ne hji _ _).trans hj⟩
  · exact ⟨jno.open_cnt, new_inode_old hwf hj⟩

/-- The handles that stay when one on the inode of `a` is closed: an inode with a
bad magic number keeps its count. -/
def stuck (s : filesys) (a : ℕ) : Multiset ℕ := if s.good a then 0 else {a}

theorem stuck_eq_zero : s.stuck a = 0 ↔ s.good a = true := by
  unfold stuck
  cases s.good a with
  | true => simp
  | false => simp

/-- A handle less on an inode that stays open. -/
theorem Extra.count_down (hx : Extra s₀ s (ino.sector ::ₘ h)) (hi : s.inode i = some ino)
    (hne : ino.open_cnt ≠ 1) :
    Extra s₀ (s.set_inode i { ino with open_cnt := ino.open_cnt - 1 }) h := by
  have hpos : 1 ≤ ino.open_cnt - 1 := by
    have := hx.wf.pos hi
    omega
  refine hx.set_count hi hpos fun a => ?_
  rw [refs_set_inode { ino with open_cnt := ino.open_cnt - 1 } hx.wf hi rfl hpos, hx.refs,
    Multiset.count_cons]
  by_cases ha : a = ino.sector
  · simp only [if_pos ha]
    push_cast
    ring
  · simp only [if_neg ha]
    push_cast
    ring

/-- The last handle. It was opened on top too, so the inode shows what is on the
disk, it is not removed, and nothing is released. -/
theorem Extra.free (hx : Extra s₀ s (ino.sector ::ₘ h)) (hi : s.inode i = some ino)
    (hone : ino.open_cnt = 1) {fs : fat_fs} (hfs : inode_release s.fat ino = .ok fs) :
    Extra s₀ ((s.set_fat fs).free_inode i) h := by
  have hcount := hx.refs ino.sector
  rw [refs_of_open hx.wf hi, hone, Multiset.count_cons_self] at hcount
  have hzero : s₀.refs ino.sector = 0 := by
    have := refs_nonneg hx.base ino.sector
    omega
  have hfresh := hx.view_open hi
  rw [view_of_refs hx.base hzero] at hfresh
  have hrem : ino.removed = false := congrArg inode.removed hfresh
  have hsame : (s.set_fat fs) = s := by
    unfold inode_release at hfs
    rw [hrem] at hfs
    obtain rfl := Outcome.ok.inj hfs
    rfl
  rw [hsame]
  have hwf := hx.wf.free_inode i
  constructor
  case base => exact hx.base
  case wf => exact hwf
  case disk => exact hx.disk
  case fat => exact hx.fat
  case file => exact hx.file
  case next_file => exact hx.next_file
  case view =>
    intro b
    rw [← hx.view b]
    by_cases hex : ∃ j jno, j ≠ i ∧ s.inode j = some jno ∧ jno.sector = b
    · obtain ⟨j, jno, hji, hj, rfl⟩ := hex
      rw [view_of_open hwf ((free_inode_other hji).trans hj), view_of_open hx.wf hj]
    · have hclosed : (s.free_inode i).view b = fresh_inode s.disk b := by
        apply view_of_closed hwf
        intro j jno hj hs
        obtain ⟨hji, hj⟩ := free_inode_cases hj
        exact hex ⟨j, jno, hji, hj, hs⟩
      rw [hclosed]
      by_cases hb : b = ino.sector
      · subst hb
        rw [hx.view, view_of_refs hx.base hzero, hx.disk]
      · symm
        apply view_of_closed hx.wf
        intro j jno hj hs
        have hji : j ≠ i := by
          rintro rfl
          rw [hi] at hj
          obtain rfl := Option.some.inj hj
          exact hb hs.symm
        exact hex ⟨j, jno, hji, hj, hs⟩
  case refs =>
    intro b
    rw [refs_free_inode hx.wf hi, hx.refs, Multiset.count_cons, hone]
    push_cast
    ring
  case kept =>
    intro j jno hj
    obtain ⟨jno', hj', hsec⟩ := hx.kept hj
    have hji : j ≠ i := by
      rintro rfl
      rw [hi] at hj'
      obtain rfl := Option.some.inj hj'
      rw [hsec, refs_of_open hx.base hj] at hzero
      have := hx.base.pos hj
      omega
    exact ⟨jno', (free_inode_other hji).trans hj', hsec⟩
  case next => exact hx.next
  case freed =>
    intro j hlt hj
    by_cases hji : j = i
    · subst hji
      exact Function.update_self _ _ _
    · exact (free_inode_other hji).trans (hx.freed hlt hj)

/-- Closing one of the handles on top. -/
theorem Extra.close (hx : Extra s₀ s (a ::ₘ h)) (hi : s.inode i = some ino) (hsec : ino.sector = a)
    (hclose : inode_close s i = .ok s') : Extra s₀ s' (s₀.stuck a + h) := by
  subst hsec
  have hgood : s₀.good ino.sector = decide (ino.data.magic = INODE_MAGIC) := by
    unfold good
    rw [← hx.view_open hi]
  obtain ⟨ino₁, hi₁, hcases⟩ := inode_close_cases hclose
  rw [hi] at hi₁
  obtain rfl := Option.some.inj hi₁
  unfold stuck
  rw [hgood]
  rcases hcases with ⟨hm, rfl⟩ | ⟨hm, hone, fs, hfs, rfl⟩ | ⟨hm, hne, rfl⟩
  · rw [decide_eq_false hm]
    exact hx
  · rw [decide_eq_true hm, if_pos rfl, Multiset.zero_add]
    exact hx.free hi hone hfs
  · rw [decide_eq_true hm, if_pos rfl, Multiset.zero_add]
    exact hx.count_down hi hne

/-- Closing frees an inode only if nobody else holds it. -/
theorem inode_close_kept (hwf : s.OpenWf) (hi : s.inode i = some ino)
    (hclose : inode_close s i = .ok s') {j : ℕ} {jno : Pintos.inode} (hj : s.inode j = some jno)
    (hheld : jno.sector = ino.sector → 2 ≤ s.refs ino.sector) :
    ∃ n, s'.inode j = some { jno with open_cnt := n } := by
  obtain ⟨ino₁, hi₁, hcases⟩ := inode_close_cases hclose
  rw [hi] at hi₁
  obtain rfl := Option.some.inj hi₁
  rcases hcases with ⟨-, rfl⟩ | ⟨-, hone, fs, -, rfl⟩ | ⟨-, -, rfl⟩
  · exact ⟨jno.open_cnt, hj⟩
  · have hji : j ≠ i := by
      rintro rfl
      rw [hi] at hj
      obtain rfl := Option.some.inj hj
      have := hheld rfl
      rw [refs_of_open hwf hi, hone] at this
      omega
    exact ⟨jno.open_cnt, (free_inode_other hji).trans hj⟩
  · by_cases hji : j = i
    · subst hji
      rw [hi] at hj
      obtain rfl := Option.some.inj hj
      exact ⟨_, Function.update_self _ _ _⟩
    · exact ⟨jno.open_cnt, (Function.update_of_ne hji _ _).trans hj⟩

/-- What is open after a close was open before, with the same contents. -/
theorem inode_close_back (hclose : inode_close s i = .ok s') {j : ℕ} {jno' : Pintos.inode}
    (hj : s'.inode j = some jno') :
    ∃ jno, s.inode j = some jno ∧ jno' = { jno with open_cnt := jno'.open_cnt } := by
  obtain ⟨ino, hi, hcases⟩ := inode_close_cases hclose
  rcases hcases with ⟨-, rfl⟩ | ⟨-, hone, fs, -, rfl⟩ | ⟨-, -, rfl⟩
  · exact ⟨jno', hj, rfl⟩
  · exact ⟨jno', (free_inode_cases hj).2, rfl⟩
  · rcases set_inode_cases hj with ⟨rfl, rfl⟩ | ⟨-, hj⟩
    · exact ⟨ino, hi, rfl⟩
    · exact ⟨jno', hj, rfl⟩

/-- The count after a close. -/
theorem refs_close (hwf : s.OpenWf) (hi : s.inode i = some ino)
    (hclose : inode_close s i = .ok s') : s'.OpenWf ∧ ∀ b, s'.refs b
      = s.refs b - if b = ino.sector ∧ ino.data.magic = INODE_MAGIC then 1 else 0 := by
  obtain ⟨ino₁, hi₁, hcases⟩ := inode_close_cases hclose
  rw [hi] at hi₁
  obtain rfl := Option.some.inj hi₁
  rcases hcases with ⟨hm, rfl⟩ | ⟨hm, hone, fs, -, rfl⟩ | ⟨hm, hne, rfl⟩
  · refine ⟨hwf, fun b => ?_⟩
    rw [if_neg fun hb => hm hb.2, sub_zero]
  · have hset : (s.set_fat fs).OpenWf := hwf.congr rfl rfl rfl
    refine ⟨hset.free_inode i, fun b => ?_⟩
    have hrefs : (s.set_fat fs).refs b = s.refs b := refs_congr rfl rfl b
    rw [refs_free_inode hset hi, hrefs, hone]
    simp only [hm, and_true]
  · have hpos : 1 ≤ ino.open_cnt - 1 := by
      have := hwf.pos hi
      omega
    refine ⟨hwf.set_inode hi rfl hpos, fun b => ?_⟩
    rw [refs_set_inode { ino with open_cnt := ino.open_cnt - 1 } hwf hi rfl hpos]
    simp only [hm, and_true]
    split
    · ring
    · ring

/-- A handle counts for at least one, two handles for two. -/
theorem Extra.two_le (hx : Extra s₀ s (a ::ₘ a ::ₘ h)) : 2 ≤ s.refs a := by
  have hcount := hx.refs a
  rw [Multiset.count_cons_self, Multiset.count_cons_self] at hcount
  have := refs_nonneg hx.base a
  omega

end Extra

end filesys

/-! ## Names -/

section Names

/-- Reading looks at the data of an inode only. -/
theorem inode_read_at_data {ino ino' : inode} (h : ino'.data = ino.data) (d : disk) (fs : fat_fs) :
    inode_read_at d fs ino' = inode_read_at d fs ino := by
  have hsec : ∀ pos, byte_to_sector fs ino' pos = byte_to_sector fs ino pos := by
    intro pos
    unfold byte_to_sector
    rw [h]
  have hloop : ∀ fuel, inode_read_at_loop d fs ino' fuel = inode_read_at_loop d fs ino fuel := by
    intro fuel
    induction fuel with
    | zero => rfl
    | succ fuel ih =>
        funext buffer size offset bytes_read
        have hlen : inode_length ino' = inode_length ino := congrArg inode_disk.length h
        rw [inode_read_at_loop, inode_read_at_loop, hsec, ih, hlen]
  unfold inode_read_at
  funext buffer size offset
  rw [hloop]

theorem dir_scan_data {s s' : filesys} {ino ino' : inode} (hd : s'.disk = s.disk)
    (hf : s'.fat = s.fat) (h : ino'.data = ino.data) (p : Bytes → Bool) (fuel : ℕ) :
    dir_scan s' ino' p fuel = dir_scan s ino p fuel := by
  induction fuel with
  | zero => rfl
  | succ fuel ih =>
      funext ofs e
      simp only [dir_scan, hd, hf, inode_read_at_data h, ih]

/-- `lookup` in the directory of sector `a`, whether it is open or not. -/
def entry_at (s : filesys) (a : ℕ) (name : c_string) : Outcome (Option (ℕ × Bytes)) := do
  let r ← dir_scan s (s.view a) (fun e => dir_entry.in_use e && dir_entry.has_name e name)
    ((s.view a).data.length.toNat / DIR_ENTRY_SIZE + 2) 0 zeros
  return if r.found then some (r.ofs, r.e) else none

/-- The directories a walk along `names` leaves behind, and the one it ends in. -/
def route (s : filesys) : List c_string → ℕ → Outcome (Option (List ℕ × ℕ))
  | [], a => .ok (some ([], a))
  | name :: names, a => do
      let entry ← entry_at s a name
      match entry with
      | none => .ok none
      | some (_, e) =>
          if (s.view (dir_entry.inode_sector e)).data.isdir then do
            let r ← route s names (dir_entry.inode_sector e)
            return r.map fun (l, z) => (a :: l, z)
          else .ok none

variable {s₀ s s' : filesys} {h : Multiset ℕ} {i a : ℕ} {ino : inode} {name : c_string}

/-- A lookup through a handle finds what the directory shows. -/
theorem lookup_eq (hx : filesys.Extra s₀ s h) (hi : s.inode i = some ino) :
    lookup s i name = entry_at s₀ ino.sector name := by
  have hdata : ino.data = (s₀.view ino.sector).data := by rw [← hx.view_open hi]
  unfold lookup dir_find entry_at
  rw [filesys.get_inode_eq_ok.mpr hi, Outcome.ok_bind, hdata,
    dir_scan_data hx.disk hx.fat hdata]

theorem dir_lookup_none (hx : filesys.Extra s₀ s h) (hi : s.inode i = some ino)
    (hl : dir_lookup s i name = .ok (none, s')) :
    entry_at s₀ ino.sector name = .ok none ∧ s' = s := by
  obtain ⟨entry, hentry, hl⟩ := Outcome.bind_eq_ok.mp hl
  rw [lookup_eq hx hi] at hentry
  cases entry with
  | none =>
      obtain ⟨-, rfl⟩ := Outcome.ok_pair hl
      exact ⟨hentry, rfl⟩
  | some entry =>
      obtain ⟨⟨j, s₁⟩, -, hl⟩ := Outcome.bind_eq_ok.mp hl
      cases Outcome.ok.inj hl

theorem dir_lookup_some (hx : filesys.Extra s₀ s h) (hi : s.inode i = some ino) {j : ℕ}
    (hl : dir_lookup s i name = .ok (some j, s')) :
    ∃ ofs e, entry_at s₀ ino.sector name = .ok (some (ofs, e))
      ∧ inode_open s (dir_entry.inode_sector e) = .ok (j, s') := by
  obtain ⟨entry, hentry, hl⟩ := Outcome.bind_eq_ok.mp hl
  rw [lookup_eq hx hi] at hentry
  cases entry with
  | none => cases Outcome.ok.inj hl
  | some entry =>
      obtain ⟨ofs, e⟩ := entry
      obtain ⟨⟨j₁, s₁⟩, hopen, hl⟩ := Outcome.bind_eq_ok.mp hl
      obtain ⟨hj, rfl⟩ := Outcome.ok_pair hl
      obtain rfl := Option.some.inj hj
      exact ⟨ofs, e, hentry, hopen⟩

/-- The array that `parse_path` fills. -/
theorem parse_path_eq_ok {path : c_string} {l : List c_string} (h : parse_path path = .ok l) :
    l = path_components path := by
  unfold parse_path at h
  split at h
  · exact (Outcome.ok.inj h).symm
  · cases h

end Names

/-! ## The walk -/

section Walk

variable {s₀ s s' : filesys} {h : Multiset ℕ} {i : ℕ} {ino : inode}

/-- What stays open of the directories a walk has left behind. -/
def left_open (s : filesys) (l : List ℕ) : Multiset ℕ := (l.filter fun a => !s.good a : List ℕ)

theorem left_open_cons (a : ℕ) (l : List ℕ) : left_open s (a :: l) = s.stuck a + left_open s l := by
  unfold left_open filesys.stuck
  cases hg : s.good a with
  | true => simp [hg]
  | false => simp [hg, Multiset.singleton_add]

theorem left_open_eq_zero {l : List ℕ} : left_open s l = 0 ↔ ∀ a ∈ l, s.good a = true := by
  simp [left_open]

theorem dir_walk_spec (names : List c_string) :
    ∀ {s i ino h r}, s.inode i = some ino → filesys.Extra s₀ s (ino.sector ::ₘ h) →
      dir_walk names s i = .ok (r, s') →
        (∃ l z j jno, r = some j ∧ route s₀ names ino.sector = .ok (some (l, z))
          ∧ s'.inode j = some jno ∧ jno.sector = z
          ∧ filesys.Extra s₀ s' (z ::ₘ (left_open s₀ l + h)))
        ∨ (r = none ∧ route s₀ names ino.sector = .ok none
          ∧ ∃ h', h' ≠ 0 ∧ filesys.Extra s₀ s' (h' + h)) := by
  induction names with
  | nil =>
      intro s i ino h r hi hx hwalk
      obtain ⟨rfl, rfl⟩ := Outcome.ok_pair hwalk
      left
      refine ⟨[], ino.sector, i, ino, rfl, rfl, hi, rfl, ?_⟩
      rwa [left_open_eq_zero.mpr (by simp), Multiset.zero_add]
  | cons name names ih =>
      intro s i ino h r hi hx hwalk
      obtain ⟨⟨found, s₁⟩, hlookup, hwalk⟩ := Outcome.bind_eq_ok.mp hwalk
      cases found with
      | none =>
          obtain ⟨rfl, rfl⟩ := Outcome.ok_pair hwalk
          obtain ⟨hentry, rfl⟩ := dir_lookup_none hx hi hlookup
          right
          refine ⟨rfl, ?_, {ino.sector}, by simp, by rwa [Multiset.singleton_add]⟩
          rw [route, hentry]
          rfl
      | some j =>
          obtain ⟨ofs, e, hentry, hopen⟩ := dir_lookup_some hx hi hlookup
          obtain ⟨hx₁, jno, hj, hjsec⟩ := hx.open hopen
          obtain ⟨jno₁, hj₁, hwalk⟩ := Outcome.bind_eq_ok.mp hwalk
          rw [filesys.get_inode_eq_ok, hj] at hj₁
          obtain rfl := Option.some.inj hj₁
          have hdir : (s₀.view (dir_entry.inode_sector e)).data.isdir = jno.data.isdir := by
            rw [← hjsec, ← hx₁.view_open hj]
          by_cases hisdir : jno.data.isdir = true
          · rw [if_pos hisdir] at hwalk
            obtain ⟨s₂, hclose, hwalk⟩ := Outcome.bind_eq_ok.mp hwalk
            -- both handles are out here; the one closed is that on the directory left behind
            obtain ⟨n, hi₁⟩ := filesys.inode_open_kept hx.wf hopen hi
            have hx₁' : filesys.Extra s₀ s₁ (ino.sector ::ₘ dir_entry.inode_sector e ::ₘ h) := by
              rwa [Multiset.cons_swap]
            have hx₂ := hx₁'.close hi₁ rfl hclose
            obtain ⟨m, hj₂⟩ := filesys.inode_close_kept hx₁.wf hi₁ hclose hj (by
              intro hsame
              rw [← hjsec, hsame] at hx₁
              exact hx₁.two_le)
            have hx₃ : filesys.Extra s₀ s₂ (jno.sector ::ₘ (s₀.stuck ino.sector + h)) := by
              rwa [hjsec, ← Multiset.add_cons]
            have hroute : ∀ r, route s₀ names (dir_entry.inode_sector e) = .ok r →
                route s₀ (name :: names) ino.sector
                  = .ok (r.map fun (l, z) => (ino.sector :: l, z)) := by
              intro r hr
              rw [route, hentry, Outcome.ok_bind]
              show (if (s₀.view (dir_entry.inode_sector e)).data.isdir then _ else _) = _
              rw [hdir, if_pos hisdir, hr]
              rfl
            rcases ih hj₂ hx₃ hwalk with ⟨l, z, k, kno, rfl, hr, hk, hz, hx'⟩ | ⟨rfl,
              hr, h', hne, hx'⟩
            · left
              rw [hjsec] at hr
              refine ⟨ino.sector :: l, z, k, kno, rfl, hroute _ hr, hk, hz, ?_⟩
              rw [left_open_cons, Multiset.add_comm (s₀.stuck ino.sector), Multiset.add_assoc]
              exact hx'
            · right
              rw [hjsec] at hr
              refine ⟨rfl, hroute _ hr, h' + s₀.stuck ino.sector, ?_, ?_⟩
              · intro hzero
                have hle : h' ≤ h' + s₀.stuck ino.sector := Multiset.le_add_right _ _
                rw [hzero] at hle
                exact hne (Multiset.le_zero.mp hle)
              · rwa [Multiset.add_assoc]
          · rw [if_neg hisdir] at hwalk
            obtain ⟨rfl, rfl⟩ := Outcome.ok_pair hwalk
            right
            refine ⟨rfl, ?_, {dir_entry.inode_sector e, ino.sector}, by simp, ?_⟩
            · rw [route, hentry, Outcome.ok_bind]
              show (if (s₀.view (dir_entry.inode_sector e)).data.isdir then _ else _) = _
              rw [hdir, if_neg hisdir]
            · show filesys.Extra s₀ s₁ ((dir_entry.inode_sector e ::ₘ {ino.sector}) + h)
              rwa [Multiset.cons_add, Multiset.singleton_add]

/-- Where `filesys_remove`, `sys_mkdir` and `sys_chdir` start. -/
def start_sector (s : filesys) (cwd : Option ℕ) (is_root : Bool) : ℕ :=
  match cwd.bind s.inode with
  | some ino => if is_root then ROOT_DIR_SECTOR else ino.sector
  | none => ROOT_DIR_SECTOR

/-- Where `filesys_create` and `filesys_open` start. -/
def start_sector_checked (s : filesys) (cwd : Option ℕ) (is_root : Bool) : ℕ :=
  match cwd.bind s.inode with
  | some ino => if is_root || ino.data.magic ≠ INODE_MAGIC then ROOT_DIR_SECTOR else ino.sector
  | none => ROOT_DIR_SECTOR

/-- A handle on the directory of sector `a`, and no other change. -/
def Started (s s' : filesys) (i a : ℕ) : Prop :=
  filesys.Extra s s' {a} ∧ ∃ ino, s'.inode i = some ino ∧ ino.sector = a

theorem dir_open_root_started (hwf : s.OpenWf) (hstart : dir_open_root s = .ok (i, s')) :
    Started s s' i ROOT_DIR_SECTOR := (filesys.Extra.refl hwf).open hstart

theorem dir_reopen_started (hwf : s.OpenWf) {dir : ℕ} (hstart : dir_reopen s dir = .ok (i, s')) :
    ∃ ino, s.inode dir = some ino ∧ Started s s' i ino.sector := by
  obtain ⟨s₁, hre, hstart⟩ := Outcome.bind_eq_ok.mp hstart
  obtain ⟨rfl, rfl⟩ := Outcome.ok_pair hstart
  obtain ⟨ino, hi, hx, ino', hi', hsec⟩ := (filesys.Extra.refl hwf).reopen hre
  exact ⟨ino, hi, hx, ino', hi', hsec⟩

theorem start_dir_started (hwf : s.OpenWf) {cwd : Option ℕ} {is_root : Bool}
    (hstart : start_dir s cwd is_root = .ok (i, s')) :
    Started s s' i (start_sector s cwd is_root) := by
  cases cwd with
  | none => exact dir_open_root_started hwf hstart
  | some dir =>
      cases is_root with
      | true =>
          have hroot : start_sector s (some dir) true = ROOT_DIR_SECTOR := by
            unfold start_sector
            cases hd : (some dir).bind s.inode with
            | none => rfl
            | some ino => rfl
          rw [hroot]
          exact dir_open_root_started hwf hstart
      | false =>
          obtain ⟨ino, hi, hs⟩ := dir_reopen_started hwf hstart
          have hsec : start_sector s (some dir) false = ino.sector := by
            unfold start_sector
            rw [Option.bind_some, hi]
            rfl
          rw [hsec]
          exact hs

theorem start_dir_checked_started (hwf : s.OpenWf) {cwd : Option ℕ} {is_root : Bool}
    (hstart : start_dir_checked s cwd is_root = .ok (i, s')) :
    Started s s' i (start_sector_checked s cwd is_root) := by
  cases cwd with
  | none => exact dir_open_root_started hwf hstart
  | some dir =>
      unfold start_dir_checked at hstart
      unfold start_sector_checked
      rw [Option.bind_some]
      cases hd : s.inode dir with
      | none =>
          have hbad : is_good_inode s dir = false := by
            unfold is_good_inode
            rw [hd]
          simp only [hbad, Bool.not_false, Bool.or_true, if_true] at hstart
          exact dir_open_root_started hwf hstart
      | some ino =>
          have hgood : is_good_inode s dir = decide (ino.data.magic = INODE_MAGIC) := by
            unfold is_good_inode
            rw [hd]
          have hne : decide (ino.data.magic ≠ INODE_MAGIC) = !is_good_inode s dir := by
            rw [hgood, decide_not]
          simp only [hne]
          simp only at hstart
          by_cases h : (is_root || !is_good_inode s dir) = true
          · rw [if_pos h] at hstart
            rw [if_pos h]
            exact dir_open_root_started hwf hstart
          · rw [if_neg h] at hstart
            rw [if_neg h]
            obtain ⟨ino', hi, hs⟩ := dir_reopen_started hwf hstart
            rw [hd] at hi
            obtain rfl := Option.some.inj hi
            exact hs

/-- A walk from where it started. -/
theorem Started.walk {a : ℕ} (hs : Started s₀ s i a) {names : List c_string} {r : Option ℕ}
    (hwalk : dir_walk names s i = .ok (r, s')) :
    (∃ l z j jno, r = some j ∧ route s₀ names a = .ok (some (l, z))
      ∧ s'.inode j = some jno ∧ jno.sector = z ∧ filesys.Extra s₀ s' (z ::ₘ left_open s₀ l))
    ∨ (r = none ∧ route s₀ names a = .ok none ∧ ∃ h, h ≠ 0 ∧ filesys.Extra s₀ s' h) := by
  obtain ⟨hx, ino, hi, rfl⟩ := hs
  have hx' : filesys.Extra s₀ s (ino.sector ::ₘ 0) := hx
  rcases dir_walk_spec names hi hx' hwalk with h | ⟨rfl, hr, h', hne, hx''⟩
  · left
    simpa only [Multiset.add_zero] using h
  · right
    exact ⟨rfl, hr, h', hne, by rwa [Multiset.add_zero] at hx''⟩

end Walk

end Pintos
